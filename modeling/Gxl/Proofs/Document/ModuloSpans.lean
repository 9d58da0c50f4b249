import Gxl.Proofs.Document.SameTree

/-!
# Equality up to spans

Documents are the same tree exactly if they are equal once every span in them is replaced by one and
the same (`Document.sameTree_iff_mapSpans_eq`), whichever span that is.

Changing the spans twice is changing them once (`mapSpans_mapSpans`), so a tree can be put on a
chosen span after its spans are erased, and comparing erased trees is comparing trees on any span.
-/

namespace Gxl

/-- Pieces of tree whose `mapSpans` is a map: changing no span changes nothing, and changing the
spans by one function and then by another is changing them by the two in turn. -/
class LawfulPlaced (α : Type) [Placed α] : Prop where
  /-- No change is none. -/
  mapSpans_id : ∀ a : α, mapSpans (fun s => s) a = a
  /-- Two changes are one. -/
  mapSpans_mapSpans : ∀ (f g : Span → Span) (a : α),
    mapSpans f (mapSpans g a) = mapSpans (fun s => f (g s)) a

export LawfulPlaced (mapSpans_id mapSpans_mapSpans)

/-- Nothing of the old spans is left when all of them are replaced by one, so `erase` before it
makes no difference. -/
theorem mapSpans_const_erase {α : Type} [Placed α] [LawfulPlaced α] (s : Span) (a : α) :
    mapSpans (fun _ => s) (erase a) = mapSpans (fun _ => s) a :=
  mapSpans_mapSpans (fun _ => s) (fun _ => default) a

/-! ## Lists and leaves -/

instance {α : Type} [Placed α] [LawfulPlaced α] : LawfulPlaced (List α) where
  mapSpans_id as := by
    show as.map (mapSpans fun s => s) = as
    rw [List.map_congr_left fun a _ => mapSpans_id a]
    exact List.map_id' as
  mapSpans_mapSpans f g as := by
    show (as.map (mapSpans g)).map (mapSpans f) = as.map (mapSpans _)
    rw [List.map_map]
    exact List.map_congr_left fun a _ => mapSpans_mapSpans f g a

instance {α : Type} [Placed α] [LawfulPlaced α] : LawfulPlaced (Option α) where
  mapSpans_id
    | none => rfl
    | some a => congrArg some (mapSpans_id a)
  mapSpans_mapSpans f g
    | none => rfl
    | some a => congrArg some (mapSpans_mapSpans f g a)

instance : LawfulPlaced Ident := ⟨fun _ => rfl, fun _ _ _ => rfl⟩

instance : LawfulPlaced StrLit := ⟨fun _ => rfl, fun _ _ _ => rfl⟩

instance : LawfulPlaced RefList where
  mapSpans_id _ := (RefList.mk.injEq ..).mpr ⟨mapSpans_id .., rfl⟩
  mapSpans_mapSpans _ _ _ := (RefList.mk.injEq ..).mpr ⟨mapSpans_mapSpans .., rfl⟩

/-! ## Annotations, properties and commands -/

instance : LawfulPlaced Annot.Arg where
  mapSpans_id
    | .keyed _ _ => rfl
    | .bare _ => rfl
  mapSpans_mapSpans _ _
    | .keyed _ _ => rfl
    | .bare _ => rfl

instance : LawfulPlaced Annot where
  mapSpans_id _ := (Annot.mk.injEq ..).mpr ⟨rfl, mapSpans_id .., rfl⟩
  mapSpans_mapSpans _ _ _ := (Annot.mk.injEq ..).mpr ⟨rfl, mapSpans_mapSpans .., rfl⟩

instance : LawfulPlaced Literal where
  mapSpans_id
    | .string _ => rfl
    | .number _ => rfl
  mapSpans_mapSpans _ _
    | .string _ => rfl
    | .number _ => rfl

instance : LawfulPlaced Property where
  mapSpans_id _ := (Property.mk.injEq ..).mpr ⟨rfl, mapSpans_id .., rfl⟩
  mapSpans_mapSpans _ _ _ := (Property.mk.injEq ..).mpr ⟨rfl, mapSpans_mapSpans .., rfl⟩

instance : LawfulPlaced Arg.Value where
  mapSpans_id
    | .string _ => rfl
    | .variable _ => rfl
  mapSpans_mapSpans _ _
    | .string _ => rfl
    | .variable _ => rfl

instance : LawfulPlaced Arg where
  mapSpans_id _ := (Arg.mk.injEq ..).mpr ⟨rfl, mapSpans_id .., rfl⟩
  mapSpans_mapSpans _ _ _ := (Arg.mk.injEq ..).mpr ⟨rfl, mapSpans_mapSpans .., rfl⟩

instance : LawfulPlaced Target where
  mapSpans_id
    | .name _ => rfl
    | .path path => by
      refine congrArg Target.path ?_
      exact (Path.mk.injEq ..).mpr ⟨mapSpans_id path.segments, rfl⟩
  mapSpans_mapSpans f g
    | .name _ => rfl
    | .path path => by
      refine congrArg Target.path ?_
      exact (Path.mk.injEq ..).mpr ⟨mapSpans_mapSpans f g path.segments, rfl⟩

instance : LawfulPlaced Command where
  mapSpans_id
    | .builtin c => by
      refine congrArg Command.builtin ?_
      exact (BuiltinCall.mk.injEq ..).mpr ⟨rfl, mapSpans_id c.args, rfl⟩
    | .call c => by
      refine congrArg Command.call ?_
      exact (Call.mk.injEq ..).mpr ⟨mapSpans_id c.target, mapSpans_id c.args, rfl⟩
  mapSpans_mapSpans f g
    | .builtin c => by
      refine congrArg Command.builtin ?_
      exact (BuiltinCall.mk.injEq ..).mpr ⟨rfl, mapSpans_mapSpans f g c.args, rfl⟩
    | .call c => by
      refine congrArg Command.call ?_
      exact (Call.mk.injEq ..).mpr
        ⟨mapSpans_mapSpans f g c.target, mapSpans_mapSpans f g c.args, rfl⟩

/-! ## The members of a module -/

instance : LawfulPlaced VarsBlock where
  mapSpans_id _ := (VarsBlock.mk.injEq ..).mpr ⟨mapSpans_id .., rfl⟩
  mapSpans_mapSpans _ _ _ := (VarsBlock.mk.injEq ..).mpr ⟨mapSpans_mapSpans .., rfl⟩

instance : LawfulPlaced Environment.Entry where
  mapSpans_id
    | .property _ => congrArg Environment.Entry.property (mapSpans_id ..)
    | .command _ => congrArg Environment.Entry.command (mapSpans_id ..)
    | .vars _ => congrArg Environment.Entry.vars (mapSpans_id ..)
  mapSpans_mapSpans _ _
    | .property _ => congrArg Environment.Entry.property (mapSpans_mapSpans ..)
    | .command _ => congrArg Environment.Entry.command (mapSpans_mapSpans ..)
    | .vars _ => congrArg Environment.Entry.vars (mapSpans_mapSpans ..)

instance : LawfulPlaced Environment where
  mapSpans_id _ := (Environment.mk.injEq ..).mpr
    ⟨mapSpans_id .., rfl, mapSpans_id .., mapSpans_id .., rfl⟩
  mapSpans_mapSpans _ _ _ := (Environment.mk.injEq ..).mpr
    ⟨mapSpans_mapSpans .., rfl, mapSpans_mapSpans .., mapSpans_mapSpans .., rfl⟩

instance : LawfulPlaced Flow.Entry where
  mapSpans_id
    | .command _ => congrArg Flow.Entry.command (mapSpans_id ..)
    | .property _ => congrArg Flow.Entry.property (mapSpans_id ..)
  mapSpans_mapSpans _ _
    | .command _ => congrArg Flow.Entry.command (mapSpans_mapSpans ..)
    | .property _ => congrArg Flow.Entry.property (mapSpans_mapSpans ..)

instance : LawfulPlaced Flow where
  mapSpans_id _ := (Flow.mk.injEq ..).mpr
    ⟨mapSpans_id .., mapSpans_id .., rfl, mapSpans_id .., mapSpans_id ..,
      rfl⟩
  mapSpans_mapSpans _ _ _ := (Flow.mk.injEq ..).mpr
    ⟨mapSpans_mapSpans .., mapSpans_mapSpans .., rfl, mapSpans_mapSpans .., mapSpans_mapSpans ..,
      rfl⟩

instance : LawfulPlaced FlowAlias where
  mapSpans_id _ := (FlowAlias.mk.injEq ..).mpr
    ⟨mapSpans_id .., rfl, mapSpans_id .., rfl⟩
  mapSpans_mapSpans _ _ _ := (FlowAlias.mk.injEq ..).mpr
    ⟨mapSpans_mapSpans .., rfl, mapSpans_mapSpans .., rfl⟩

instance : LawfulPlaced Param where
  mapSpans_id _ := (Param.mk.injEq ..).mpr ⟨rfl, rfl, mapSpans_id .., rfl⟩
  mapSpans_mapSpans _ _ _ := (Param.mk.injEq ..).mpr ⟨rfl, rfl, mapSpans_mapSpans .., rfl⟩

instance : LawfulPlaced Fn where
  mapSpans_id _ := (Fn.mk.injEq ..).mpr
    ⟨mapSpans_id .., rfl, mapSpans_id .., mapSpans_id .., rfl⟩
  mapSpans_mapSpans _ _ _ := (Fn.mk.injEq ..).mpr
    ⟨mapSpans_mapSpans .., rfl, mapSpans_mapSpans .., mapSpans_mapSpans .., rfl⟩

instance : LawfulPlaced Activity where
  mapSpans_id _ := (Activity.mk.injEq ..).mpr
    ⟨mapSpans_id .., rfl, mapSpans_id .., rfl⟩
  mapSpans_mapSpans _ _ _ := (Activity.mk.injEq ..).mpr
    ⟨mapSpans_mapSpans .., rfl, mapSpans_mapSpans .., rfl⟩

instance : LawfulPlaced Member where
  mapSpans_id
    | .property _ => congrArg Member.property (mapSpans_id ..)
    | .environment _ => congrArg Member.environment (mapSpans_id ..)
    | .flow _ => congrArg Member.flow (mapSpans_id ..)
    | .flowAlias _ => congrArg Member.flowAlias (mapSpans_id ..)
    | .fn _ => congrArg Member.fn (mapSpans_id ..)
    | .activity _ => congrArg Member.activity (mapSpans_id ..)
  mapSpans_mapSpans _ _
    | .property _ => congrArg Member.property (mapSpans_mapSpans ..)
    | .environment _ => congrArg Member.environment (mapSpans_mapSpans ..)
    | .flow _ => congrArg Member.flow (mapSpans_mapSpans ..)
    | .flowAlias _ => congrArg Member.flowAlias (mapSpans_mapSpans ..)
    | .fn _ => congrArg Member.fn (mapSpans_mapSpans ..)
    | .activity _ => congrArg Member.activity (mapSpans_mapSpans ..)

/-! ## Modules and documents -/

instance : LawfulPlaced Module where
  mapSpans_id _ := (Module.mk.injEq ..).mpr
    ⟨mapSpans_id .., rfl, mapSpans_id .., mapSpans_id .., rfl⟩
  mapSpans_mapSpans _ _ _ := (Module.mk.injEq ..).mpr
    ⟨mapSpans_mapSpans .., rfl, mapSpans_mapSpans .., mapSpans_mapSpans .., rfl⟩

instance : LawfulPlaced Origin where
  mapSpans_id
    | .path _ _ => rfl
    | .git _ _ _ => rfl
  mapSpans_mapSpans _ _
    | .path _ _ => rfl
    | .git _ _ _ => rfl

instance : LawfulPlaced External where
  mapSpans_id _ := (External.mk.injEq ..).mpr
    ⟨mapSpans_id .., mapSpans_id .., rfl⟩
  mapSpans_mapSpans _ _ _ := (External.mk.injEq ..).mpr
    ⟨mapSpans_mapSpans .., mapSpans_mapSpans .., rfl⟩

instance : LawfulPlaced Item where
  mapSpans_id
    | .module _ => congrArg Item.module (mapSpans_id ..)
    | .external _ => congrArg Item.external (mapSpans_id ..)
  mapSpans_mapSpans _ _
    | .module _ => congrArg Item.module (mapSpans_mapSpans ..)
    | .external _ => congrArg Item.external (mapSpans_mapSpans ..)

instance : LawfulPlaced Document where
  mapSpans_id _ := (Document.mk.injEq ..).mpr ⟨mapSpans_id .., rfl⟩
  mapSpans_mapSpans _ _ _ := (Document.mk.injEq ..).mpr ⟨mapSpans_mapSpans .., rfl⟩

namespace Document

/-- Documents are the same tree (`sameTree`) exactly if they are equal once every span is replaced
by one and the same, whichever that is. -/
theorem sameTree_iff_mapSpans_eq (d e : Document) (s : Span) :
    sameTree d e = true ↔ mapSpans (fun _ => s) d = mapSpans (fun _ => s) e := by
  constructor
  · intro h
    have herase : erase d = erase e := erase_eq_of_sameTree h
    rw [← mapSpans_const_erase s d, herase, mapSpans_const_erase]
  · intro h
    have hshape : d.shape = e.shape := by
      rw [← shape_mapSpans d, ← shape_mapSpans e, h]
    rw [sameTree, hshape]
    exact beq_self_eq_true _

end Document

end Gxl
