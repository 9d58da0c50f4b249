import Gxl.Document

/-!
# Spans of a tree

`mapSpans` changes every span of a piece of tree and nothing else.  `erase` replaces all of them by
one and the same span, so that two pieces with equal erasures differ at most in where they stand.
-/

namespace Gxl

/-- Pieces of tree whose spans can be changed, all by one function (`mapSpans`). -/
class Placed (α : Type) where
  /-- Changes every span. -/
  mapSpans : (Span → Span) → α → α

export Placed (mapSpans)

/-- A piece of tree with every span replaced by the `default` one. -/
def erase {α : Type} [Placed α] (a : α) : α :=
  mapSpans (fun _ => default) a

/-! ## Lists and leaves -/

instance {α : Type} [Placed α] : Placed (List α) where
  mapSpans f as := as.map (mapSpans f)

instance {α : Type} [Placed α] : Placed (Option α) where
  mapSpans f a := a.map (mapSpans f)

/-- What does not depend on the spans of the items does not depend on those of a list of them: a
form of `List.map` under `mapSpans`. -/
theorem map_mapSpans {α β : Type} [Placed α] {f : Span → Span} {g : α → β}
    (h : ∀ a, g (mapSpans f a) = g a) (as : List α) : (mapSpans f as).map g = as.map g := by
  show (as.map (mapSpans f)).map g = as.map g
  rw [List.map_map]
  exact List.map_congr_left fun a _ => h a

instance : Placed Ident where
  mapSpans f i := ⟨i.name, f i.span⟩

instance : Placed StrLit where
  mapSpans f s := ⟨s.raw, f s.span⟩

instance : Placed NumLit where
  mapSpans f n := ⟨n.text, f n.span⟩

instance : Placed RefList where
  mapSpans f r := ⟨mapSpans f r.names, f r.span⟩

/-! ## Annotations, properties and commands -/

instance : Placed Annot.Arg where
  mapSpans f
    | .keyed key value => .keyed (mapSpans f key) (mapSpans f value)
    | .bare value => .bare (mapSpans f value)

instance : Placed Annot where
  mapSpans f a := ⟨mapSpans f a.name, mapSpans f a.args, f a.span⟩

instance : Placed Literal where
  mapSpans f
    | .string value => .string (mapSpans f value)
    | .number value => .number (mapSpans f value)

instance : Placed Property where
  mapSpans f p := ⟨mapSpans f p.key, mapSpans f p.value, f p.span⟩

instance : Placed Arg.Value where
  mapSpans f
    | .string value => .string (mapSpans f value)
    | .variable name => .variable (mapSpans f name)

instance : Placed Arg where
  mapSpans f a := ⟨mapSpans f a.key, mapSpans f a.value, f a.span⟩

instance : Placed Target where
  mapSpans f
    | .name name => .name (mapSpans f name)
    | .path path => .path ⟨mapSpans f path.segments, f path.span⟩

/-- The `segments` of a target do not depend on where they stand. -/
theorem Target.segments_mapSpans (f : Span → Span) (t : Target) :
    (mapSpans f t).segments = t.segments := by
  cases t with
  | name name => rfl
  | path path => exact map_mapSpans (fun _ => rfl) path.segments

instance : Placed Command where
  mapSpans f
    | .builtin c => .builtin ⟨c.builtin, mapSpans f c.args, f c.span⟩
    | .call c => .call ⟨mapSpans f c.target, mapSpans f c.args, f c.span⟩

/-! ## The members of a module -/

instance : Placed VarsBlock where
  mapSpans f b := ⟨mapSpans f b.args, f b.span⟩

instance : Placed Environment.Entry where
  mapSpans f
    | .property p => .property (mapSpans f p)
    | .command c => .command (mapSpans f c)
    | .vars b => .vars (mapSpans f b)

instance : Placed Environment where
  mapSpans f e :=
    ⟨mapSpans f e.annots, mapSpans f e.name, mapSpans f e.refs, mapSpans f e.entries, f e.span⟩

instance : Placed Flow.Entry where
  mapSpans f
    | .command c => .command (mapSpans f c)
    | .property p => .property (mapSpans f p)

instance : Placed Flow where
  mapSpans f x :=
    ⟨mapSpans f x.annots, mapSpans f x.before, mapSpans f x.name, mapSpans f x.after,
      mapSpans f x.entries, f x.span⟩

instance : Placed FlowAlias where
  mapSpans f x := ⟨mapSpans f x.annots, mapSpans f x.name, mapSpans f x.targets, f x.span⟩

instance : Placed Param where
  mapSpans f p := ⟨p.variadic, mapSpans f p.name, mapSpans f p.fallback, f p.span⟩

instance : Placed Fn where
  mapSpans f x :=
    ⟨mapSpans f x.annots, mapSpans f x.name, mapSpans f x.params, mapSpans f x.body, f x.span⟩

instance : Placed Activity where
  mapSpans f a := ⟨mapSpans f a.annots, mapSpans f a.name, mapSpans f a.props, f a.span⟩

instance : Placed Member where
  mapSpans f
    | .property p => .property (mapSpans f p)
    | .environment e => .environment (mapSpans f e)
    | .flow x => .flow (mapSpans f x)
    | .flowAlias x => .flowAlias (mapSpans f x)
    | .fn x => .fn (mapSpans f x)
    | .activity a => .activity (mapSpans f a)

/-! ## Modules and documents -/

instance : Placed Module where
  mapSpans f m :=
    ⟨mapSpans f m.annots, mapSpans f m.name, mapSpans f m.refs, mapSpans f m.members, f m.span⟩

instance : Placed Origin where
  mapSpans f
    | .path place span => .path (mapSpans f place) (f span)
    | .git url channel span => .git (mapSpans f url) (mapSpans f channel) (f span)

instance : Placed External where
  mapSpans f e := ⟨mapSpans f e.names, mapSpans f e.origin, f e.span⟩

instance : Placed Item where
  mapSpans f
    | .module m => .module (mapSpans f m)
    | .external e => .external (mapSpans f e)

instance : Placed Document where
  mapSpans f d := ⟨mapSpans f d.items, f d.span⟩

end Gxl
