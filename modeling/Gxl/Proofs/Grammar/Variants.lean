import Gxl.Proofs.Grammar.Terminators

/-!
# Phrases that differ in their optional semicolons

A semicolon behind a closing brace may be struck out, and one may be put in where there is none.
`Toggles` says that one phrase comes from another in this way, at any number of its braces.  What
comes from the phrase of a document is the phrase of a document with the same tree
(`File.exists_yield_of_toggles`).

The derivation of the new phrase is found rule by rule.  A phrase without closing braces stays as it
is, and a closing brace keeps, gains or loses its semicolon; that it has only one to lose follows
from what stands behind it, which never starts with a semicolon of its own.  `Restored` says that
the phrases of a rule are found in this way, and there is one lemma for each rule with braces.
-/

namespace Gxl

open Gxl.Derivation

/-- The second phrase comes from the first by striking out semicolons right behind closing braces,
and by putting semicolons there where there are none.  The flag `afterBrace` tells whether the
symbol before the phrase is a closing brace. -/
inductive Toggles : Bool → Phrase → Phrase → Prop where
  | nil (afterBrace : Bool) : Toggles afterBrace [] []
  | keep {afterBrace : Bool} {s : Symbol} {v v' : Phrase}
      (h : Toggles (s.kind == .braceClose) v v') : Toggles afterBrace (s :: v) (s :: v')
  | strike {v v' : Phrase} (h : Toggles false v v') : Toggles true (.sign .semicolon :: v) v'
  | add {v v' : Phrase} (hv : Rule.Clear .semicolon v) (h : Toggles false v v') :
      Toggles true v (.sign .semicolon :: v')

namespace Toggles

variable {v' w z : Phrase}

/-- Nothing need be changed. -/
theorem refl (afterBrace : Bool) (v : Phrase) : Toggles afterBrace v v := by
  induction v generalizing afterBrace with
  | nil => exact .nil afterBrace
  | cons s v ih => exact .keep (ih _)

/-- A phrase `w` without closing braces stays as it is. -/
theorem exists_append (hw : Braceless w) (h : Toggles false (w ++ z) v') :
    ∃ z', v' = w ++ z' ∧ Toggles false z z' := by
  induction w generalizing v' with
  | nil => exact ⟨v', rfl, h⟩
  | cons s w ih =>
    obtain ⟨hs, hw⟩ := braceless_cons.1 hw
    rw [List.cons_append] at h
    cases h with
    | keep h =>
      rw [beq_false_of_ne hs] at h
      obtain ⟨z', rfl, hz⟩ := ih hw h
      exact ⟨z', rfl, hz⟩

/-- Right behind a closing brace a semicolon is kept, put in or struck out: the `terminator` may be
any. -/
theorem exists_terminator {semi : Bool} (hz : Rule.Clear .semicolon z)
    (h : Toggles true (terminator semi ++ z) v') :
    ∃ semi' z', v' = terminator semi' ++ z' ∧ Toggles false z z' := by
  cases semi with
  | false =>
    rw [terminator, if_neg (by simp), List.nil_append] at h
    cases h with
    | nil => exact ⟨false, [], rfl, .nil false⟩
    | @keep _ s v v'' hv => exact ⟨false, s :: v'', rfl, .keep hv⟩
    | strike => exact absurd rfl (Rule.clear_cons.1 hz)
    | @add _ v'' _ hv => exact ⟨true, v'', rfl, hv⟩
  | true =>
    rw [terminator_true, List.singleton_append] at h
    cases h with
    | @keep _ _ _ v'' hv => exact ⟨true, v'', rfl, hv⟩
    | strike hv => exact ⟨false, v', rfl, hv⟩
    | add hclear _ => exact absurd rfl (Rule.clear_cons.1 hclear)

/-- A closing brace is kept, and the `terminator` behind it may be any. -/
theorem exists_braceClose {semi : Bool} (hz : Rule.Clear .semicolon z)
    (h : Toggles false (.sign .braceClose :: (terminator semi ++ z)) v') :
    ∃ semi' z', v' = .sign .braceClose :: (terminator semi' ++ z') ∧ Toggles false z z' := by
  cases h with
  | keep hv =>
    obtain ⟨semi', z', rfl, hz'⟩ := exists_terminator hz hv
    exact ⟨semi', z', rfl, hz'⟩

end Toggles

/-! ## Rules -/

/-- The phrases of a rule are found again: what comes from the phrase of a derivation by `Toggles`
is the phrase of one that differs from it in its semicolons only, so that `full` of both is the
same. -/
def Restored {β : Type} (y : β → Phrase) (full : β → β) : Prop :=
  ∀ b z v', Rule.Clear .semicolon z → Toggles false (y b ++ z) v' →
    ∃ b' z', v' = y b' ++ z' ∧ full b' = full b ∧ Toggles false z z'

/-- Phrases that are `Braceless` are found as they are. -/
theorem restored_of_braceless {β : Type} {y : β → Phrase} (hy : ∀ b, Braceless (y b)) :
    Restored y id := by
  intro b z v' _ h
  obtain ⟨z', rfl, hz⟩ := h.exists_append (hy b)
  exact ⟨b, z', rfl, rfl, hz⟩

namespace Restored

variable {β : Type} {y : β → Phrase} {full : β → β} {v' w z : Phrase}

/-- Entries in a row are found one by one, if each of them is (`Restored`). -/
theorem flatMap (h : Restored y full) (hy : ∀ b, StartsEntry (y b)) (bs : List β)
    (hz : Rule.Clear .semicolon z) (hv : Toggles false (bs.flatMap y ++ z) v') :
    ∃ (bs' : List β) (z' : Phrase), v' = bs'.flatMap y ++ z' ∧ bs'.map full = bs.map full ∧
      Toggles false z z' := by
  induction bs generalizing v' with
  | nil => exact ⟨[], v', rfl, rfl, hv⟩
  | cons b bs ih =>
    -- no entry starts with a semicolon, so the one before it has at most one
    have hclear : Rule.Clear .semicolon (bs.flatMap y ++ z) := by
      cases bs with
      | nil => exact hz
      | cons b' bs =>
        rw [List.flatMap_cons, List.append_assoc]
        exact (hy b').clear (by decide) _
    rw [List.flatMap_cons, List.append_assoc] at hv
    obtain ⟨b', v₁, rfl, hb, hv₁⟩ := h b _ _ hclear hv
    obtain ⟨bs', z', rfl, hbs, hz'⟩ := ih hv₁
    exact ⟨b' :: bs', z', by simp, by simp [hb, hbs], hz'⟩

/-- Entries between braces, behind a phrase `w` without closing braces, are found one by one. -/
theorem braced (h : Restored y full) (hy : ∀ b, StartsEntry (y b)) (hw : Braceless w)
    {bs : List β} {semi : Bool} (hz : Rule.Clear .semicolon z)
    (hv : Toggles false (w ++ (Derivation.braced y bs semi ++ z)) v') :
    ∃ (bs' : List β) (semi' : Bool) (z' : Phrase),
      v' = w ++ (Derivation.braced y bs' semi' ++ z') ∧ bs'.map full = bs.map full ∧
      Toggles false z z' := by
  obtain ⟨v₁, rfl, hv₁⟩ := hv.exists_append hw
  rw [Derivation.braced, List.cons_append, List.append_assoc, List.cons_append] at hv₁
  obtain ⟨v₂, rfl, hv₂⟩ := hv₁.exists_append (w := [.sign .braceOpen]) (by simp)
  obtain ⟨bs', v₃, rfl, hbs, hv₃⟩ := h.flatMap hy bs (by simp) hv₂
  obtain ⟨semi', z', rfl, hz'⟩ := hv₃.exists_braceClose hz
  exact ⟨bs', semi', z', by simp [Derivation.braced], hbs, hz'⟩

/-- Entries that are `Braceless` are found as they are between their braces. -/
theorem braced_self (hbraceless : ∀ b, Braceless (y b)) (hy : ∀ b, StartsEntry (y b))
    (hw : Braceless w) {bs : List β} {semi : Bool} (hz : Rule.Clear .semicolon z)
    (hv : Toggles false (w ++ (Derivation.braced y bs semi ++ z)) v') :
    ∃ (semi' : Bool) (z' : Phrase), v' = w ++ (Derivation.braced y bs semi' ++ z') ∧
      Toggles false z z' := by
  obtain ⟨bs', semi', z', rfl, hbs, hz'⟩ := (restored_of_braceless hbraceless).braced hy hw hz hv
  rw [List.map_id, List.map_id] at hbs
  exact ⟨semi', z', by rw [hbs], hz'⟩

end Restored

namespace Derivation

/-- An entry of an environment is found again: a block `vars` with its semicolon or without. -/
theorem EnvironmentEntry.restored : Restored yield full := by
  intro e z v' hz h
  cases e with
  | property p =>
    obtain ⟨z', rfl, hz'⟩ := h.exists_append p.braceless
    exact ⟨.property p, z', rfl, rfl, hz'⟩
  | command c =>
    obtain ⟨z', rfl, hz'⟩ := h.exists_append c.braceless
    exact ⟨.command c, z', rfl, rfl, hz'⟩
  | vars args semi =>
    have hhead : Braceless (.word "gx" :: .sign .dot :: .word "vars" :: .sign .braceOpen ::
        separated Arg.yield args) := by
      simp [braceless_separated Arg.braceless]
    obtain ⟨v₁, rfl, hv₁⟩ := Toggles.exists_append hhead
      (z := .sign .braceClose :: (terminator semi ++ z)) (by simpa [yield] using h)
    obtain ⟨semi', z', rfl, hz'⟩ := hv₁.exists_braceClose hz
    exact ⟨.vars args semi', z', by simp [yield], rfl, hz'⟩

/-- A construct is found again, one case a constructor. -/
theorem Construct.restored : Restored yield full := by
  intro c z v' hz h
  cases c with
  | environment name refs entries semi =>
    have hhead : Braceless (.word "env" :: name.symbol :: Refs.yieldAfter .colon refs) := by
      simp [Refs.braceless_after]
    obtain ⟨entries', semi', z', rfl, hentries, hz'⟩ :=
      EnvironmentEntry.restored.braced EnvironmentEntry.startsEntry hhead hz
        (by simpa [yield] using h)
    exact ⟨.environment name refs entries' semi', z', by simp [yield], by simp [full, hentries],
      hz'⟩
  | flow before name after entries semi =>
    have hbefore : Braceless (yieldBefore before) := by
      cases before <;> simp [yieldBefore, Refs.braceless]
    have hhead : Braceless (.word "flow" :: (yieldBefore before ++ .sign .atSign :: name.symbol ::
        Refs.yieldAfter .pipe after)) := by
      simp [hbefore, Refs.braceless_after]
    obtain ⟨semi', z', rfl, hz'⟩ :=
      Restored.braced_self FlowEntry.braceless FlowEntry.startsEntry hhead hz
        (by simpa [yield] using h)
    exact ⟨.flow before name after entries semi', z', by simp [yield], rfl, hz'⟩
  | flowAlias name targets =>
    have hbraceless : Braceless (yield (.flowAlias name targets)) := by
      simp [yield, targets.braceless]
    obtain ⟨z', rfl, hz'⟩ := h.exists_append hbraceless
    exact ⟨.flowAlias name targets, z', rfl, rfl, hz'⟩
  | fn name params body semi =>
    have hhead : Braceless (.word "fn" :: name.symbol :: .sign .parenOpen ::
        (separated Param.yield params ++ [.sign .parenClose])) := by
      simp [braceless_separated Param.braceless]
    obtain ⟨semi', z', rfl, hz'⟩ :=
      Restored.braced_self Command.braceless Command.startsEntry hhead hz
        (by simpa [yield] using h)
    exact ⟨.fn name params body semi', z', by simp [yield], rfl, hz'⟩
  | activity name props semi =>
    have hhead : Braceless [.word "activity", name.symbol] := by simp
    obtain ⟨semi', z', rfl, hz'⟩ :=
      Restored.braced_self Property.braceless Property.startsEntry hhead hz
        (by simpa [yield] using h)
    exact ⟨.activity name props semi', z', by simp [yield], rfl, hz'⟩

/-- A member is found again. -/
theorem Member.restored : Restored yield full := by
  intro m z v' hz h
  cases m with
  | property p =>
    obtain ⟨z', rfl, hz'⟩ := h.exists_append p.braceless
    exact ⟨.property p, z', rfl, rfl, hz'⟩
  | construct annots c =>
    obtain ⟨v₁, rfl, hv₁⟩ := Toggles.exists_append (braceless_flatMap Annot.braceless annots)
      (z := c.yield ++ z) (by simpa [yield] using h)
    obtain ⟨c', z', rfl, hc, hz'⟩ := Construct.restored c z v₁ hz hv₁
    exact ⟨.construct annots c', z', by simp [yield], by simp [full, hc], hz'⟩

/-- An item is found again. -/
theorem Top.restored : Restored yield full := by
  intro d z v' hz h
  rcases d with ⟨annots, name, refs, members, semi⟩ | ⟨names, origin, semi⟩
  · have hhead : Braceless (yieldHeader annots name refs) := by
      simp [yieldHeader, braceless_flatMap Annot.braceless, Refs.braceless_after]
    obtain ⟨members', semi', z', rfl, hmembers, hz'⟩ :=
      Member.restored.braced Rule.startsEntry_member hhead hz (by simpa [yield] using h)
    exact ⟨.module annots name refs members' semi', z', by simp [yield], by simp [full, hmembers],
      hz'⟩
  · have horigin : Braceless origin.yield := by
      cases origin <;> simp [Origin.yield]
    have hhead : Braceless (.word "extern" :: .word "mod" :: (names.yield ++ .sign .braceOpen ::
        origin.yield)) := by
      simp [names.braceless, horigin]
    obtain ⟨v₁, rfl, hv₁⟩ := Toggles.exists_append hhead
      (z := .sign .braceClose :: (terminator semi ++ z)) (by simpa [yield] using h)
    obtain ⟨semi', z', rfl, hz'⟩ := hv₁.exists_braceClose hz
    exact ⟨.external names origin semi', z', by simp [yield], rfl, hz'⟩

/-- What comes from the phrase of a document by `Toggles`, with the end of the text behind it, is
the phrase of a document with the same tree. -/
theorem File.exists_yield_of_toggles (d : File) {s : Symbol} {v' : Phrase} (hs : s.kind = .eof)
    (h : Toggles false (d.yield ++ [s]) v') :
    ∃ d' : File, v' = d'.yield ++ [s] ∧ d'.tree = d.tree := by
  obtain ⟨tops, z', rfl, htops, hz'⟩ :=
    Top.restored.flatMap Top.startsEntry d.tops (by simp [hs]) h
  obtain ⟨z'', rfl, hnil⟩ := hz'.exists_append (w := [s]) (z := []) (by simp [hs])
  cases hnil with
  | nil =>
    have hfull : File.full ⟨tops⟩ = d.full := congrArg File.mk htops
    exact ⟨⟨tops⟩, rfl, by rw [← File.tree_full ⟨tops⟩, hfull, File.tree_full]⟩

end Derivation

end Gxl
