import Gxl.Proofs.Grammar.Documents

/-!
# Optional semicolons

A semicolon may follow the closing brace of a construct and says nothing.  `full` is the derivation
that has all of these semicolons and denotes the same tree; `normalise` does the same to a phrase
without knowing how it is derived: it drops every semicolon right behind a closing brace and then
puts one behind every closing brace.  The two agree (`File.normalise_yield`), since within a
document every closing brace is one that a semicolon may follow.
-/

namespace Gxl

/-! ## Phrases -/

/-- Drops every semicolon right behind a closing brace.  The flag `afterBrace` tells whether the
symbol before the phrase is such a brace. -/
def dropTerminators (afterBrace : Bool) : Phrase → Phrase
  | [] => []
  | s :: v =>
    if afterBrace && s.kind == .semicolon then dropTerminators false v
    else s :: dropTerminators (s.kind == .braceClose) v

/-- Puts a semicolon behind every closing brace, be there one or not. -/
def addTerminators (v : Phrase) : Phrase :=
  v.flatMap fun s => if s.kind = .braceClose then [s, .sign .semicolon] else [s]

/-- The phrase with exactly one semicolon behind every closing brace, from behind such a brace or
not: `dropTerminators`, then `addTerminators`. -/
def normaliseFrom (afterBrace : Bool) (v : Phrase) : Phrase :=
  addTerminators (dropTerminators afterBrace v)

/-- The phrase with exactly one semicolon behind every closing brace (`normaliseFrom`). -/
def normalise (v : Phrase) : Phrase :=
  normaliseFrom false v

/-- A phrase without a closing brace, a symbol of the kind `braceClose`. -/
def Braceless (w : Phrase) : Prop :=
  ∀ s ∈ w, s.kind ≠ .braceClose

@[simp] theorem braceless_nil : Braceless [] := by simp [Braceless]

/-- A phrase is braceless if its first symbol is no closing brace and the rest is braceless. -/
@[simp] theorem braceless_cons {s : Symbol} {w : Phrase} :
    Braceless (s :: w) ↔ s.kind ≠ .braceClose ∧ Braceless w := by
  simp [Braceless]

/-- A phrase is braceless if both of its parts are. -/
@[simp] theorem braceless_append {u w : Phrase} :
    Braceless (u ++ w) ↔ Braceless u ∧ Braceless w :=
  List.forall_mem_append

/-- Braceless phrases one behind the other are braceless. -/
theorem braceless_flatMap {β : Type} {y : β → Phrase} (hy : ∀ b, Braceless (y b)) (bs : List β) :
    Braceless (bs.flatMap y) := by
  intro s hs
  obtain ⟨b, -, hb⟩ := List.mem_flatMap.1 hs
  exact hy b s hb

/-- Braceless phrases `separated` by commas are braceless. -/
theorem braceless_separated {β : Type} {y : β → Phrase} (hy : ∀ b, Braceless (y b))
    (bs : List β) : Braceless (separated y bs) := by
  cases bs with
  | nil => exact braceless_nil
  | cons b bs => simpa [separated, hy] using braceless_flatMap (by simp [hy]) bs

section Normalise

variable {afterBrace : Bool} {s : Symbol} {v w : Phrase}

@[simp] theorem normaliseFrom_nil : normaliseFrom afterBrace [] = [] := rfl

/-- A symbol that is no closing brace stays, if no brace stands before it. -/
theorem normaliseFrom_cons (hs : s.kind ≠ .braceClose) :
    normaliseFrom false (s :: v) = s :: normaliseFrom false v := by
  simp [normaliseFrom, dropTerminators, addTerminators, hs, beq_false_of_ne hs]

@[simp] theorem normaliseFrom_word (w : String) :
    normaliseFrom false (.word w :: v) = .word w :: normaliseFrom false v :=
  normaliseFrom_cons (by simp)

@[simp] theorem normaliseFrom_name (n : Derivation.Name) :
    normaliseFrom false (n.symbol :: v) = n.symbol :: normaliseFrom false v :=
  normaliseFrom_cons (by simp)

@[simp] theorem normaliseFrom_sign {k : Kind} (hk : k ≠ .braceClose) :
    normaliseFrom false (.sign k :: v) = .sign k :: normaliseFrom false v :=
  normaliseFrom_cons hk

/-- A closing brace gets its semicolon, and what follows is seen from behind it. -/
@[simp] theorem normaliseFrom_braceClose :
    normaliseFrom afterBrace (.sign .braceClose :: v)
      = .sign .braceClose :: .sign .semicolon :: normaliseFrom true v := by
  simp [normaliseFrom, dropTerminators, addTerminators]

/-- Where no semicolon comes next, the brace before does not matter to `normaliseFrom`. -/
theorem normaliseFrom_clear (hv : Rule.Clear .semicolon v) :
    normaliseFrom afterBrace v = normaliseFrom false v := by
  cases v with
  | nil => rfl
  | cons s v =>
    have hs : s.kind ≠ .semicolon := Rule.clear_cons.1 hv
    simp [normaliseFrom, dropTerminators, hs]

/-- A phrase that is `Braceless` stays as it is. -/
theorem normaliseFrom_append (hw : Braceless w) :
    normaliseFrom false (w ++ v) = w ++ normaliseFrom false v := by
  induction w with
  | nil => rfl
  | cons s w ih =>
    obtain ⟨hs, hw⟩ := braceless_cons.1 hw
    rw [List.cons_append, normaliseFrom_cons hs, ih hw, List.cons_append]

theorem Derivation.terminator_true : terminator true = [.sign .semicolon] := rfl

/-- A last symbol that is neither a semicolon nor a closing brace stays as it is. -/
theorem normaliseFrom_concat (hsemi : s.kind ≠ .semicolon) (hbrace : s.kind ≠ .braceClose) :
    normaliseFrom afterBrace (v ++ [s]) = normaliseFrom afterBrace v ++ [s] := by
  induction v generalizing afterBrace with
  | nil => simp [normaliseFrom, dropTerminators, addTerminators, hsemi, hbrace]
  | cons t v ih =>
    simp only [normaliseFrom, dropTerminators, List.cons_append] at ih ⊢
    split
    · exact ih
    · simp only [addTerminators, List.flatMap_cons, List.append_assoc] at ih ⊢
      rw [ih]

/-- The semicolon behind a closing brace is dropped, if `semi` says there is one. -/
@[simp] theorem normaliseFrom_terminator (semi : Bool) :
    normaliseFrom true (Derivation.terminator semi ++ v) = normaliseFrom (!semi) v := by
  cases semi
  · rfl
  · rfl

/-- Entries in a row are normalised one by one, each to `full` of it. -/
theorem normaliseFrom_flatMap {β : Type} {y : β → Phrase} {full : β → β} {ended : β → Bool}
    (hy : ∀ b, Derivation.StartsEntry (y b))
    (hnorm : ∀ b v, normaliseFrom false (y b ++ v) = y (full b) ++ normaliseFrom (!ended b) v)
    (hv : Rule.Clear .semicolon v) (bs : List β) :
    normaliseFrom afterBrace (bs.flatMap y ++ v)
      = (bs.map full).flatMap y ++ normaliseFrom false v := by
  induction bs generalizing afterBrace with
  | nil => exact normaliseFrom_clear hv
  | cons b bs ih =>
    -- no entry starts with a semicolon, so the brace before it does not matter
    have hclear := (hy b).clear (by decide : Kind.semicolon ∉ _) (bs.flatMap y ++ v)
    rw [List.flatMap_cons, List.append_assoc, normaliseFrom_clear hclear, hnorm, ih]
    simp

/-- Entries between braces are normalised one by one, and the body is terminated. -/
theorem normaliseFrom_braced {β : Type} {y : β → Phrase} {full : β → β} {ended : β → Bool}
    (hy : ∀ b, Derivation.StartsEntry (y b))
    (hnorm : ∀ b v, normaliseFrom false (y b ++ v) = y (full b) ++ normaliseFrom (!ended b) v)
    (bs : List β) (semi : Bool) :
    normaliseFrom false (Derivation.braced y bs semi ++ v)
      = Derivation.braced y (bs.map full) true ++ normaliseFrom (!semi) v := by
  -- what stands behind the last entry is the closing brace, never a semicolon of its own
  have hclose : Rule.Clear .semicolon (.sign .braceClose :: (Derivation.terminator semi ++ v)) := by
    simp
  rw [Derivation.braced, List.cons_append, normaliseFrom_cons (by decide), List.append_assoc,
    List.cons_append, normaliseFrom_flatMap hy hnorm hclose, normaliseFrom_braceClose,
    normaliseFrom_terminator]
  simp [Derivation.braced, Derivation.terminator_true]

end Normalise

/-! ## Rules without braces -/

namespace Derivation

/-- Names with commas are `Braceless`, and so is what the rules below derive, up to those with a
body. -/
theorem Refs.braceless (r : Refs) : Braceless r.yield :=
  braceless_separated (by simp) _

/-- Names behind a sign are braceless, if the sign is no closing brace. -/
theorem Refs.braceless_after {sign : Kind} (hsign : sign ≠ .braceClose) (r : Option Refs) :
    Braceless (Refs.yieldAfter sign r) := by
  cases r with
  | none => exact braceless_nil
  | some r => exact braceless_cons.2 ⟨hsign, r.braceless⟩

theorem AnnotArg.braceless (a : AnnotArg) : Braceless a.yield := by
  cases a <;> simp [yield]

theorem Annot.braceless (a : Annot) : Braceless a.yield := by
  obtain ⟨name, _ | ⟨arg, args⟩⟩ := a
  · simp [yield, yieldArgs]
  · simp [yield, yieldArgs, braceless_separated AnnotArg.braceless]

theorem Property.braceless (p : Property) : Braceless p.yield := by
  obtain ⟨key, value | value⟩ := p <;> simp [yield, Literal.symbol]

theorem Arg.braceless (a : Arg) : Braceless a.yield := by
  obtain ⟨key, value | value⟩ := a <;> simp [yield, ArgValue.symbol]

theorem Command.braceless (c : Command) : Braceless c.yield := by
  have htail : ∀ args, Braceless (yieldTail args) := by
    simp [yieldTail, braceless_separated Arg.braceless]
  cases c with
  | builtin b args => simp [yield, htail]
  | call t args => simp [yield, htail, Target.yield, braceless_flatMap]

theorem Param.braceless (p : Param) : Braceless p.yield := by
  obtain ⟨_ | _, name, _ | value⟩ := p <;> simp [yield]

theorem FlowEntry.braceless (e : FlowEntry) : Braceless e.yield := by
  cases e with
  | command c => exact c.braceless
  | property p => exact p.braceless

/-! ## Derivations with all semicolons -/

/-- The entry with its semicolon: a block `vars` gets one. -/
def EnvironmentEntry.full : EnvironmentEntry → EnvironmentEntry
  | .vars args _ => .vars args true
  | e => e

/-- The construct with all semicolons, those of its entries included. -/
def Construct.full : Construct → Construct
  | .environment name refs entries _ =>
    .environment name refs (entries.map EnvironmentEntry.full) true
  | .flow before name after entries _ => .flow before name after entries true
  | .flowAlias name targets => .flowAlias name targets
  | .fn name params body _ => .fn name params body true
  | .activity name props _ => .activity name props true

/-- The member with all semicolons, by `Construct.full`. -/
def Member.full : Member → Member
  | .property p => .property p
  | .construct annots c => .construct annots c.full

/-- The item with all semicolons, by `Member.full`. -/
def Top.full : Top → Top
  | .module annots name refs members _ => .module annots name refs (members.map Member.full) true
  | .external names origin _ => .external names origin true

/-- The document with all semicolons, by `Top.full`. -/
def File.full (d : File) : File :=
  ⟨d.tops.map Top.full⟩

/-- The semicolon of an entry makes no difference to its tree. -/
theorem EnvironmentEntry.tree_full (e : EnvironmentEntry) : e.full.tree = e.tree := by
  cases e <;> rfl

/-- Nor do those of a construct. -/
theorem Construct.tree_full (annots : List Gxl.Annot) (c : Construct) :
    c.full.tree annots = c.tree annots := by
  cases c with
  | environment name refs entries semi =>
    simp [full, tree, Function.comp_def, EnvironmentEntry.tree_full]
  | flow | flowAlias | fn | activity => rfl

/-- Nor do those of a member. -/
theorem Member.tree_full (m : Member) : m.full.tree = m.tree := by
  cases m with
  | property p => rfl
  | construct annots c => exact c.tree_full _

/-- Nor do those of an item. -/
theorem Top.tree_full (d : Top) : d.full.tree = d.tree := by
  cases d with
  | module annots name refs members semi =>
    simp [full, tree, Function.comp_def, Member.tree_full]
  | external names origin semi => rfl

/-- The semicolons that `full` puts in make no difference to the tree. -/
theorem File.tree_full (d : File) : d.full.tree = d.tree := by
  simp [full, tree, Function.comp_def, Top.tree_full]

/-! ## Normalising what a rule derives -/

/-- An entry of an environment is normalised to its `full` form. -/
theorem EnvironmentEntry.normalise_yield (e : EnvironmentEntry) (v : Phrase) :
    normaliseFrom false (e.yield ++ v) = e.full.yield ++ normaliseFrom (!e.ended) v := by
  cases e with
  | property p => exact normaliseFrom_append p.braceless
  | command c => exact normaliseFrom_append c.braceless
  | vars args semi =>
    simp [yield, full, ended, normaliseFrom_append (braceless_separated Arg.braceless args),
      terminator_true]

/-- Entries without braces stay as they are, and the `braced` body is terminated. -/
theorem normaliseFrom_braced_self {β : Type} {y : β → Phrase} {v : Phrase}
    (hy : ∀ b, StartsEntry (y b)) (hbraceless : ∀ b, Braceless (y b)) (bs : List β) (semi : Bool) :
    normaliseFrom false (braced y bs semi ++ v) = braced y bs true ++ normaliseFrom (!semi) v := by
  have hnorm : ∀ b v, normaliseFrom false (y b ++ v) = y (id b) ++ normaliseFrom (!true) v :=
    fun b v => normaliseFrom_append (hbraceless b)
  rw [normaliseFrom_braced hy hnorm, List.map_id]

/-- A construct is normalised to its `full` form, one case a constructor. -/
theorem Construct.normalise_yield (c : Construct) (v : Phrase) :
    normaliseFrom false (c.yield ++ v) = c.full.yield ++ normaliseFrom (!c.ended) v := by
  cases c with
  | environment name refs entries semi =>
    simp [yield, full, ended,
      normaliseFrom_append (Refs.braceless_after (by decide : Kind.colon ≠ _) refs),
      normaliseFrom_braced EnvironmentEntry.startsEntry EnvironmentEntry.normalise_yield]
  | flow before name after entries semi =>
    have hbefore : Braceless (yieldBefore before) := by
      cases before <;> simp [yieldBefore, Refs.braceless]
    simp [yield, full, ended, normaliseFrom_append hbefore,
      normaliseFrom_append (Refs.braceless_after (by decide : Kind.pipe ≠ _) after),
      normaliseFrom_braced_self FlowEntry.startsEntry FlowEntry.braceless]
  | flowAlias name targets =>
    simp [yield, full, ended, normaliseFrom_append targets.braceless]
  | fn name params body semi =>
    simp [yield, full, ended,
      normaliseFrom_append (braceless_separated Param.braceless params),
      normaliseFrom_braced_self Command.startsEntry Command.braceless]
  | activity name props semi =>
    simp [yield, full, ended,
      normaliseFrom_braced_self Property.startsEntry Property.braceless]

/-- A member is normalised to its `full` form. -/
theorem Member.normalise_yield (m : Member) (v : Phrase) :
    normaliseFrom false (m.yield ++ v) = m.full.yield ++ normaliseFrom (!m.ended) v := by
  cases m with
  | property p => exact normaliseFrom_append p.braceless
  | construct annots c =>
    rw [yield, List.append_assoc, normaliseFrom_append (braceless_flatMap Annot.braceless annots),
      c.normalise_yield, ← List.append_assoc]
    rfl

/-- An item is normalised to its `full` form. -/
theorem Top.normalise_yield (d : Top) (v : Phrase) :
    normaliseFrom false (d.yield ++ v) = d.full.yield ++ normaliseFrom (!d.ended) v := by
  rcases d with ⟨annots, name, refs, members, semi⟩ | ⟨names, origin, semi⟩
  · simp [yield, yieldHeader, full, ended,
      normaliseFrom_append (braceless_flatMap Annot.braceless annots),
      normaliseFrom_append (Refs.braceless_after (by decide : Kind.colon ≠ _) refs),
      normaliseFrom_braced Rule.startsEntry_member Member.normalise_yield]
  · have horigin : Braceless origin.yield := by
      cases origin <;> simp [Origin.yield]
    simp [yield, full, ended, normaliseFrom_append names.braceless, normaliseFrom_append horigin,
      terminator_true]

/-- Normalising the phrase of a document puts in all semicolons of its derivation: `normalise` is
`full`. -/
theorem File.normalise_yield (d : File) : normalise d.yield = d.full.yield := by
  have h : normaliseFrom false (d.tops.flatMap Top.yield ++ [])
      = (d.tops.map Top.full).flatMap Top.yield ++ normaliseFrom false [] :=
    normaliseFrom_flatMap Top.startsEntry Top.normalise_yield (by simp) d.tops
  rwa [List.append_nil, normaliseFrom_nil, List.append_nil] at h

end Derivation

end Gxl
