import Gxl.Proofs.Grammar.Derivation
import Gxl.Proofs.Token.Spell

/-!
# Every derivation can be spelled

The phrase of a derivation names builtin commands only where a call follows, so it is `Spellable`:
there is a source text with exactly these symbols (`File.exists_source`).  The lemmas go through the
rules of the grammar, each saying that what a rule derives does not matter for the rest.
-/

namespace Gxl

open Gxl.Derivation

variable {afterDot : Bool} {v : Phrase}

/-! ## Symbols -/

/-- A `genuine` symbol that is no name of a builtin command can stand anywhere. -/
theorem spellable_cons {s : Symbol} (hs : s.genuine = true) (hk : s.kind ≠ .builtin) :
    Spellable afterDot (s :: v) ↔ Spellable (s.kind == .dot) v := by
  simp [Spellable, hs, hk]

/-- A name can stand anywhere, so it does not matter for the rest. -/
@[simp] theorem spellable_name (n : Name) :
    Spellable afterDot (n.symbol :: v) ↔ Spellable false v :=
  spellable_cons n.isWord (by simp [Name.symbol])

/-- Nor does a string literal. -/
@[simp] theorem spellable_quoted (s : Quoted) :
    Spellable afterDot (s.symbol :: v) ↔ Spellable false v :=
  spellable_cons s.isQuoted (by simp [Quoted.symbol])

/-- Nor does a number literal. -/
@[simp] theorem spellable_numeral (n : Numeral) :
    Spellable afterDot (n.symbol :: v) ↔ Spellable false v :=
  spellable_cons n.isNumeral (by simp [Numeral.symbol])

/-- Nor does a word with a meaning. -/
@[simp] theorem spellable_word {w : String} (hw : (Symbol.word w).genuine = true) :
    Spellable afterDot (.word w :: v) ↔ Spellable false v :=
  spellable_cons hw (by simp)

/-- A dot can stand anywhere, and behind it `gx` is a word. -/
@[simp] theorem spellable_dot :
    Spellable afterDot (.sign .dot :: v) ↔ Spellable true v :=
  spellable_cons rfl (by decide)

/-- Only a `dot` matters for what stands behind it, and no other sign. -/
@[simp] theorem spellable_sign {k : Kind} (hk : k.spelling ≠ "") (hdot : k ≠ .dot) :
    Spellable afterDot (.sign k :: v) ↔ Spellable false v := by
  have hbuiltin : k ≠ .builtin := by
    rintro rfl
    exact hk rfl
  rw [spellable_cons (Symbol.genuine_sign hk) hbuiltin, Symbol.sign_kind, beq_false_of_ne hdot]

/-- The name of a builtin command can stand before an opening parenthesis, which is all that
`Spellable` asks of it. -/
@[simp] theorem spellable_builtin (b : Builtin) :
    Spellable false (.builtin b :: .sign .parenOpen :: v) ↔
      Spellable false (.sign .parenOpen :: v) := by
  simp [Spellable]

/-- If no entry matters for the rest, entries one behind the other do not. -/
theorem spellable_flatMap {β : Type} {y : β → Phrase}
    (hy : ∀ b v, Spellable false (y b ++ v) ↔ Spellable false v) (bs : List β) :
    Spellable false (bs.flatMap y ++ v) ↔ Spellable false v := by
  induction bs with
  | nil => simp
  | cons b bs ih => rw [List.flatMap_cons, List.append_assoc, hy, ih]

/-- If no entry matters for the rest, entries `separated` by commas do not. -/
theorem spellable_separated {β : Type} {y : β → Phrase}
    (hy : ∀ b v, Spellable false (y b ++ v) ↔ Spellable false v) (bs : List β) :
    Spellable false (separated y bs ++ v) ↔ Spellable false v := by
  cases bs with
  | nil => simp [separated]
  | cons b bs =>
    rw [separated, List.append_assoc, hy, spellable_flatMap]
    intro b v
    rw [List.cons_append, spellable_sign (by decide) (by decide)]
    exact hy b v

/-! ## Rules -/

namespace Derivation

/-- Names with commas do not matter for the rest. -/
@[simp] theorem Refs.spellable (r : Refs) :
    Spellable false (r.yield ++ v) ↔ Spellable false v :=
  spellable_separated (by simp) _

/-- Nor do names behind a sign. -/
theorem Refs.spellable_after {sign : Kind} (hsign : sign.spelling ≠ "") (hdot : sign ≠ .dot)
    (r : Option Refs) : Spellable false (Refs.yieldAfter sign r ++ v) ↔ Spellable false v := by
  cases r with
  | none => rfl
  | some r => rw [Refs.yieldAfter, List.cons_append, spellable_sign hsign hdot, r.spellable]

/-- Nor does the semicolon behind a closing brace, be it there or not. -/
@[simp] theorem spellable_terminator (semi : Bool) :
    Spellable false (terminator semi ++ v) ↔ Spellable false v := by
  cases semi
  · rfl
  · exact spellable_sign (by decide) (by decide)

/-- If no entry matters, a `braced` body does not. -/
theorem spellable_braced {β : Type} {y : β → Phrase}
    (hy : ∀ b v, Spellable false (y b ++ v) ↔ Spellable false v) (bs : List β) (semi : Bool) :
    Spellable false (braced y bs semi ++ v) ↔ Spellable false v := by
  simp +decide [braced, spellable_flatMap hy]

/-- What each rule derives does not matter for the rest, and the lemmas from here to `Top.spellable`
say so of one after the other. -/
theorem AnnotArg.spellable (a : AnnotArg) (v : Phrase) :
    Spellable false (a.yield ++ v) ↔ Spellable false v := by
  cases a <;> simp +decide [yield]

theorem Annot.spellable (a : Annot) (v : Phrase) :
    Spellable false (a.yield ++ v) ↔ Spellable false v := by
  obtain ⟨name, _ | ⟨arg, args⟩⟩ := a
  · simp +decide [yield, yieldArgs]
  · simp +decide [yield, yieldArgs, spellable_separated AnnotArg.spellable]

theorem Property.spellable (p : Property) (v : Phrase) :
    Spellable false (p.yield ++ v) ↔ Spellable false v := by
  obtain ⟨key, value | value⟩ := p <;> simp +decide [yield, Literal.symbol]

theorem Arg.spellable (a : Arg) (v : Phrase) :
    Spellable false (a.yield ++ v) ↔ Spellable false v := by
  obtain ⟨key, value | value⟩ := a <;> simp +decide [yield, ArgValue.symbol]

/-- The names of a target are words, also behind their dots. -/
theorem Target.spellable (t : Target) (v : Phrase) :
    Spellable false (t.yield ++ v) ↔ Spellable false v := by
  rw [yield, List.cons_append, spellable_name]
  exact spellable_flatMap (by simp) t.tail

/-- The name of a builtin command in a command stands before the parenthesis that it needs. -/
theorem Command.spellable (c : Command) (v : Phrase) :
    Spellable false (c.yield ++ v) ↔ Spellable false v := by
  cases c with
  | builtin b args => simp +decide [yield, yieldTail, spellable_separated Arg.spellable]
  | call t args =>
    simp +decide [yield, yieldTail, Target.spellable, spellable_separated Arg.spellable]

theorem EnvironmentEntry.spellable (e : EnvironmentEntry) (v : Phrase) :
    Spellable false (e.yield ++ v) ↔ Spellable false v := by
  cases e with
  | property p => exact p.spellable v
  | command c => exact c.spellable v
  | vars args semi => simp +decide [yield, spellable_separated Arg.spellable]

theorem FlowEntry.spellable (e : FlowEntry) (v : Phrase) :
    Spellable false (e.yield ++ v) ↔ Spellable false v := by
  cases e with
  | command c => exact c.spellable v
  | property p => exact p.spellable v

theorem Param.spellable (p : Param) (v : Phrase) :
    Spellable false (p.yield ++ v) ↔ Spellable false v := by
  obtain ⟨_ | _, name, _ | value⟩ := p <;> simp +decide [yield]

theorem Construct.spellable (c : Construct) (v : Phrase) :
    Spellable false (c.yield ++ v) ↔ Spellable false v := by
  cases c with
  | environment name refs entries semi =>
    simp +decide [yield, Refs.spellable_after, spellable_braced EnvironmentEntry.spellable]
  | flow before name after entries semi =>
    cases before <;>
      simp +decide [yield, yieldBefore, Refs.spellable_after, spellable_braced FlowEntry.spellable]
  | flowAlias name targets => simp +decide [yield]
  | fn name params body semi =>
    simp +decide [yield, spellable_separated Param.spellable, spellable_braced Command.spellable]
  | activity name props semi =>
    simp +decide [yield, spellable_braced Property.spellable]

theorem Member.spellable (m : Member) (v : Phrase) :
    Spellable false (m.yield ++ v) ↔ Spellable false v := by
  cases m with
  | property p => exact p.spellable v
  | construct annots c =>
    rw [yield, List.append_assoc, spellable_flatMap Annot.spellable, c.spellable]

theorem Top.spellable (d : Top) (v : Phrase) :
    Spellable false (d.yield ++ v) ↔ Spellable false v := by
  rcases d with ⟨annots, name, refs, members, semi⟩ | ⟨names, place | ⟨url, channel⟩, semi⟩
  · simp +decide [yield, yieldHeader, spellable_flatMap Annot.spellable, Refs.spellable_after,
      spellable_braced Member.spellable]
  · simp +decide [yield, Origin.yield]
  · simp +decide [yield, Origin.yield]

/-- The phrase of a document names builtin commands only where they are called: it is
`Spellable`. -/
theorem File.spellable (d : File) : Spellable false d.yield := by
  have h := spellable_flatMap (v := []) Top.spellable d.tops
  rw [List.append_nil] at h
  exact h.2 trivial

/-- Every document of the grammar has a source, which `tokenize` reads as its phrase. -/
theorem File.exists_source (d : File) :
    ∃ source ts, tokenize source = .ok ts ∧ phrase ts = d.yield := by
  have hspells := spells_spellOut d.spellable
  rw [← String.toList_ofList (l := spellOut d.yield)] at hspells
  exact ⟨_, tokenize_of_spells hspells⟩

end Derivation

end Gxl
