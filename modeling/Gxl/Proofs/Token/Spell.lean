import Gxl.Proofs.Token.Stream

/-!
# Texts that spell a phrase

A text spells a phrase when reading it symbol by symbol, blanks aside, gives the phrase and then the
end of the text.  `Spells` follows the scanner, so that a fact about a long text is put together
from facts about what stands at its head; `tokenize_of_spells` takes it to the tokens of a source.

Two ways of writing a phrase down meet here: the canonical layout of a tree, and the plainest one,
which puts a space behind every symbol (`spellOut`).  The plain one spells every phrase in which the
names of builtin commands stand where the scanner takes them for such (`Spellable`).
-/

namespace Gxl

/-- A text, behind a dot if `afterDot` holds, spells a phrase: blanks aside, it is made up of the
texts of `genuine` symbols that `Lexeme.scan` finds there. -/
inductive Spells : Bool → List Char → Phrase → Prop where
  | nil (afterDot : Bool) : Spells afterDot [] []
  | blank {afterDot : Bool} {c : Char} {cs : List Char} {v : Phrase} (hc : Text.isBlank c = true)
      (h : Spells afterDot cs v) : Spells afterDot (c :: cs) v
  | symbol {afterDot : Bool} {cs rest : List Char} {s : Symbol} {v : Phrase}
      (hscan : Lexeme.scan afterDot cs = .token s.kind s.text.toList rest)
      (hs : s.genuine = true) (h : Spells (s.kind == .dot) rest v) : Spells afterDot cs (s :: v)

/-! ## The tokens of a text that spells a phrase -/

namespace Cursor

/-- Where `next` meets a fault, the `stream` is that fault alone. -/
theorem stream_of_error {c c' : Cursor} {e : LexError} (h : c.next = (.error e, c')) :
    c.stream = ([], some e) := by
  rw [stream]
  split <;> simp_all

/-- Where `next` finds the end of the text, the `stream` is that token alone. -/
theorem stream_of_eof {c c' : Cursor} {t : Token} (h : c.next = (.ok t, c')) (ht : t.kind = .eof) :
    c.stream = ([t], none) := by
  rw [stream]
  split <;> simp_all

/-- Where `next` finds another token, the `stream` goes on with that of the cursor behind it. -/
theorem stream_of_token {c c' : Cursor} {t : Token} (h : c.next = (.ok t, c'))
    (ht : t.kind ≠ .eof) : c.stream = (t :: c'.stream.1, c'.stream.2) := by
  rw [stream]
  split <;> simp_all

/-- Cursors with the same `next` token have the same `stream`. -/
theorem stream_congr {c d : Cursor} (h : c.next = d.next) : c.stream = d.stream := by
  rcases hd : d.next with ⟨e | t, d'⟩
  · rw [stream_of_error hd, stream_of_error (h.trans hd)]
  · by_cases ht : t.kind = .eof
    · rw [stream_of_eof hd ht, stream_of_eof (h.trans hd) ht]
    · rw [stream_of_token hd ht, stream_of_token (h.trans hd) ht]

/-- A blank is skipped by `next`. -/
theorem next_blank {c : Char} {cs : List Char} {p : Position} {afterDot : Bool}
    (hc : Text.isBlank c = true) :
    next ⟨c :: cs, p, afterDot⟩ = next ⟨cs, p.step c, afterDot⟩ := by
  simp [next, skipBlanks, hc]

end Cursor

namespace Lexeme

/-- A blank fails `isWordChar`. -/
theorem isWordChar_eq_false_of_isBlank {c : Char} (hc : Text.isBlank c = true) :
    isWordChar c = false := by
  rw [Bool.eq_false_iff]
  intro hword
  have hrange : (65 ≤ c.toNat ∧ c.toNat ≤ 90) ∨ (97 ≤ c.toNat ∧ c.toNat ≤ 122) ∨
      (48 ≤ c.toNat ∧ c.toNat ≤ 57) ∨ c.toNat = 95 := by
    simp only [isWordChar, Char.isAlphanum, Bool.or_eq_true, beq_iff_eq] at hword
    rcases hword with (h | h) | rfl
    · rcases toNat_of_isAlpha h with h | h
      · exact .inl h
      · exact .inr (.inl h)
    · exact .inr (.inr (.inl (Char.isDigit_iff_toNat.1 h)))
    · exact .inr (.inr (.inr rfl))
  simp only [Text.isBlank, Bool.or_eq_true, Bool.and_eq_true, decide_eq_true_eq, beq_iff_eq] at hc
  omega

/-- No token starts with a blank: `scan` calls it illegal. -/
theorem scan_blank {c : Char} (afterDot : Bool) (cs : List Char) (hc : Text.isBlank c = true) :
    scan afterDot (c :: cs) = .illegal c := by
  have hchar := isWordChar_eq_false_of_isBlank hc
  have hhash : c ≠ '#' := by
    rintro rfl
    simp [Text.isBlank] at hc
  have hquote : c ≠ '"' := by
    rintro rfl
    simp [Text.isBlank] at hc
  have hdigit := isDigit_eq_false_of_isWordChar hchar
  have hstart : isWordStart c = false := by
    rw [Bool.eq_false_iff]
    intro h
    rw [isWordChar_of_isWordStart h] at hchar
    simp at hchar
  have hsign : Kind.ofSign? c = none := by
    rw [Option.eq_none_iff_forall_ne_some]
    intro k hk
    have hall : ∀ p ∈ Kind.signs, Text.isBlank p.1 = false := by decide
    rw [hall (c, k) (mem_signs_of_ofSign? hk)] at hc
    simp at hc
  simp [scan, hhash, hquote, hdigit, hstart, hsign]

end Lexeme

/-- A text that `Spells` a phrase has the phrase as its tokens, and no fault. -/
theorem Spells.stream {afterDot : Bool} {cs : List Char} {v : Phrase} (h : Spells afterDot cs v)
    (p : Position) :
    (Cursor.stream ⟨cs, p, afterDot⟩).2 = none ∧
      phrase (Cursor.stream ⟨cs, p, afterDot⟩).1 = v := by
  induction h generalizing p with
  | nil afterDot =>
    have hnext : Cursor.next ⟨[], p, afterDot⟩
        = (.ok ⟨.eof, "", .between p p.offset⟩, ⟨[], p, false⟩) := rfl
    rw [Cursor.stream_of_eof hnext rfl]
    exact ⟨rfl, rfl⟩
  | @blank afterDot c cs v hc _ ih =>
    rw [Cursor.stream_congr (Cursor.next_blank hc)]
    exact ih (p.step c)
  | @symbol afterDot cs rest s v hscan hs _ ih =>
    -- a symbol is scanned here, so that there are no blanks to skip
    have hblanks : Cursor.skipBlanks ⟨cs, p, afterDot⟩ = ⟨cs, p, afterDot⟩ := by
      cases cs with
      | nil => rfl
      | cons c cs =>
        have hc : Text.isBlank c = false := by
          rw [Bool.eq_false_iff]
          intro hc
          rw [Lexeme.scan_blank afterDot cs hc] at hscan
          simp at hscan
        simp [Cursor.skipBlanks, hc]
    have hcomment : s.kind ≠ .comment := by
      intro hk
      simp [Symbol.genuine, hk] at hs
    have heof : s.kind ≠ .eof := by
      intro hk
      simp [Symbol.genuine, hk] at hs
    have hnext : Cursor.next ⟨cs, p, afterDot⟩ =
        (.ok ⟨s.kind, s.text, .between p (p.after s.text.toList).offset⟩,
          ⟨rest, p.after s.text.toList, s.kind == .dot⟩) := by
      simp [Cursor.next, hblanks, Cursor.read, hscan, Cursor.behind, hcomment]
    obtain ⟨hfault, hphrase⟩ := ih (p.after s.text.toList)
    rw [Cursor.stream_of_token hnext heof]
    refine ⟨hfault, ?_⟩
    simp [phrase, hcomment, heof]
    exact ⟨rfl, hphrase⟩

/-- A source that `Spells` a phrase passes `tokenize`, and its tokens are those of the phrase. -/
theorem tokenize_of_spells {source : String} {v : Phrase} (h : Spells false source.toList v) :
    ∃ ts, tokenize source = .ok ts ∧ phrase ts = v := by
  obtain ⟨hfault, hphrase⟩ := h.stream .start
  refine ⟨_, ?_, hphrase⟩
  rw [tokenize, Cursor.toList_eq_stream, Cursor.ofSource, hfault]

/-! ## What stands at the head of a text -/

section Head

variable {afterDot : Bool} {c : Char} {cs rest : List Char} {s : Symbol} {k : Kind} {v : Phrase}

/-- A blank is of no account for `Spells`. -/
theorem spells_blank (hc : Text.isBlank c = true) :
    Spells afterDot (c :: cs) v ↔ Spells afterDot cs v := by
  refine ⟨fun h => ?_, .blank hc⟩
  cases h with
  | blank _ h => exact h
  | symbol hscan _ _ =>
    rw [Lexeme.scan_blank afterDot cs hc] at hscan
    simp at hscan

/-- A symbol that `Lexeme.scan` finds at the head of a text is the first of the phrase. -/
theorem spells_of_scan (hscan : Lexeme.scan afterDot cs = .token s.kind s.text.toList rest)
    (hs : s.genuine = true) : Spells afterDot cs (s :: v) ↔ Spells (s.kind == .dot) rest v := by
  refine ⟨fun h => ?_, .symbol hscan hs⟩
  cases h with
  | blank hc _ =>
    rw [Lexeme.scan_blank afterDot _ hc] at hscan
    simp at hscan
  | symbol hscan' _ h =>
    rw [hscan] at hscan'
    obtain ⟨-, -, rfl⟩ := Lexeme.Scan.token.inj hscan'
    exact h

/-- A sign at the head of a text is the first of the phrase, and a `dot` is remembered for the
rest. -/
theorem spells_sign (hk : k.spelling ≠ "") :
    Spells afterDot (k.spelling.toList ++ cs) (.sign k :: v) ↔ Spells (k == .dot) cs v :=
  spells_of_scan (Lexeme.scan_sign afterDot cs hk) (Symbol.genuine_sign hk)

/-- A sign of one character, other than a `dot`. -/
@[simp] theorem spells_char (hc : k.spelling = String.singleton c) (hdot : k ≠ .dot) :
    Spells afterDot (c :: cs) (.sign k :: v) ↔ Spells false cs v := by
  have hk : k.spelling ≠ "" := by simp [hc]
  have htext : c :: cs = k.spelling.toList ++ cs := by simp [hc]
  rw [htext, spells_sign hk, beq_false_of_ne hdot]

@[simp] theorem spells_dot :
    Spells afterDot ('.' :: cs) (.sign .dot :: v) ↔ Spells true cs v :=
  spells_sign (k := .dot) (by decide)

@[simp] theorem spells_annotOpen :
    Spells afterDot ('#' :: '[' :: cs) (.sign .annotOpen :: v) ↔ Spells false cs v :=
  spells_sign (k := .annotOpen) (by decide)

@[simp] theorem spells_space : Spells afterDot (' ' :: cs) v ↔ Spells afterDot cs v :=
  spells_blank rfl

@[simp] theorem spells_newline : Spells afterDot ('\n' :: cs) v ↔ Spells afterDot cs v :=
  spells_blank rfl

/-- A word before a text that does not lengthen it.  The word `gx` must not go on as the name of a
builtin command, unless a dot stands before it. -/
theorem spells_word {w : String} (hw : Lexeme.isWord w.toList = true)
    (hcs : ∀ c ∈ cs.head?, Lexeme.isWordChar c = false)
    (hgx : afterDot = true ∨ w.toList ≠ ['g', 'x'] ∨ Lexeme.builtinTail cs = none) :
    Spells afterDot (w.toList ++ cs) (.word w :: v) ↔ Spells false cs v :=
  spells_of_scan (Lexeme.scan_word hw hcs hgx) hw

/-- A text that `Ends` every word goes on with no `builtinTail`. -/
theorem builtinTail_of_ends (hcs : Lexeme.Ends cs) : Lexeme.builtinTail cs = none := by
  cases cs with
  | nil => rfl
  | cons c cs =>
    have hc : c ≠ '.' := (Lexeme.ends_cons.1 hcs).2
    unfold Lexeme.builtinTail
    split
    · simp_all
    · rfl

/-- A word `w` that is written out at the head of a text. -/
@[simp] theorem spells_literal {w : String} (hw : Lexeme.isWord w.toList = true)
    (htext : w.toList <+: cs) (hcs : Lexeme.Ends (cs.drop w.toList.length)) :
    Spells afterDot cs (.word w :: v) ↔ Spells false (cs.drop w.toList.length) v := by
  obtain ⟨rest, rfl⟩ := htext
  rw [List.drop_left] at hcs ⊢
  exact spells_word hw (fun c hc => (hcs c hc).1) (.inr (.inr (builtinTail_of_ends hcs)))

end Head

/-! ## The plain spelling -/

/-- The symbols of the phrase `v`, each with a space behind it. -/
def spellOut (v : Phrase) : List Char :=
  v.flatMap fun s => s.text.toList ++ [' ']

/-- A phrase of `genuine` symbols in which the name of a builtin command stands behind no dot and
before an opening parenthesis. -/
def Spellable (afterDot : Bool) : Phrase → Prop
  | [] => True
  | s :: v => s.genuine = true ∧
      (s.kind = .builtin → afterDot = false ∧ v.head? = some (.sign .parenOpen)) ∧
      Spellable (s.kind == .dot) v

/-- The first symbol of a `Spellable` phrase is what `Lexeme.scan` finds at the head of its
`spellOut`. -/
theorem scan_spellOut {afterDot : Bool} {s : Symbol} {v : Phrase}
    (h : Spellable afterDot (s :: v)) :
    Lexeme.scan afterDot (spellOut (s :: v)) = .token s.kind s.text.toList (' ' :: spellOut v) := by
  obtain ⟨hs, hbuiltin, -⟩ := h
  have htext : spellOut (s :: v) = s.text.toList ++ ' ' :: spellOut v := by
    simp [spellOut]
  have hspace : ∀ c ∈ (' ' :: spellOut v).head?, Lexeme.isWordChar c = false := by
    simp [Lexeme.isWordChar]
  rw [htext]
  by_cases hk : s.kind.spelling = ""
  · obtain ⟨kind, text⟩ := s
    cases kind with
    | ident => exact Lexeme.scan_word hs hspace (.inr (.inr rfl))
    | str => exact Lexeme.scan_quoted afterDot _ hs
    | number => exact Lexeme.scan_numeral afterDot hs (by simp [Lexeme.isWordChar])
    | builtin =>
      -- the space before the parenthesis does not keep the name from being one
      obtain ⟨rfl, hopen⟩ := hbuiltin rfl
      obtain ⟨b, hb⟩ := Option.isSome_iff_exists.1 hs
      obtain rfl := Builtin.ofName?_eq_some_iff.1 hb
      obtain ⟨v, rfl⟩ := List.head?_eq_some_iff.1 hopen
      exact Lexeme.scan_builtin b rfl hspace
    | comment | eof => simp [Symbol.genuine] at hs
    | _ => simp [Kind.spelling] at hk
  · rw [Symbol.eq_sign_of_genuine hs hk]
    exact Lexeme.scan_sign afterDot _ hk

/-- The plain spelling `spellOut` of a `Spellable` phrase spells it. -/
theorem spells_spellOut {afterDot : Bool} {v : Phrase} (h : Spellable afterDot v) :
    Spells afterDot (spellOut v) v := by
  induction v generalizing afterDot with
  | nil => exact .nil afterDot
  | cons s v ih => exact .symbol (scan_spellOut h) h.1 (.blank rfl (ih h.2.2))

end Gxl
