import Gxl.Proofs.Token.Extras
import Gxl.Proofs.Token.Literals

/-!
# The languages of tokens

Every kind of token has its own language, and a token takes as much of a text as its language lets
it.  `Kind.CutsOff` says so kind by kind, of the text of a token and the text behind it, and without
regard to how a text is scanned.

The scanner cuts off what the languages say (`Lexeme.cutsOff_of_scan`).  Where it finds no token
there is none: a character is illegal exactly if no text of any kind starts with it
(`Lexeme.scan_eq_illegal_iff`), and a string literal has no end exactly if no quote closes it
(`Lexeme.scan_eq_unterminated_iff`).  A cursor scans wherever it stands in its source, whatever it
was asked before, and so all this is true of every answer it gives (`lexemes_exact`).
-/

namespace Gxl

/-- A token of a kind is cut off a text: what it takes, and what stands behind it.

* A word is not followed by a character that it could go on with.
* A number is the longest text that is one.
* A string literal ends with the first quote that no backslash takes.
* A comment goes to the end of its line and does not start with `#[`.
* The name of a builtin command is followed by an opening parenthesis, blanks and comments aside.
* At the end of the text there is nothing to take.
* The other kinds have one text each, a single character but for `#[`. -/
def Kind.CutsOff : Kind → List Char → List Char → Prop
  | .ident, lexeme, rest =>
    Lexeme.isWord lexeme = true ∧ ∀ c ∈ rest.head?, Lexeme.isWordChar c = false
  | .number, lexeme, rest =>
    Lexeme.IsDecimal lexeme ∧ ∀ front back, lexeme ++ rest = front ++ back →
      Lexeme.IsDecimal front → front.length ≤ lexeme.length
  | .str, lexeme, _ => ∃ raw, lexeme = '"' :: (raw ++ ['"']) ∧ Lexeme.isRaw raw = true
  | .comment, lexeme, rest =>
    ∃ body, lexeme = '#' :: body ∧ (∀ c ∈ body, c ≠ '\n') ∧ (body ++ rest).head? ≠ some '[' ∧
      ∀ c ∈ rest.head?, c = '\n'
  | .builtin, lexeme, rest =>
    ∃ w, lexeme = ['g', 'x', '.'] ++ w ∧ Lexeme.CallsBuiltin (lexeme ++ rest) w rest
  | .eof, lexeme, rest => lexeme = [] ∧ rest = []
  | .annotOpen, lexeme, _ => lexeme = ['#', '[']
  | kind, lexeme, _ => ∃ c, kind.spelling.toList = [c] ∧ lexeme = [c]

/-- A kind with one `spelling` has the language of that text. -/
theorem Kind.cutsOff_spelling {kind : Kind} (h : kind.spelling ≠ "") (rest : List Char) :
    kind.CutsOff kind.spelling.toList rest := by
  cases kind with
  | ident | number | str | comment | builtin | eof => exact absurd rfl h
  | annotOpen => rfl
  | _ => exact ⟨_, rfl, rfl⟩

namespace Lexeme

/-! ## What is scanned -/

/-- The scanner `scan` takes off a text only what `CutsOff` says for the kind of the token. -/
theorem cutsOff_of_scan {afterDot : Bool} {cs lexeme rest : List Char} {kind : Kind}
    (h : scan afterDot cs = .token kind lexeme rest) : kind.CutsOff lexeme rest := by
  obtain rfl := scan_append h
  by_cases hcomment : kind = .comment
  · subst hcomment
    exact scan_comment_cases h
  have hgenuine := genuine_of_scan h hcomment
  by_cases hspelling : kind.spelling ≠ ""
  · have hsign := Symbol.eq_sign_of_genuine hgenuine hspelling
    obtain rfl : lexeme = kind.spelling.toList := by
      simpa [Symbol.sign] using congrArg (fun s => s.text.toList) hsign
    exact Kind.cutsOff_spelling hspelling rest
  cases kind with
  | ident =>
    obtain ⟨hword, hrest, -⟩ := scan_ident_cases h
    exact ⟨hword, hrest⟩
  | number =>
    have hnumeral : isNumeral lexeme = true := by simpa [Symbol.genuine] using hgenuine
    refine ⟨(isNumeral_iff_isDecimal lexeme).1 hnumeral, fun front back hsplit hfront => ?_⟩
    obtain ⟨-, -, -, -, hnumber⟩ := scan_number_cases h
    have hle := hfront.length_le_number back
    rwa [← hsplit, hnumber] at hle
  | str =>
    obtain ⟨body, rfl, hbody⟩ :
        ∃ body, lexeme = '"' :: body ∧ closeString body = some (body, []) := by
      cases lexeme with
      | nil => simp [Symbol.genuine, isQuoted] at hgenuine
      | cons c body =>
        obtain ⟨rfl, hbody⟩ : c = '"' ∧ closeString body = some (body, []) := by
          simpa [Symbol.genuine, isQuoted] using hgenuine
        exact ⟨body, rfl, hbody⟩
    obtain ⟨raw, rfl, -, hraw⟩ := closeString_eq_some_iff.1 hbody
    exact ⟨raw, rfl, hraw⟩
  | builtin =>
    obtain ⟨-, w, rfl, hcalls⟩ := scan_builtin_iff.1 h
    exact ⟨w, rfl, hcalls⟩
  | eof => simp [Symbol.genuine] at hgenuine
  | comment => exact absurd rfl hcomment
  | _ => exact absurd (by decide) hspelling

/-! ## Where there is no token -/

/-- The test `startsToken` holds of a character exactly if some text of some kind starts with it. -/
theorem startsToken_iff {c : Char} :
    startsToken c = true ↔
      ∃ (kind : Kind) (lexeme rest : List Char), kind.CutsOff lexeme rest ∧
        lexeme.head? = some c := by
  constructor
  · intro h
    simp only [startsToken, Bool.or_eq_true, beq_iff_eq] at h
    rcases h with (((rfl | rfl) | hdigit) | hword) | hsign
    · exact ⟨.comment, ['#'], [], ⟨[], rfl, by simp, by simp, by simp⟩, rfl⟩
    · exact ⟨.str, ['"', '"'], [], ⟨[], rfl, rfl⟩, rfl⟩
    · refine ⟨.number, [c], [], ⟨.inl (by simp [isDigits, hdigit]), ?_⟩, rfl⟩
      intro front back hsplit _
      have hlength := congrArg List.length hsplit
      simp only [List.length_append, List.length_singleton, List.length_nil] at hlength ⊢
      omega
    · exact ⟨.ident, [c], [], ⟨by simp [isWord, hword], by simp⟩, rfl⟩
    · obtain ⟨kind, hkind⟩ := Option.isSome_iff_exists.1 hsign
      have hgenuine := genuine_of_ofSign? hkind
      have hall : ∀ p ∈ Kind.signs, p.2.spelling ≠ "" := by decide
      have hspelling := hall _ (mem_signs_of_ofSign? hkind)
      have htext : String.ofList [c] = kind.spelling :=
        congrArg Symbol.text (Symbol.eq_sign_of_genuine hgenuine hspelling)
      refine ⟨kind, kind.spelling.toList, [], Kind.cutsOff_spelling hspelling [], ?_⟩
      rw [← htext]
      simp
  · rintro ⟨kind, lexeme, rest, hcuts, hhead⟩
    cases kind with
    | ident =>
      cases lexeme with
      | nil => simp at hhead
      | cons d ds =>
        obtain rfl : d = c := by simpa using hhead
        have hstart : isWordStart d = true := (Bool.and_eq_true_iff.1 hcuts.1).1
        simp [startsToken, hstart]
    | number =>
      obtain ⟨d, ds, rfl, hdigit⟩ := hcuts.1.exists_cons
      obtain rfl : d = c := by simpa using hhead
      simp [startsToken, hdigit]
    | str =>
      obtain ⟨raw, rfl, -⟩ := hcuts
      obtain rfl : '"' = c := by simpa using hhead
      rfl
    | comment =>
      obtain ⟨body, rfl, -⟩ := hcuts
      obtain rfl : '#' = c := by simpa using hhead
      rfl
    | builtin =>
      obtain ⟨w, rfl, -⟩ := hcuts
      obtain rfl : 'g' = c := by simpa using hhead
      decide
    | eof =>
      obtain ⟨rfl, -⟩ := hcuts
      simp at hhead
    | annotOpen =>
      obtain rfl : lexeme = ['#', '['] := hcuts
      obtain rfl : '#' = c := by simpa using hhead
      rfl
    | _ =>
      obtain ⟨d, hspelling, rfl⟩ := hcuts
      obtain rfl : d = c := by simpa using hhead
      obtain rfl : _ = d := (List.cons.inj hspelling).1
      decide

/-- The scanner `scan` calls a character illegal exactly if no text that some kind `CutsOff` starts
with it. -/
theorem scan_eq_illegal_iff {afterDot : Bool} {cs : List Char} {c : Char} :
    scan afterDot cs = .illegal c ↔
      cs.head? = some c ∧ ∀ (kind : Kind) (lexeme rest : List Char), kind.CutsOff lexeme rest →
        lexeme.head? ≠ some c := by
  have hstarts : startsToken c = false ↔ ∀ (kind : Kind) (lexeme rest : List Char),
      kind.CutsOff lexeme rest → lexeme.head? ≠ some c := by
    rw [Bool.eq_false_iff, Ne, startsToken_iff]
    simp only [not_exists, not_and, Ne]
  rw [← hstarts]
  constructor
  · intro h
    obtain ⟨tail, rfl, hfalse⟩ := startsToken_of_illegal h
    exact ⟨rfl, hfalse⟩
  · rintro ⟨hhead, hfalse⟩
    obtain ⟨tail, rfl⟩ := List.head?_eq_some_iff.1 hhead
    simp only [startsToken, Bool.or_eq_false_iff, beq_eq_false_iff_ne, Option.isSome_eq_false_iff,
      Option.isNone_iff_eq_none] at hfalse
    obtain ⟨⟨⟨⟨hhash, hquote⟩, hdigit⟩, hword⟩, hsign⟩ := hfalse
    simp [scan, hhash, hquote, hdigit, hword, hsign]

/-- The scanner `scan` finds a string literal without an end exactly if no quote closes it, as
`isRaw` has it. -/
theorem scan_eq_unterminated_iff {afterDot : Bool} {cs : List Char} :
    scan afterDot cs = .unterminated ↔
      ∃ body, cs = '"' :: body ∧ ∀ raw tail, body = raw ++ '"' :: tail → isRaw raw = false := by
  constructor
  · intro h
    obtain ⟨body, rfl, hnone⟩ := startsAt_of_unterminated h
    exact ⟨body, rfl, closeString_eq_none_iff.1 hnone⟩
  · rintro ⟨body, rfl, hopen⟩
    simp [scan, closeString_eq_none_iff.2 hopen]

end Lexeme

namespace Cursor

/-! ## One request after the other -/

/-- The cursor after a number of calls of `next`. -/
def afterRequests : Nat → Cursor → Cursor
  | 0, c => c
  | n + 1, c => afterRequests n c.next.2

/-- The step `next` passes over some of the text, whether it answers with a token or not. -/
theorem next_split (c : Cursor) :
    ∃ passed, c.rest = passed ++ c.next.2.rest ∧
      c.next.2.position = c.position.after passed := by
  obtain ⟨gap, -, hrest, hposition, -⟩ := c.skipBlanks_split
  rcases hnext : c.next with ⟨e | t, c'⟩
  · unfold next at hnext
    generalize c.skipBlanks = d at hnext hrest hposition
    unfold read at hnext
    split at hnext
    · simp at hnext
    · simp at hnext
    · -- the rest of the text goes with the string literal
      obtain ⟨-, rfl⟩ := Prod.mk.inj hnext
      refine ⟨gap ++ d.rest, by simp [hrest], ?_⟩
      rw [Position.after_append, hposition]
    · obtain ⟨-, rfl⟩ := Prod.mk.inj hnext
      exact ⟨gap, hrest, hposition⟩
  · obtain ⟨gap, -, hrest, hposition, -⟩ := next_ok hnext
    exact ⟨gap ++ t.text.toList, by simp [hrest], hposition⟩

/-- After any number of requests the cursor stands in its text behind what it has passed over, and
its `position` tells how much that is. -/
theorem afterRequests_split (c : Cursor) (n : Nat) :
    ∃ front, c.rest = front ++ (c.afterRequests n).rest ∧
      (c.afterRequests n).position = c.position.after front := by
  induction n generalizing c with
  | zero => exact ⟨[], rfl, rfl⟩
  | succ n ih =>
    obtain ⟨passed, hrest, hposition⟩ := c.next_split
    obtain ⟨front, hrest', hposition'⟩ := ih c.next.2
    refine ⟨passed ++ front, ?_, ?_⟩
    · rw [hrest, hrest', List.append_assoc]
      rfl
    · rw [Position.after_append, ← hposition, ← hposition']
      rfl

/-! ## One answer -/

section Answer

variable (c : Cursor)

/-- The step `read` reports an unexpected character exactly where `scan` calls one illegal, and at
the place of the cursor. -/
theorem read_eq_illegal_iff {ch : Char} {p : Position} :
    c.read.1 = .error ⟨.unexpectedChar ch, p⟩ ↔
      p = c.position ∧ Lexeme.scan c.afterDot c.rest = .illegal ch := by
  unfold read
  cases Lexeme.scan c.afterDot c.rest <;> simp [eq_comm, and_comm]

/-- The step `read` reports an unterminated string exactly where `scan` finds one, and at the place
of the cursor. -/
theorem read_eq_unterminated_iff {p : Position} :
    c.read.1 = .error ⟨.unterminatedString, p⟩ ↔
      p = c.position ∧ Lexeme.scan c.afterDot c.rest = .unterminated := by
  unfold read
  cases Lexeme.scan c.afterDot c.rest <;> simp [eq_comm]

/-- A token that `read` hands out is cut off the text behind the blanks, as `CutsOff` says for its
kind. -/
theorem cutsOff_of_read {t : Token} (h : c.read.1 = .ok t) :
    ∃ rest, c.rest = t.text.toList ++ rest ∧ t.kind.CutsOff t.text.toList rest ∧
      t.span.startPosition = c.position := by
  obtain ⟨hnil, rfl, -⟩ | ⟨kind, lexeme, rest, hscan, -, rfl, -⟩ :=
    read_cases (Prod.ext h rfl : c.read = (.ok t, c.read.2))
  · exact ⟨[], by simp [hnil], ⟨rfl, rfl⟩, rfl⟩
  · refine ⟨rest, ?_, ?_, rfl⟩
    · rw [String.toList_ofList, Lexeme.scan_append hscan]
    · rw [String.toList_ofList]
      exact Lexeme.cutsOff_of_scan hscan

end Answer

end Cursor

/-- Every answer of `next` is exact, whatever came before.  After `n` requests the cursor stands
somewhere in its source, behind a front part of it.  What comes next is blanks and then a text that
starts with none.  A token that is handed out is cut off this text as `CutsOff` says for its kind.
A character is reported exactly if this text starts with it and no text of any kind does, and a
string literal exactly if this text starts with a quote and no other quote closes it. -/
theorem lexemes_exact (source : String) (n : Nat) :
    let c : Cursor := (Cursor.ofSource source).afterRequests n
    ∃ front gap text, source.toList = front ++ gap ++ text ∧ c.rest = gap ++ text ∧
      (∀ ch ∈ gap, Text.isBlank ch = true) ∧ (∀ ch ∈ text.head?, Text.isBlank ch = false) ∧
      (∀ t, c.next.1 = .ok t → ∃ rest, text = t.text.toList ++ rest ∧
        t.kind.CutsOff t.text.toList rest ∧ t.span.startPosition.Marks (front ++ gap)) ∧
      (∀ ch, (∃ p, c.next.1 = .error ⟨.unexpectedChar ch, p⟩) ↔
        text.head? = some ch ∧ ∀ (kind : Kind) (lexeme rest : List Char),
          kind.CutsOff lexeme rest → lexeme.head? ≠ some ch) ∧
      ((∃ p, c.next.1 = .error ⟨.unterminatedString, p⟩) ↔
        ∃ body, text = '"' :: body ∧ ∀ raw tail, body = raw ++ '"' :: tail →
          Lexeme.isRaw raw = false) := by
  intro c
  obtain ⟨front, hsource, hfront⟩ := (Cursor.ofSource source).afterRequests_split n
  obtain ⟨gap, hgap, hrest, hposition, -⟩ := c.skipBlanks_split
  refine ⟨front, gap, c.skipBlanks.rest, ?_, hrest, hgap, ?_, ?_, ?_, ?_⟩
  · rw [List.append_assoc, ← hrest]
    exact hsource
  · intro ch hch
    exact Lexeme.head_dropWhile Text.isBlank c.rest ch hch
  · intro t ht
    obtain ⟨rest, htext, hcuts, hstart⟩ := c.skipBlanks.cutsOff_of_read ht
    refine ⟨rest, htext, hcuts, ?_⟩
    have hplace : c.skipBlanks.position = Position.start.after (front ++ gap) := by
      rw [Position.after_append, hposition]
      exact congrArg (·.after gap) hfront
    rw [hstart, hplace]
    exact Position.marks_after_start _
  · intro ch
    rw [← @Lexeme.scan_eq_illegal_iff c.skipBlanks.afterDot]
    simp [Cursor.next, Cursor.read_eq_illegal_iff]
  · rw [← @Lexeme.scan_eq_unterminated_iff c.skipBlanks.afterDot]
    simp [Cursor.next, Cursor.read_eq_unterminated_iff]

end Gxl
