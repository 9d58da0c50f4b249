import Gxl.Builtin
import Gxl.Text.Character
import Gxl.Token

/-!
# Lexemes

`scan` looks at the head of a text and says which token stands there.  It knows nothing of
positions: it splits the text into the lexeme and the rest, and what is split off is always a
non-empty head of the text (`scan_append`, `scan_ne_nil`).

Two decisions need more than the next character.

* A number takes a point only when a digit follows it.
* The name of a builtin command, `gx.` and a word, is one token when an opening parenthesis comes
  next, blanks and comments aside.  Anywhere else, and directly after a dot, `gx` is a word of its
  own.

Reference: `src/crates/core/src/lexer.rs` (`Lexer::scan_token` is `scan`, `Lexer::lex_string` is
`closeString`, `Lexer::lex_builtin_tail` is `builtinTail`, `next_significant_is_paren` is
`opensCall`; `is_ident_start` and `is_ident_continue` are `isWordStart` and `isWordChar`).
-/

namespace Gxl.Lexeme

/-- The characters that a word may start with (`is_ident_start`). -/
def isWordStart (c : Char) : Bool :=
  c.isAlpha || c == '_'

/-- The characters that a word may go on with (`is_ident_continue`). -/
def isWordChar (c : Char) : Bool :=
  c.isAlphanum || c == '_'

/-- Splits a text behind the quote that closes a string literal, of which the opening quote has been
read (`Lexer::lex_string`).  A backslash takes the character after it, whatever it is. -/
def closeString : List Char → Option (List Char × List Char)
  | [] => none
  | '"' :: cs => some (['"'], cs)
  | '\\' :: c :: cs => (closeString cs).map fun (body, rest) => ('\\' :: c :: body, rest)
  | c :: cs => (closeString cs).map fun (body, rest) => (c :: body, rest)

/-- Splits a text behind the digits it starts with, and behind a fraction that follows them, as
`Lexer::scan_token` reads a number. -/
def number (cs : List Char) : List Char × List Char :=
  let whole := cs.takeWhile Char.isDigit
  match cs.dropWhile Char.isDigit with
  | '.' :: d :: rest =>
    if d.isDigit then
      (whole ++ '.' :: (d :: rest).takeWhile Char.isDigit, (d :: rest).dropWhile Char.isDigit)
    else
      (whole, '.' :: d :: rest)
  | rest => (whole, rest)

/-- Whether an opening parenthesis comes next, once blanks and comments are skipped
(`next_significant_is_paren`).  The flag `inComment` tells whether the text starts inside a comment.
-/
def opensCall (inComment : Bool) : List Char → Bool
  | [] => false
  | c :: cs =>
    if inComment then opensCall (c != '\n') cs
    else if Text.isBlank c then opensCall false cs
    else if c = '#' then cs.head? != some '[' && opensCall true cs
    else c == '('

/-- Splits a text behind the dot and word that make `gx`, just read, the name of a builtin command
about to be called (`Lexer::lex_builtin_tail`). -/
def builtinTail : List Char → Option (List Char × List Char)
  | '.' :: cs =>
    let word := cs.takeWhile isWordChar
    let rest := cs.dropWhile isWordChar
    if word.head?.any isWordStart
        && (Builtin.ofName? ("gx." ++ String.ofList word)).isSome && opensCall false rest then
      some ('.' :: word, rest)
    else
      none
  | _ => none

/-- Splits a text behind the word it starts with, or behind the name of a builtin command.
Directly after a dot `gx` is a segment of a longer name and starts no builtin. -/
def word (afterDot : Bool) (cs : List Char) : Kind × List Char × List Char :=
  let text := cs.takeWhile isWordChar
  let rest := cs.dropWhile isWordChar
  if !afterDot && text == ['g', 'x'] then
    match builtinTail rest with
    | some (tail, rest) => (.builtin, text ++ tail, rest)
    | none => (.ident, text, rest)
  else
    (.ident, text, rest)

/-- What stands at the head of a text, as `scan` tells it. -/
inductive Scan where
  /-- Nothing: the text is empty. -/
  | done
  /-- A token, and the text behind it. -/
  | token (kind : Kind) (lexeme rest : List Char)
  /-- A string literal that does not end. -/
  | unterminated
  /-- A character that starts no token. -/
  | illegal (c : Char)
  deriving DecidableEq, Inhabited

/-- Reads the head of a text that does not start with a blank (`Lexer::scan_token`).  The flag
`afterDot` tells whether the token before it, comments aside, was a dot. -/
def scan (afterDot : Bool) : List Char → Scan
  | [] => .done
  | c :: cs =>
    if c = '#' then
      if cs.head? = some '[' then
        .token .annotOpen ['#', '['] cs.tail
      else
        .token .comment (c :: cs.takeWhile (· != '\n')) (cs.dropWhile (· != '\n'))
    else if c = '"' then
      match closeString cs with
      | some (body, rest) => .token .str (c :: body) rest
      | none => .unterminated
    else if c.isDigit then
      .token .number (number (c :: cs)).1 (number (c :: cs)).2
    else if isWordStart c then
      .token (word afterDot (c :: cs)).1 (word afterDot (c :: cs)).2.1 (word afterDot (c :: cs)).2.2
    else
      match Kind.ofSign? c with
      | some kind => .token kind [c] cs
      | none => .illegal c

/-! ## What is split off is a head of the text -/

/-- The body that `closeString` splits off and the rest make up the text. -/
theorem closeString_append {cs body rest : List Char} (h : closeString cs = some (body, rest)) :
    body ++ rest = cs := by
  fun_induction closeString cs generalizing body with
  | case1 => simp at h
  | case2 =>
    simp only [Option.some.injEq, Prod.mk.injEq] at h
    obtain ⟨rfl, rfl⟩ := h
    rfl
  | case3 c cs ih =>
    simp only [Option.map_eq_some_iff, Prod.mk.injEq] at h
    obtain ⟨⟨b, r⟩, hb, rfl, rfl⟩ := h
    simp [ih hb]
  | case4 c cs _ _ ih =>
    simp only [Option.map_eq_some_iff, Prod.mk.injEq] at h
    obtain ⟨⟨b, r⟩, hb, rfl, rfl⟩ := h
    simp [ih hb]

/-- The digits that `number` splits off and the rest make up the text. -/
theorem number_append (cs : List Char) : (number cs).1 ++ (number cs).2 = cs := by
  have hsplit := List.takeWhile_append_dropWhile (p := Char.isDigit) (l := cs)
  unfold number
  split
  · rename_i d rest heq
    split
    · simp only [List.append_assoc, List.cons_append, List.takeWhile_append_dropWhile]
      rw [← heq, hsplit]
    · rw [← heq]; exact hsplit
  · exact hsplit

/-- The tail that `builtinTail` splits off and the rest make up the text. -/
theorem builtinTail_append {cs tail rest : List Char} (h : builtinTail cs = some (tail, rest)) :
    tail ++ rest = cs := by
  unfold builtinTail at h
  split at h
  · simp only [Option.ite_none_right_eq_some, Option.some.injEq, Prod.mk.injEq] at h
    obtain ⟨_, rfl, rfl⟩ := h
    simp [List.takeWhile_append_dropWhile]
  · simp at h

/-- The word that `word` splits off and the rest make up the text. -/
theorem word_append (afterDot : Bool) (cs : List Char) :
    (word afterDot cs).2.1 ++ (word afterDot cs).2.2 = cs := by
  fun_cases word afterDot cs with
  | case1 _ _ _ tail rest h =>
    rw [List.append_assoc, builtinTail_append h, List.takeWhile_append_dropWhile]
  | case2 => exact List.takeWhile_append_dropWhile
  | case3 => exact List.takeWhile_append_dropWhile

/-- A `number` takes at least the digit it starts with. -/
theorem number_ne_nil {c : Char} (cs : List Char) (h : c.isDigit = true) :
    (number (c :: cs)).1 ≠ [] := by
  have hw : (c :: cs).takeWhile Char.isDigit ≠ [] := by simp [h]
  fun_cases number (c :: cs) with
  | case1 => simp
  | case2 => exact hw
  | case3 => exact hw

/-- What may start a word may go on with one: `isWordStart` is part of `isWordChar`. -/
theorem isWordChar_of_isWordStart {c : Char} (h : isWordStart c = true) : isWordChar c = true := by
  simp only [isWordStart, Bool.or_eq_true] at h
  rcases h with h | h <;> simp [isWordChar, Char.isAlphanum, h]

/-- A `word` takes at least the character it starts with. -/
theorem word_ne_nil (afterDot : Bool) {c : Char} (cs : List Char) (h : isWordStart c = true) :
    (word afterDot (c :: cs)).2.1 ≠ [] := by
  have hw : (c :: cs).takeWhile isWordChar ≠ [] := by simp [isWordChar_of_isWordStart h]
  fun_cases word afterDot (c :: cs) with
  | case1 => exact List.append_ne_nil_of_left_ne_nil hw _
  | case2 => exact hw
  | case3 => exact hw

/-- The lexeme of a `scan` and the rest make up the text. -/
theorem scan_append {afterDot : Bool} {cs lexeme rest : List Char} {kind : Kind}
    (h : scan afterDot cs = .token kind lexeme rest) : lexeme ++ rest = cs := by
  fun_cases scan afterDot cs with
  | case2 cs hb =>
    obtain ⟨_, rfl, rfl⟩ : _ ∧ _ = _ ∧ _ = _ := by simpa [scan, hb] using h
    cases cs <;> simp_all
  | case3 cs hb =>
    obtain ⟨_, rfl, rfl⟩ : _ ∧ _ = _ ∧ _ = _ := by simpa [scan, hb] using h
    simp [List.takeWhile_append_dropWhile]
  | case4 cs body r hb =>
    obtain ⟨_, rfl, rfl⟩ : _ ∧ _ = _ ∧ _ = _ := by simpa [scan, hb] using h
    simp [closeString_append hb]
  | case6 c cs h₁ h₂ h₃ =>
    obtain ⟨_, rfl, rfl⟩ : _ ∧ _ = _ ∧ _ = _ := by simpa [scan, h₁, h₂, h₃] using h
    exact number_append _
  | case7 c cs h₁ h₂ h₃ h₄ =>
    obtain ⟨_, rfl, rfl⟩ : _ ∧ _ = _ ∧ _ = _ := by simpa [scan, h₁, h₂, h₃, h₄] using h
    exact word_append _ _
  | case8 c cs h₁ h₂ h₃ h₄ k hk =>
    obtain ⟨_, rfl, rfl⟩ : _ ∧ _ = _ ∧ _ = _ := by simpa [scan, h₁, h₂, h₃, h₄, hk] using h
    rfl
  | _ => simp_all [scan]

/-- The lexeme of a `scan` is never empty. -/
theorem scan_ne_nil {afterDot : Bool} {cs lexeme rest : List Char} {kind : Kind}
    (h : scan afterDot cs = .token kind lexeme rest) : lexeme ≠ [] := by
  fun_cases scan afterDot cs with
  | case6 c cs h₁ h₂ h₃ =>
    obtain ⟨_, rfl, rfl⟩ : _ ∧ _ = _ ∧ _ = _ := by simpa [scan, h₁, h₂, h₃] using h
    exact number_ne_nil _ h₃
  | case7 c cs h₁ h₂ h₃ h₄ =>
    obtain ⟨_, rfl, rfl⟩ : _ ∧ _ = _ ∧ _ = _ := by simpa [scan, h₁, h₂, h₃, h₄] using h
    exact word_ne_nil _ _ h₄
  | _ => grind [scan]

/-- Behind the lexeme of a `scan` less text is left. -/
theorem length_rest_lt {afterDot : Bool} {cs lexeme rest : List Char} {kind : Kind}
    (h : scan afterDot cs = .token kind lexeme rest) : rest.length < cs.length := by
  have hpos := List.length_pos_iff.2 (scan_ne_nil h)
  rw [← scan_append h, List.length_append]
  omega

end Gxl.Lexeme
