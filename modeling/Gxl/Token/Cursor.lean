import Gxl.Error
import Gxl.Token.Lexeme

/-!
# Reading tokens one at a time

A `Cursor` stands in a source text and hands out the tokens from there on, each when it is asked
for.  It goes on after an error: a character that starts no token stays where it is and is reported
again, and a string that does not end takes the rest of the text with it.

`Cursor.toList` reads a text to its end; `tokenize` does so from the start.  Every token but the
end of the text leaves less of it behind (`rest_lt_of_next`), which is why reading ends.

Reference: `src/crates/core/src/lexer.rs` (`Lexer::new`, `Lexer::next_token`, which is
`Cursor.next`, and `tokenize`).
-/

namespace Gxl

/-- A place in a source text from which tokens are read (`Lexer`). -/
structure Cursor where
  /-- The text still to be read. -/
  rest : List Char
  /-- Where that text starts. -/
  position : Position
  /-- Whether the last token, comments aside, was a dot. -/
  afterDot : Bool
  deriving DecidableEq, Inhabited

namespace Cursor

/-- The cursor at the start of a source text (`Lexer::new`). -/
def ofSource (source : String) : Cursor :=
  ⟨source.toList, .start, false⟩

/-- The cursor behind the blanks (`Text.isBlank`) that come next. -/
def skipBlanks (c : Cursor) : Cursor :=
  { c with
    rest := c.rest.dropWhile Text.isBlank
    position := c.position.after (c.rest.takeWhile Text.isBlank) }

/-- The cursor behind a lexeme of a given kind.  A comment leaves `afterDot` as it is, for it does
not count as the last token. -/
def behind (c : Cursor) (kind : Kind) (lexeme rest : List Char) : Cursor :=
  ⟨rest, c.position.after lexeme, if kind = .comment then c.afterDot else kind == .dot⟩

/-- The token that stands at a cursor with no blanks ahead, which `Lexeme.scan` tells, and the
cursor behind it. -/
def read (c : Cursor) : Except LexError Token × Cursor :=
  match Lexeme.scan c.afterDot c.rest with
  | .done =>
    (.ok ⟨.eof, "", .between c.position c.position.offset⟩, { c with afterDot := false })
  | .token kind lexeme rest =>
    (.ok ⟨kind, String.ofList lexeme, .between c.position (c.position.after lexeme).offset⟩,
      c.behind kind lexeme rest)
  | .unterminated =>
    (.error ⟨.unterminatedString, c.position⟩,
      { c with rest := [], position := c.position.after c.rest })
  | .illegal ch => (.error ⟨.unexpectedChar ch, c.position⟩, c)

/-- The next token, or the reason why there is none, and the cursor behind it (`Lexer::next_token`).
At the end of the text this is the token `eof`, again and again. -/
def next (c : Cursor) : Except LexError Token × Cursor :=
  c.skipBlanks.read

/-- Skipping blanks leaves no more text: `skipBlanks` only drops characters. -/
theorem length_skipBlanks_le (c : Cursor) : c.skipBlanks.rest.length ≤ c.rest.length :=
  (List.dropWhile_sublist _).length_le

/-- A token other than `eof` that is read leaves less text behind. -/
theorem rest_lt_of_read {c c' : Cursor} {t : Token} (h : c.read = (.ok t, c'))
    (ht : t.kind ≠ .eof) : c'.rest.length < c.rest.length := by
  unfold read at h
  split at h
  · simp only [Prod.mk.injEq, Except.ok.injEq] at h
    exact absurd (h.1 ▸ rfl) ht
  · rename_i kind lexeme rest hscan
    simp only [Prod.mk.injEq] at h
    rw [← h.2]
    exact Lexeme.length_rest_lt hscan
  · simp at h
  · simp at h

/-- A token other than `eof` leaves less text behind, which is why `toList` and `nextSignificant`
end. -/
theorem rest_lt_of_next {c c' : Cursor} {t : Token} (h : c.next = (.ok t, c'))
    (ht : t.kind ≠ .eof) : c'.rest.length < c.rest.length :=
  Nat.lt_of_lt_of_le (rest_lt_of_read h ht) (length_skipBlanks_le c)

/-- All tokens from a cursor on, comments included, up to and with the `eof` at the end of the text.
-/
def toList (c : Cursor) : Except LexError (List Token) :=
  match h : c.next with
  | (.error e, _) => .error e
  | (.ok t, c') =>
    if ht : t.kind = .eof then
      .ok [t]
    else
      have := rest_lt_of_next h ht
      c'.toList.map (t :: ·)
termination_by c.rest.length

/-- The next token that is not a comment, which is what `Parser::fill` reads. -/
def nextSignificant (c : Cursor) : Except LexError Token × Cursor :=
  match h : c.next with
  | (.error e, c') => (.error e, c')
  | (.ok t, c') =>
    if ht : t.kind = .comment then
      have := rest_lt_of_next h (by simp [ht])
      c'.nextSignificant
    else
      (.ok t, c')
termination_by c.rest.length

/-- The answers to a number of requests for the `next` token, errors included. -/
def steps : Nat → Cursor → List (Except LexError Token)
  | 0, _ => []
  | n + 1, c => c.next.1 :: steps n c.next.2

end Cursor

/-- All tokens of a source text, comments included, up to and with its `eof`. -/
def tokenize (source : String) : Except LexError (List Token) :=
  (Cursor.ofSource source).toList

end Gxl
