import Gxl.Text.Size

/-!
# Positions and spans

A position is a point of a source text; a span is a stretch of it.  Both keep the byte offset for
cutting the text and the line and column for showing it to a reader.

Reference: `src/crates/core/src/span.rs` (`Position`, `Span::new`, `Span::start_position`,
`Span::text`) and `src/crates/core/src/lexer.rs` (`Lexer::bump`, which is `Position.step`).
-/

namespace Gxl

/-- A point in a source text: its byte offset, and its line and column, both counted from one.
Columns count characters, and only a line feed ends a line.

The program counts lines and columns in 32 bits; here they are natural numbers, which never run
over.  In a source of fewer than `2 ^ 32 - 1` bytes the two agree, since a `line` and a `column` are
at most one beyond the `offset` (`Position.Marks.le`). -/
structure Position where
  offset : Nat
  line : Nat
  column : Nat
  deriving DecidableEq, Inhabited

namespace Position

/-- The position of the first character of a text (`Position::START`). -/
def start : Position := ⟨0, 1, 1⟩

/-- The position after a character that stands at `p` (`Lexer::bump`). -/
def step (p : Position) (c : Char) : Position :=
  if c = '\n' then ⟨p.offset + c.utf8Size, p.line + 1, 1⟩
  else ⟨p.offset + c.utf8Size, p.line, p.column + 1⟩

/-- The position after a stretch of text that starts at `p`, which is `step` for each character. -/
def after (p : Position) (cs : List Char) : Position :=
  cs.foldl step p

@[simp] theorem after_nil (p : Position) : p.after [] = p := rfl

@[simp] theorem after_cons (p : Position) (c : Char) (cs : List Char) :
    p.after (c :: cs) = (p.step c).after cs := rfl

/-- Moving `after` a text in two parts is moving after the first and then after the second. -/
theorem after_append (p : Position) (as bs : List Char) :
    p.after (as ++ bs) = (p.after as).after bs := by
  simp [after]

/-- One `step` moves the offset by the size of the character. -/
@[simp] theorem offset_step (p : Position) (c : Char) :
    (p.step c).offset = p.offset + c.utf8Size := by
  unfold step; split <;> rfl

/-- Reading a text moves the offset by its size in bytes, `Text.byteSize`. -/
theorem offset_after (p : Position) (cs : List Char) :
    (p.after cs).offset = p.offset + Text.byteSize cs := by
  induction cs generalizing p with
  | nil => rfl
  | cons c cs ih => rw [after_cons, ih, offset_step, Text.byteSize_cons]; omega

end Position

/-- A stretch of a source text: the byte offsets of its two ends, and the line and column of its
first character. -/
structure Span where
  start : Nat
  stop : Nat
  line : Nat
  column : Nat
  deriving DecidableEq, Inhabited

namespace Span

/-- The span from a position to a byte offset (`Span::new`). -/
def between (start : Position) (stop : Nat) : Span :=
  ⟨start.offset, stop, start.line, start.column⟩

/-- The position of the first character of a span (`Span::start_position`). -/
def startPosition (s : Span) : Position :=
  ⟨s.start, s.line, s.column⟩

/-- The text that a span covers (`Span::text`).  A span that does not lie on the characters of the
text covers none. -/
def text? (s : Span) (source : String) : Option String :=
  (Text.slice? source.toList s.start s.stop).map String.ofList

end Span

end Gxl
