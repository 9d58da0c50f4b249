import Gxl.Token.Cursor

/-!
# Feeds of significant tokens

The grammar takes its tokens from a feed and sees no comments.  A feed hands out one token at a
time, and after the end of the text it keeps handing out `eof`.  There are two: the cursor, which
reads a token only when the grammar asks for it, and the queue of tokens that have been read
before.

Reference: `src/crates/core/src/parser/mod.rs` (`Parser::fill`, which drops comments).
-/

namespace Gxl

/-- A supply of significant tokens, of which `size` says how much is left. -/
class Feed (σ : Type) where
  /-- The next token, or the reason why there is none, and the feed behind it. -/
  next : σ → Except LexError Token × σ
  /-- A bound on the number of tokens before the end of the text. -/
  size : σ → Nat

/-- A cursor feeds the tokens of its text as they are asked for, and leaves out the comments. -/
instance : Feed Cursor where
  next := Cursor.nextSignificant
  size c := c.rest.length

/-- Tokens that have been read before, and the end of their text. -/
structure Queue where
  tokens : List Token
  eof : Token
  deriving DecidableEq, Inhabited

namespace Queue

/-- The first token of a queue, or its `eof` when it is empty, and the queue behind it. -/
def next : Queue → Except LexError Token × Queue
  | ⟨[], eof⟩ => (.ok eof, ⟨[], eof⟩)
  | ⟨t :: ts, eof⟩ => (.ok t, ⟨ts, eof⟩)

end Queue

/-- A queue feeds its tokens in order, and then its `eof`. -/
instance : Feed Queue where
  next := Queue.next
  size q := q.tokens.length

end Gxl
