import Gxl.Event
import Gxl.Token.Feed

/-!
# Readers

A reader stands between the feed of tokens and the grammar.  It holds the tokens that the grammar
has looked at and not yet taken, the place where the last token taken ended, and the events so far.

A token is fetched only when the grammar looks at it, and a fault of the feed shows up at that
moment.  The end of the text is looked at and taken like any token, but stays where it is.

Reference: `src/crates/core/src/parser/mod.rs` (`Parser`; `fill` is `fetch`, `peek` and
`peek_nth(1)` are `peek` and `peekSecond`, and `advance` is `advance`).
-/

namespace Gxl

/-- The state of reading a document from a feed (`Parser`). -/
structure Reader (σ : Type) where
  /-- The tokens that have not been looked at. -/
  feed : σ
  /-- The tokens that have been looked at and not taken. -/
  ahead : List Token
  /-- The byte offset behind the last token taken. -/
  lastEnd : Nat
  /-- What has happened, oldest first. -/
  events : List Event
  deriving DecidableEq, Inhabited

namespace Reader

variable {σ : Type} [Feed σ]

/-- The reader at the start of a feed (`Parser::new`). -/
def ofFeed (feed : σ) : Reader σ :=
  ⟨feed, [], 0, []⟩

/-- A bound on the number of tokens still to be taken before the end of the text: those `ahead` and
those of the feed. -/
def size (r : Reader σ) : Nat :=
  Feed.size r.feed + r.ahead.countP (·.kind != .eof)

/-- Adds an event to the trail, which stands for a call of `log::debug!` or `log::trace!`. -/
def note (r : Reader σ) (e : Event) : Reader σ :=
  { r with events := r.events ++ [e] }

/-- Moves the next token of the feed to the end of those looked at (one round of `Parser::fill`). -/
def fetch (r : Reader σ) : Except Error Token × Reader σ :=
  match Feed.next r.feed with
  | (.error e, feed) => (.error (.lex e), { r with feed := feed })
  | (.ok t, feed) =>
    (.ok t,
      { r with feed := feed, ahead := r.ahead ++ [t], events := r.events ++ Event.ofToken t })

/-- The token of a `fetch` stands behind those that have been looked at. -/
theorem ahead_of_fetch {r r' : Reader σ} {t : Token} (h : r.fetch = (.ok t, r')) :
    r'.ahead = r.ahead ++ [t] := by
  rw [fetch] at h
  split at h
  · simp at h
  · obtain ⟨rfl, rfl⟩ : _ = t ∧ _ = r' := by simpa using h
    rfl

/-- Looks at the next token (`Parser::peek`). -/
def peek (r : Reader σ) : Except Error Token × Reader σ :=
  match r.ahead with
  | [] => r.fetch
  | t :: _ => (.ok t, r)

/-- Looks at the token after the next (`Parser::peek_nth` of one). -/
def peekSecond (r : Reader σ) : Except Error Token × Reader σ :=
  match r.ahead with
  | [] =>
    match r.fetch with
    | (.error e, r') => (.error e, r')
    | (.ok _, r') => r'.fetch
  | [_] => r.fetch
  | _ :: t :: _ => (.ok t, r)

/-- Takes a token that has been looked at (part of `Parser::advance`).  The end of the text
stays. -/
def drop (r : Reader σ) (t : Token) : Reader σ :=
  { r with
    ahead := if t.kind = .eof then r.ahead else r.ahead.tail
    lastEnd := t.span.stop }

/-- Takes the next token (`Parser::advance`). -/
def advance (r : Reader σ) : Except Error Token × Reader σ :=
  match r.peek with
  | (.error e, r') => (.error e, r')
  | (.ok t, r') => (.ok t, r'.drop t)

end Reader

end Gxl
