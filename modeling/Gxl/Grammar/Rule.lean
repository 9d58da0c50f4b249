import Gxl.Grammar.Reader

/-!
# Rules

A rule of the grammar is a program that looks at tokens, takes them, and either fails or builds a
piece of the tree.  Rules are data: `Rule.run` gives them their meaning on a reader.  A fact about
every rule is one induction on `Rule`, and one rule can be run on any feed.

A rule that fails leaves the reader where it stopped, so that reading can go on from there.

`many` repeats a step until it declines.  Each repetition has to take a token
(`Reader.size` has to shrink); a step that takes none is not repeated, so every rule ends.

Reference: `src/crates/core/src/parser/mod.rs` (`at`, `at_keyword`, `eat`, `expect`,
`expect_keyword`, `eat_optional_semi`, `span_from`).  `eachAfter`, `commaList`, `block` and
`closing` are loops and endings that its rules share.
-/

namespace Gxl

/-- A rule of the grammar that builds an `α`. -/
inductive Rule : Type → Type 1 where
  /-- Builds a value and takes nothing. -/
  | ret {α : Type} (a : α) : Rule α
  /-- One rule, then another that depends on its result. -/
  | seq {α β : Type} (first : Rule α) (next : α → Rule β) : Rule β
  /-- Looks at the next token. -/
  | peek : Rule Token
  /-- Looks at the token after the next. -/
  | peekSecond : Rule Token
  /-- Takes the next token. -/
  | advance : Rule Token
  /-- The byte offset behind the last token taken. -/
  | lastEnd : Rule Nat
  /-- Adds an event to the trail. -/
  | note (e : Event) : Rule Unit
  /-- Fails at the next token, since none of the alternatives stands there. -/
  | fail {α : Type} (expected : List Expected) : Rule α
  /-- Repeats a step until it declines, and collects what it builds. -/
  | many {α : Type} (step : Rule (Option α)) : Rule (List α)

namespace Rule

instance : Monad Rule where
  pure := ret
  bind := seq

variable {σ : Type} [Feed σ]

/-- Repeats a step on a reader until it declines, fails, or takes no token, as its `size` tells. -/
def loop {α : Type} (step : Reader σ → Except Error (Option α) × Reader σ) (r : Reader σ) :
    Except Error (List α) × Reader σ :=
  match step r with
  | (.error e, r') => (.error e, r')
  | (.ok none, r') => (.ok [], r')
  | (.ok (some a), r') =>
    if r'.size < r.size then
      match loop step r' with
      | (.error e, r'') => (.error e, r'')
      | (.ok as, r'') => (.ok (a :: as), r'')
    else
      (.ok [a], r')
termination_by r.size

/-- Runs a rule on a reader: what it builds or why it failed, and the reader behind it.  This is
what gives the methods of `Parser` their meaning here. -/
def run {α : Type} : Rule α → Reader σ → Except Error α × Reader σ
  | ret a, r => (.ok a, r)
  | seq first next, r =>
    match first.run r with
    | (.error e, r') => (.error e, r')
    | (.ok a, r') => (next a).run r'
  | peek, r => r.peek
  | peekSecond, r => r.peekSecond
  | advance, r => r.advance
  | lastEnd, r => (.ok r.lastEnd, r)
  | note e, r => (.ok (), r.note e)
  | fail expected, r =>
    match r.peek with
    | (.error e, r') => (.error e, r')
    | (.ok t, r') => (.error (.parse (.ofToken t expected)), r')
  | many step, r => loop step.run r

/-- Building without reading leaves the reader as it is: `pure` is `ret`. -/
@[simp] theorem run_pure {α : Type} (a : α) (r : Reader σ) :
    (pure a : Rule α).run r = (.ok a, r) := rfl

/-- The `run` of a sequence is the run of its first part and then that of the next, unless the first
fails. -/
theorem run_bind {α β : Type} (first : Rule α) (next : α → Rule β) (r : Reader σ) :
    (first >>= next).run r =
      match first.run r with
      | (.error e, r') => (.error e, r')
      | (.ok a, r') => (next a).run r' := by
  rw [← run]
  rfl

/-- What follows a rule that builds `a` goes on with `a` from where that rule stopped. -/
theorem run_bind_of_ok {α β : Type} {first : Rule α} {next : α → Rule β} {r r' : Reader σ} {a : α}
    (h : first.run r = (.ok a, r')) : (first >>= next).run r = (next a).run r' := by
  rw [run_bind, h]

/-- A rule that fails ends the rule it is the beginning of: `next` is not run. -/
theorem run_bind_of_error {α β : Type} {first : Rule α} {next : α → Rule β} {r r' : Reader σ}
    {e : Error} (h : first.run r = (.error e, r')) : (first >>= next).run r = (.error e, r') := by
  rw [run_bind, h]

/-! ## Tokens -/

/-- Whether the next token is of a kind (`Parser::at`). -/
def atKind (kind : Kind) : Rule Bool := do
  return (← peek).kind == kind

/-- Whether the next token is a word (`Parser::at_keyword`). -/
def atWord (word : String) : Rule Bool := do
  return (← peek).isWord word

/-- Takes the next token if it is of a kind (`Parser::eat`). -/
def eat (kind : Kind) : Rule (Option Token) := do
  if ← atKind kind then
    return some (← advance)
  else
    return none

/-- Takes the next token, which has to be of a kind (`Parser::expect`). -/
def expect (kind : Kind) : Rule Token := do
  match ← eat kind with
  | some t => return t
  | none => fail [.token kind]

/-- Takes the next token, which has to be a word (`Parser::expect_keyword`). -/
def expectWord (word : String) : Rule Token := do
  if ← atWord word then advance else fail [.keyword word]

/-- The span from the start of another to the end of the last token taken (`Parser::span_from`). -/
def spanFrom (start : Span) : Rule Span := do
  return { start with stop := ← lastEnd }

/-! ## Lists -/

/-- Items that each follow a sign, as many as there are: a loop around `eat`. -/
def eachAfter {α : Type} (sign : Kind) (item : Rule α) : Rule (List α) :=
  many do
    match ← eat sign with
    | some _ => return some (← item)
    | none => return none

/-- Items separated by commas, at least one: an item and then `eachAfter` a comma. -/
def commaList {α : Type} (item : Rule α) : Rule (List α) := do
  let first ← item
  let rest ← eachAfter .comma item
  return first :: rest

/-- Entries between braces: a loop that `parse_module` and each construct with a body has. -/
def block {α : Type} (entry : Rule α) : Rule (List α) := do
  discard <| expect .braceOpen
  let entries ← many do
    if ← atKind .braceClose then return none else return some (← entry)
  discard advance
  return entries

/-- The span of a construct that ends with a closing brace, and the semicolon that may follow it
(`Parser::eat_optional_semi`). -/
def closing (start : Span) : Rule Span := do
  let span ← spanFrom start
  discard <| eat .semicolon
  return span

end Rule

end Gxl
