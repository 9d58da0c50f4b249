import Gxl.Token

/-!
# The log

Reading a document leaves a trail: where it began and ended, where each item started, and each
builtin command at the moment its token was read.  An `Event` says what happened; a `Record` is the
line of the log that tells it.

Reference: the calls of `log::debug!` and `log::trace!` in `src/crates/core/src/lexer.rs`
(`Lexer::scan_token`) and `src/crates/core/src/parser/mod.rs` (`Parser::parse_top_level_item`,
`parse`).
-/

namespace Gxl

/-- How much detail a record gives: the levels `log::debug!` and `log::trace!`. -/
inductive Level where
  | debug
  | trace
  deriving DecidableEq, Inhabited

/-- The name of a level. -/
def Level.name : Level → String
  | .debug => "debug"
  | .trace => "trace"

/-- A line of the log: its level, the part of the program it is about, and its message. -/
structure Record where
  level : Level
  target : String
  message : String
  deriving DecidableEq, Inhabited

/-- Something that happens while a document is read, and that `Event.record` puts into words. -/
inductive Event where
  /-- A text of a number of bytes is about to be read. -/
  | begun (bytes : Nat)
  /-- An item starts at a line and column with a token of a kind. -/
  | item (line column : Nat) (kind : Kind)
  /-- The name of a builtin command was read at a line and column. -/
  | builtin (name : String) (line column : Nat)
  /-- The text was read, and holds a number of items. -/
  | done (items : Nat)
  deriving DecidableEq, Inhabited

namespace Event

/-- The record of an event, as the calls of `log::debug!` and `log::trace!` word it. -/
def record : Event → Record
  | .begun bytes => ⟨.debug, "gxl_core::parser", "parsing " ++ toString bytes ++ " bytes"⟩
  | .item line column kind =>
    ⟨.trace, "gxl_core::parser",
      "top-level item at " ++ toString line ++ ":" ++ toString column ++ " starting with "
        ++ kind.label⟩
  | .builtin name line column =>
    ⟨.trace, "gxl_core::lexer",
      "builtin '" ++ name ++ "' at " ++ toString line ++ ":" ++ toString column⟩
  | .done items =>
    ⟨.debug, "gxl_core::parser", "parsed " ++ toString items ++ " top-level items"⟩

/-- The events of reading a token: the names of builtin commands are noted, as in
`Lexer::scan_token`. -/
def ofToken (t : Token) : List Event :=
  if t.kind = .builtin then [.builtin t.text t.span.line t.span.column] else []

end Event

end Gxl
