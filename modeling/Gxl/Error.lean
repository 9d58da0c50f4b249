import Gxl.Text.Character
import Gxl.Token

/-!
# Errors

Reading a source text stops at its first fault.  The fault lies either in the characters, when no
token starts at a place, or in the grammar, when a token stands where the grammar wants another.
Either kind carries its position, and one function words each message.

Reference: `src/crates/core/src/error.rs` (`LexError`, `Expected`, `describe_alternatives`,
`ParseError`, `GxlError`) and `src/crates/core/src/parser/mod.rs` (`Parser::unexpected`, which is
`ParseError.ofToken`).
-/

namespace Gxl

/-- A message with its place behind it, as in `unexpected character at 3:7`. -/
def Position.located (p : Position) (message : String) : String :=
  message ++ " at " ++ toString p.line ++ ":" ++ toString p.column

/-- Why no token could be read (`LexErrorKind`). -/
inductive LexError.Cause where
  /-- The text ends inside a string literal. -/
  | unterminatedString
  /-- No token starts with this character. -/
  | unexpectedChar (c : Char)
  deriving DecidableEq, Inhabited

/-- The wording of a lexical cause (the display of `LexErrorKind`). -/
def LexError.Cause.message : LexError.Cause → String
  | .unterminatedString => "unterminated string literal"
  | .unexpectedChar c => "unexpected character '" ++ Text.quoteChar c ++ "'"

/-- A lexical error (`LexError`): at the opening quote of the string that does not end, or at the
character that starts no token. -/
structure LexError where
  cause : LexError.Cause
  position : Position
  deriving DecidableEq, Inhabited

/-- The message of a lexical error with its place (the display of `LexError`). -/
def LexError.display (e : LexError) : String :=
  e.position.located e.cause.message

/-- One of the things that the grammar would have accepted (`Expected`). -/
inductive Expected where
  /-- A token of a kind. -/
  | token (kind : Kind)
  /-- A word with a meaning at this place. -/
  | keyword (word : String)
  /-- A construct, by its name. -/
  | item (name : String)
  deriving DecidableEq, Inhabited

namespace Expected

/-- The words of a message for one alternative (the display of `Expected`). -/
def label : Expected → String
  | .token kind => kind.label
  | .keyword word => "'" ++ word ++ "'"
  | .item name => name

/-- The alternatives as a phrase (`describe_alternatives`). -/
def describe : List Expected → String
  | [] => "nothing"
  | [a] => a.label
  | [a, b] => a.label ++ " or " ++ b.label
  | many => "one of " ++ ", ".intercalate (many.map label)

end Expected

/-- The phrase of a message for the token that was found, as `Parser::unexpected` words it. -/
def Token.describe (t : Token) : String :=
  match t.kind with
  | .ident | .number | .builtin => t.kind.label ++ " '" ++ t.text ++ "'"
  | .str => "string literal"
  | kind => kind.label

/-- A grammatical error (`ParseError`): the token that was found, and what would have been accepted
in its place. -/
structure ParseError where
  message : String
  position : Position
  found : Kind
  foundText : String
  expected : List Expected
  deriving DecidableEq, Inhabited

namespace ParseError

/-- The error of a token that stands where only the given alternatives may (`Parser::unexpected`).
-/
def ofToken (t : Token) (expected : List Expected) : ParseError where
  message := "expected " ++ Expected.describe expected ++ ", found " ++ t.describe
  position := t.span.startPosition
  found := t.kind
  foundText := t.text
  expected := expected

end ParseError

/-- An error of either kind (`GxlError`). -/
inductive Error where
  | lex (error : LexError)
  | parse (error : ParseError)
  deriving DecidableEq, Inhabited

namespace Error

/-- Where an error lies (`GxlError::position`). -/
def position : Error → Position
  | .lex e => e.position
  | .parse e => e.position

/-- The message of an error, without its place (`GxlError::message`). -/
def message : Error → String
  | .lex e => e.cause.message
  | .parse e => e.message

/-- The message of an error with its place (the display of `GxlError`). -/
def display (e : Error) : String :=
  e.position.located e.message

end Error

end Gxl
