import Gxl.Error
import Gxl.Json
import Gxl.Text.Size

/-!
# Reports of errors

An error is shown to a reader with the line it lies on and a caret below the place
(`Error.render`), and to a program as JSON (`Error.toJson`, `Error.detail`).

Reference: `src/crates/core/src/diagnostic.rs` (`GxlError::render`), `src/crates/core/src/error.rs`
(`GxlError::to_json_value`) and `src/crates/cli/src/commands/mod.rs` (`error_json`, which is
`Error.toJsonIn`).
-/

namespace Gxl

namespace Error

/-- The line of a source text that an error lies on, one of `Text.lines`; empty when there is none.
-/
def sourceLine (e : Error) (source : String) : List Char :=
  ((Text.lines source.toList)[e.position.line - 1]?).getD []

/-- What stands before the caret: a tab below each tab of the line, and a space below any other
character before the column. -/
def padding (e : Error) (source : String) : List Char :=
  ((e.sourceLine source).take (e.position.column - 1)).map fun c => if c = '\t' then '\t' else ' '

/-- The last line of a report: what the grammar would have accepted. -/
def expectedLine (margin : String) : Error → String
  | .parse e =>
    if e.expected.isEmpty then
      ""
    else
      margin ++ " = expected one of: " ++ ", ".intercalate (e.expected.map Expected.label) ++ "\n"
  | .lex _ => ""

/-- The report of an error in a source text that was read from a file (`GxlError::render`). -/
def render (e : Error) (source file : String) : String :=
  let line := toString e.position.line
  let margin := String.ofList (List.replicate line.length ' ')
  "error: " ++ e.message ++ "\n"
    ++ margin ++ "--> " ++ file ++ ":" ++ line ++ ":" ++ toString e.position.column ++ "\n"
    ++ margin ++ " |\n"
    ++ line ++ " | " ++ String.ofList (e.sourceLine source) ++ "\n"
    ++ margin ++ " | " ++ String.ofList (e.padding source) ++ "^\n"
    ++ e.expectedLine margin

/-! ## JSON -/

/-- The fields that tell a program about an error (`GxlError::to_json_value`). -/
def fields (e : Error) : List (String × Json) :=
  match e with
  | .lex _ => common "lex" .null []
  | .parse p => common "parse" (.string p.found.name) p.expected
where
  /-- The fields of both kinds of error. -/
  common (kind : String) (found : Json) (expected : List Expected) : List (String × Json) :=
    [("kind", .string kind), ("message", .string e.message), ("line", .nat e.position.line),
     ("column", .nat e.position.column), ("offset", .nat e.position.offset), ("found", found),
     ("expected", .ofList (fun x => .string x.label) expected)]

/-- An error as JSON, with its fields in the order of their names (`GxlError::to_json_value`). -/
def toJson (e : Error) : Json :=
  (Json.object e.fields).canonical

/-- An error as JSON, with the name of the file it lies in (`error_json`). -/
def toJsonIn (e : Error) (file : String) : Json :=
  (Json.object (e.fields ++ [("file", .string file)])).canonical

end Error

/-- A position as JSON, one field for each field of `Position`. -/
def Position.toJson (p : Position) : Json :=
  .object [("offset", .nat p.offset), ("line", .nat p.line), ("column", .nat p.column)]

/-- A lexical cause as JSON: the tagged form of `LexErrorKind`. -/
def LexError.Cause.toJson : LexError.Cause → Json
  | .unterminatedString => .object [("type", .string "unterminated_string")]
  | .unexpectedChar c =>
    .object [("type", .string "unexpected_char"), ("char", .string c.toString)]

/-- A lexical error as JSON, part by part (`LexError`). -/
def LexError.detail (e : LexError) : Json :=
  .object [("kind", e.cause.toJson), ("position", e.position.toJson)]

/-- An alternative as JSON: the tagged form of `Expected`. -/
def Expected.toJson : Expected → Json
  | .token kind => .object [("type", .string "token"), ("value", .string kind.name)]
  | .keyword word => .object [("type", .string "keyword"), ("value", .string word)]
  | .item name => .object [("type", .string "item"), ("value", .string name)]

/-- A grammatical error as JSON, part by part (`ParseError`). -/
def ParseError.detail (e : ParseError) : Json :=
  .object
    [("message", .string e.message), ("position", e.position.toJson),
     ("found", .string e.found.name), ("found_text", .string e.foundText),
     ("expected", .ofList Expected.toJson e.expected)]

/-- An error as JSON, part by part: `LexError.detail` or `ParseError.detail`. -/
def Error.detail : Error → Json
  | .lex e => e.detail
  | .parse e => e.detail

end Gxl
