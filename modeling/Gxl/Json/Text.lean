import Gxl.Json

/-!
# The text of JSON values

A value is written on one line (`Json.compact`), or spread over lines with two spaces for each level
(`Json.pretty`).  The two texts differ in nothing but the blanks between the parts of a value, which
a `Style` gives.  Characters below the space are escaped, with the short form where there is one;
every other character but the quote and the backslash stands for itself.

Reference: `serde_json::to_string_pretty` as `src/crates/cli/src/commands/parse.rs`, `tokens.rs`,
`check.rs` and `mod.rs` use it, and the display of a `serde_json::Value` in
`src/crates/cli/src/main.rs` (`report_error`) and `src/crates/cli/src/commands/fmt.rs`
(`report_status`).
-/

namespace Gxl.Json

/-- The text of a character inside a JSON string (the escapes of `serde_json`). -/
def escapeChar (c : Char) : String :=
  match c with
  | '"' => "\\\""
  | '\\' => "\\\\"
  | '\x08' => "\\b"
  | '\x0c' => "\\f"
  | '\n' => "\\n"
  | '\r' => "\\r"
  | '\t' => "\\t"
  | c =>
    if c.toNat < 0x10 then "\\u000" ++ String.ofList (Nat.toDigits 16 c.toNat)
    else if c.toNat < 0x20 then "\\u00" ++ String.ofList (Nat.toDigits 16 c.toNat)
    else c.toString

/-- A JSON string with its quotes, each character by `escapeChar`. -/
def quote (s : String) : String :=
  "\"" ++ String.join (s.toList.map escapeChar) ++ "\""

/-- A decimal number, with all of its `places`. -/
def decimal (digits : Int) (places : Nat) : String :=
  let sign := if digits < 0 then "-" else ""
  let text := Nat.toDigits 10 digits.natAbs
  let padded := List.replicate (places + 1 - text.length) '0' ++ text
  let whole := String.ofList (padded.take (padded.length - places))
  if places = 0 then sign ++ whole
  else sign ++ whole ++ "." ++ String.ofList (padded.drop (padded.length - places))

/-- The blanks between the parts of a value: a `Formatter` of `serde_json`. -/
structure Style where
  /-- What stands at the start of a line at a depth. -/
  line : Nat → String
  /-- What stands behind the colon of a field. -/
  gap : String
  /-- A line starts with blanks, so that they are told from the parts of a value. -/
  blank_line : ∀ depth, ∀ c ∈ (line depth).toList, c = ' ' ∨ c = '\n'

namespace Style

/-- The style of a value on one line, which has no blanks (`CompactFormatter`). -/
def oneLine : Style where
  line _ := ""
  gap := ""
  blank_line := by simp

/-- The style of a value spread over lines, with two spaces for each level (`PrettyFormatter`). -/
def indented : Style where
  line depth := "\n" ++ String.ofList (List.replicate (2 * depth) ' ')
  gap := " "
  blank_line := by
    intro depth c hc
    simp only [String.toList_append, String.toList_ofList, List.mem_append,
      List.mem_replicate] at hc
    rcases hc with hc | ⟨-, rfl⟩
    · exact .inr (by simpa using hc)
    · exact .inl rfl

/-- Parts between brackets, each at the start of a `line` one level deeper. -/
def enclose (style : Style) (opening closing : String) (depth : Nat) (parts : List String) :
    String :=
  if parts.isEmpty then
    opening ++ closing
  else
    opening ++ style.line (depth + 1) ++ ("," ++ style.line (depth + 1)).intercalate parts
      ++ style.line depth ++ closing

end Style

mutual

/-- A value that starts at a depth, in a `Style`. -/
def textAt (style : Style) (depth : Nat) : Json → String
  | .null => "null"
  | .bool true => "true"
  | .bool false => "false"
  | .number digits places => decimal digits places
  | .string s => quote s
  | .array items => style.enclose "[" "]" depth (itemTexts style (depth + 1) items)
  | .object fields => style.enclose "\x7b" "\x7d" depth (fieldTexts style (depth + 1) fields)

/-- The items of an array at a depth, each by `textAt`. -/
def itemTexts (style : Style) (depth : Nat) : List Json → List String
  | [] => []
  | v :: items => v.textAt style depth :: itemTexts style depth items

/-- The fields of an object at a depth: each its name, a colon, the `gap`, and its value by
`textAt`. -/
def fieldTexts (style : Style) (depth : Nat) : List (String × Json) → List String
  | [] => []
  | (k, v) :: fields =>
    (quote k ++ ":" ++ style.gap ++ v.textAt style depth) :: fieldTexts style depth fields

end

/-- A value on one line, in the style `oneLine` (the display of `serde_json::Value`). -/
def compact (v : Json) : String :=
  v.textAt .oneLine 0

/-- A value spread over lines, in the style `indented` (`serde_json::to_string_pretty`). -/
def pretty (v : Json) : String :=
  v.textAt .indented 0

end Gxl.Json
