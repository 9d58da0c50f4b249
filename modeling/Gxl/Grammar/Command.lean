import Gxl.Document
import Gxl.Grammar.Rule

/-!
# The grammar of names, annotations and commands

Reference: `src/crates/core/src/parser/command.rs` (`parse_annotations`, `parse_annotation_arg`,
`parse_command_stmt`, `parse_call_target`, `finish_call`, `parse_paren_props`,
`parse_command_prop`) and `src/crates/core/src/parser/mod.rs` (`ident`, `string`, `ref_list`).
-/

namespace Gxl.Rule

/-- A name (`Parser::ident`). -/
def ident : Rule Ident := do
  let t ← expect .ident
  return ⟨t.text, t.span⟩

/-- The text of a string literal without its two quotes, as `Parser::string` cuts it out. -/
def unquote (text : String) : String :=
  String.ofList text.toList.tail.dropLast

/-- A string literal (`Parser::string`). -/
def string : Rule StrLit := do
  let t ← expect .str
  return ⟨unquote t.text, t.span⟩

/-- Names separated by commas (`Parser::ref_list`). -/
def refList : Rule RefList := do
  let first ← ident
  let rest ← eachAfter .comma ident
  return ⟨first :: rest, ← spanFrom first.span⟩

/-- The names behind a sign, if the sign is there: the call of `ref_list` that each construct
makes. -/
def refsAfter (sign : Kind) : Rule (Option RefList) := do
  match ← eat sign with
  | some _ => return some (← refList)
  | none => return none

/-! ## Annotations -/

/-- An argument of an annotation: a string, or a name and a string (`parse_annotation_arg`). -/
def annotArg : Rule Annot.Arg := do
  match (← peek).kind with
  | .str => return .bare (← string)
  | .ident =>
    let key ← ident
    discard <| expect .equals
    return .keyed key (← string)
  | _ => fail [.token .str, .token .ident]

/-- The arguments of an annotation between parentheses, or none at all (part of
`parse_annotations`). -/
def annotArgs : Rule (List Annot.Arg) := do
  match ← eat .parenOpen with
  | some _ =>
    let args ← commaList annotArg
    discard <| expect .parenClose
    return args
  | none => return []

/-- The annotations that come next, in order (`parse_annotations`). -/
def annots : Rule (List Annot) :=
  many do
    match ← eat .annotOpen with
    | some t =>
      let name ← ident
      let args ← annotArgs
      discard <| expect .bracketClose
      return some ⟨name, args, ← spanFrom t.span⟩
    | none => return none

/-! ## Commands -/

/-- The value of an argument: a string or a name (part of `parse_command_prop`). -/
def argValue : Rule Arg.Value := do
  match (← peek).kind with
  | .str => return .string (← string)
  | .ident => return .variable (← ident)
  | _ => fail [.token .str, .token .ident]

/-- An argument `key: value`. -/
def arg : Rule Arg := do
  let key ← ident
  discard <| expect .colon
  let value ← argValue
  return ⟨key, value, ← spanFrom key.span⟩

/-- Arguments between parentheses, possibly none (`parse_paren_props`). -/
def callArgs : Rule (List Arg) := do
  discard <| expect .parenOpen
  match ← eat .parenClose with
  | some _ => return []
  | none =>
    let args ← commaList arg
    discard <| expect .parenClose
    return args

/-- What a call calls: a name, or names joined by dots (`parse_call_target`). -/
def target : Rule Target := do
  let first ← ident
  if ← atKind .dot then
    let rest ← eachAfter .dot ident
    return .path ⟨first :: rest, ← spanFrom first.span⟩
  else
    return .name first

/-- The arguments of a call and the semicolon behind it, once its target is read (`finish_call`). -/
def callTail (target : Target) (start : Span) : Rule Command := do
  let args ← callArgs
  let span ← spanFrom start
  discard <| expect .semicolon
  return .call ⟨target, args, span⟩

/-- A command with its semicolon (`parse_command_stmt`). -/
def command : Rule Command := do
  let t ← peek
  match t.kind with
  | .builtin =>
    match Builtin.ofName? t.text with
    | some builtin =>
      discard advance
      let args ← callArgs
      let span ← spanFrom t.span
      discard <| expect .semicolon
      return .builtin ⟨builtin, args, span⟩
    | none => fail [.item "command"]
  | .ident => callTail (← target) t.span
  | _ => fail [.item "command"]

end Gxl.Rule
