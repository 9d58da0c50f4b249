import Gxl.Grammar.Command

/-!
# The grammar of the members of a module

A word followed by an equals sign is a property, even a word that opens another construct.  Any
other member starts with one of `memberWords`, and annotations may stand before it.

Reference: `src/crates/core/src/parser/module.rs` (`MODULE_ITEM_KEYWORDS`, `parse_module_item`,
`parse_annotated_item`, `parse_property`, `parse_environment`, `parse_env_item`, `is_gx_vars`,
`parse_activity`), `src/crates/core/src/parser/command.rs` (`parse_gx_vars_block`) and
`src/crates/core/src/parser/flow.rs` (`parse_flow`, `parse_flow_definition`, `parse_flow_item`,
`parse_flow_reference`, `parse_function`, `parse_function_param`).
-/

namespace Gxl.Rule

/-! ## Properties -/

/-- The value of a property: a string or a number (part of `parse_property`). -/
def literal : Rule Literal := do
  match (← peek).kind with
  | .str => return .string (← string)
  | .number =>
    let t ← advance
    return .number ⟨t.text, t.span⟩
  | _ => fail [.token .str, .token .number]

/-- A property `key = value;`. -/
def property : Rule Property := do
  let key ← ident
  discard <| expect .equals
  let value ← literal
  discard <| expect .semicolon
  return ⟨key, value, ← spanFrom key.span⟩

/-! ## Environments -/

/-- The block of variables that starts at a place, once its name is read (`parse_gx_vars_block`). -/
def varsBlock (start : Span) : Rule VarsBlock := do
  discard <| expect .braceOpen
  let args ← do if ← atKind .braceClose then pure [] else commaList arg
  discard <| expect .braceClose
  return ⟨args, ← closing start⟩

/-- A call or a block of variables.  `gx.vars` opens a block when a brace follows. -/
def callOrVars (start : Span) : Rule Environment.Entry := do
  let target ← target
  if target.segments == ["gx", "vars"] then
    if ← atKind .braceOpen then
      return .vars (← varsBlock start)
    else
      return .command (← callTail target start)
  else
    return .command (← callTail target start)

/-- An entry of an environment: a property, a command, or a block of variables
(`parse_env_item`). -/
def environmentEntry : Rule Environment.Entry := do
  let t ← peek
  match t.kind with
  | .builtin => return .command (← command)
  | .ident =>
    match (← peekSecond).kind with
    | .equals => return .property (← property)
    | .parenOpen | .dot => callOrVars t.span
    | _ =>
      discard advance
      fail [.token .equals, .token .parenOpen, .token .dot]
  | _ =>
    fail [.item "property", .item "command", .item "gx.vars block", .token .braceClose]

/-- An environment `env name : refs { … }`. -/
def environment (annots : List Annot) (start : Span) : Rule Environment := do
  discard <| expectWord "env"
  let name ← ident
  let refs ← refsAfter .colon
  let entries ← block environmentEntry
  return ⟨annots, name, refs, entries, ← closing start⟩

/-! ## Flows -/

/-- An entry of a flow: a command or a property (`parse_flow_item`). -/
def flowEntry : Rule Flow.Entry := do
  match (← peek).kind with
  | .builtin => return .command (← command)
  | .ident =>
    if (← peekSecond).kind == .equals then
      return .property (← property)
    else
      return .command (← command)
  | _ => fail [.item "property", .item "command", .token .braceClose]

/-- A flow, once the names before it are read (`parse_flow_definition`). -/
def flowFrom (annots : List Annot) (before : Option RefList) (start : Span) : Rule Flow := do
  discard <| expect .atSign
  let name ← ident
  let after ← refsAfter .pipe
  let entries ← block flowEntry
  return ⟨annots, before, name, after, entries, ← closing start⟩

/-- A name for other flows, once its keyword is read (`parse_flow_reference`). -/
def flowAlias (annots : List Annot) (start : Span) : Rule FlowAlias := do
  let name ← ident
  discard <| expect .colon
  let targets ← refList
  discard <| expect .semicolon
  return ⟨annots, name, targets, ← spanFrom start⟩

/-- A flow or a name for other flows (`parse_flow`).  The token after the first name tells which. -/
def flow (annots : List Annot) (start : Span) : Rule Member := do
  discard <| expectWord "flow"
  match (← peek).kind with
  | .atSign => return .flow (← flowFrom annots none start)
  | .ident =>
    match (← peekSecond).kind with
    | .colon => return .flowAlias (← flowAlias annots start)
    | .comma | .pipe =>
      let before ← refList
      discard <| expect .pipe
      return .flow (← flowFrom annots (some before) start)
    | _ =>
      discard advance
      fail [.token .colon, .token .comma, .token .pipe]
  | _ => fail [.token .atSign, .token .ident]

/-! ## Functions -/

/-- A parameter of a function (`parse_function_param`). -/
def param : Rule Param := do
  let start := (← peek).span
  let variadic := (← eat .star).isSome
  let name ← ident
  let fallback ← do
    match ← eat .equals with
    | some _ => pure (some (← string))
    | none => pure none
  return ⟨variadic, name, fallback, ← spanFrom start⟩

/-- The parameters of a function between parentheses (part of `parse_function`). -/
def params : Rule (List Param) := do
  discard <| expect .parenOpen
  let params ← do if ← atKind .parenClose then pure [] else commaList param
  discard <| expect .parenClose
  return params

/-- A command in the body of a function (part of `parse_function`). -/
def fnEntry : Rule Command := do
  match (← peek).kind with
  | .builtin | .ident => command
  | _ => fail [.item "command", .token .braceClose]

/-- A function `fn name(params) { … }`. -/
def fn (annots : List Annot) (start : Span) : Rule Fn := do
  discard <| expectWord "fn"
  let name ← ident
  let params ← params
  let body ← block fnEntry
  return ⟨annots, name, params, body, ← closing start⟩

/-! ## Activities -/

/-- A property in an activity (part of `parse_activity`). -/
def activityEntry : Rule Property := do
  if ← atKind .ident then property else fail [.item "property", .token .braceClose]

/-- An activity `activity name { … }`. -/
def activity (annots : List Annot) (start : Span) : Rule Activity := do
  discard <| expectWord "activity"
  let name ← ident
  let props ← block activityEntry
  return ⟨annots, name, props, ← closing start⟩

/-! ## Members -/

/-- The words that open a member, annotations aside (`MODULE_ITEM_KEYWORDS`). -/
def memberWords : List String :=
  ["env", "flow", "fn", "activity"]

/-- Whether a token opens a member, being one of `memberWords`. -/
def opensMember (t : Token) : Bool :=
  t.kind == .ident && memberWords.contains t.text

/-- The member that one of `memberWords`, the next token, opens. -/
def memberAfter (annots : List Annot) (start : Span) : Rule Member := do
  if ← atWord "env" then
    return .environment (← environment annots start)
  else if ← atWord "flow" then
    flow annots start
  else if ← atWord "fn" then
    return .fn (← fn annots start)
  else
    return .activity (← activity annots start)

/-- A member of a module (`parse_module_item`). -/
def member : Rule Member := do
  let t ← peek
  match t.kind with
  | .ident =>
    if (← peekSecond).kind == .equals then
      return .property (← property)
    else if opensMember t then
      memberAfter [] t.span
    else
      fail memberStart
  | .annotOpen =>
    let annots ← annots
    if opensMember (← peek) then
      memberAfter annots t.span
    else
      fail (memberWords.map .keyword ++ [.token .annotOpen])
  | _ => fail memberStart
where
  /-- What may stand where a member may. -/
  memberStart : List Expected :=
    .item "property" :: memberWords.map .keyword ++ [.token .annotOpen, .token .braceClose]

end Gxl.Rule
