import Gxl.Builtin
import Gxl.Position

/-!
# Documents

The tree of a source text.  A document is a list of modules and of declarations of external
modules; a module holds properties, environments, flows, functions and activities; these hold
properties and commands.  Every node keeps the span it was read from, and literals keep their text
as written, escapes included.

Nothing nests inside itself, so the tree has a fixed depth.

Reference: `src/crates/core/src/ast.rs`.  `Document` is `SourceFile`, `Item` is `TopLevelItem`,
`External` and `Origin` are `ExternModule` and `ModuleSource`, `Member` is `ModuleItem`, `Literal`
is `Value`, `Arg` is `CommandProp`, `FlowAlias` is `FlowReference`, and `Target` is `CallTarget`;
the other names are shortened.
-/

namespace Gxl

/-! ## Leaves -/

/-- A name (`Ident`). -/
structure Ident where
  name : String
  span : Span
  deriving DecidableEq, Inhabited

/-- A string literal: the text between its quotes, escapes as written (`StrLit`). -/
structure StrLit where
  raw : String
  span : Span
  deriving DecidableEq, Inhabited

/-- A number literal, as written (`NumLit`). -/
structure NumLit where
  text : String
  span : Span
  deriving DecidableEq, Inhabited

/-- Names in a row, separated by commas (`RefList`). -/
structure RefList where
  names : List Ident
  span : Span
  deriving DecidableEq, Inhabited

/-! ## Annotations -/

/-- An argument of an annotation (`AnnotationArg`). -/
inductive Annot.Arg where
  /-- A string under a name. -/
  | keyed (key : Ident) (value : StrLit)
  /-- A string on its own. -/
  | bare (value : StrLit)
  deriving DecidableEq, Inhabited

/-- An annotation `#[name]` or `#[name(arg, …)]`. -/
structure Annot where
  name : Ident
  args : List Annot.Arg
  span : Span
  deriving DecidableEq, Inhabited

/-! ## Properties and commands -/

/-- The value of a property (`Value`). -/
inductive Literal where
  | string (value : StrLit)
  | number (value : NumLit)
  deriving DecidableEq, Inhabited

/-- A property `key = value;`. -/
structure Property where
  key : Ident
  value : Literal
  span : Span
  deriving DecidableEq, Inhabited

/-- The value of an argument: a string, or the variable of a name (`PropValue`). -/
inductive Arg.Value where
  | string (value : StrLit)
  | variable (name : Ident)
  deriving DecidableEq, Inhabited

/-- An argument `key: value` of a command or of a block of variables. -/
structure Arg where
  key : Ident
  value : Arg.Value
  span : Span
  deriving DecidableEq, Inhabited

/-- Names joined by dots (`DottedName`). -/
structure Path where
  segments : List Ident
  span : Span
  deriving DecidableEq, Inhabited

/-- What a call calls: a single name, or a path of two names or more (`CallTarget`). -/
inductive Target where
  | name (name : Ident)
  | path (path : Path)
  deriving DecidableEq, Inhabited

/-- The names of a target, in order (`CallTarget::segments`). -/
def Target.segments : Target → List String
  | .name id => [id.name]
  | .path p => p.segments.map Ident.name

/-- A target as it reads: its names joined by dots (the display of `CallTarget`). -/
def Target.display (t : Target) : String :=
  ".".intercalate t.segments

/-- A call of a builtin command (`BuiltinCommand`). -/
structure BuiltinCall where
  builtin : Builtin
  args : List Arg
  span : Span
  deriving DecidableEq, Inhabited

/-- A call of anything else (`CallExpression`). -/
structure Call where
  target : Target
  args : List Arg
  span : Span
  deriving DecidableEq, Inhabited

/-- A command (`CommandStmt`).  The semicolon behind it is not part of it. -/
inductive Command where
  | builtin (call : BuiltinCall)
  | call (call : Call)
  deriving DecidableEq, Inhabited

namespace Command

/-- The arguments of a command (`CommandStmt::props`). -/
def args : Command → List Arg
  | .builtin c => c.args
  | .call c => c.args

/-- The span of a command (`CommandStmt::span`). -/
def span : Command → Span
  | .builtin c => c.span
  | .call c => c.span

end Command

/-! ## The members of a module -/

/-- A block of variables `gx.vars { key: value, … }`. -/
structure VarsBlock where
  args : List Arg
  span : Span
  deriving DecidableEq, Inhabited

/-- What an environment holds (`EnvItem`). -/
inductive Environment.Entry where
  | property (property : Property)
  | command (command : Command)
  | vars (block : VarsBlock)
  deriving DecidableEq, Inhabited

/-- An environment `env name : refs { … }`. -/
structure Environment where
  annots : List Annot
  name : Ident
  refs : Option RefList
  entries : List Environment.Entry
  span : Span
  deriving DecidableEq, Inhabited

/-- What a flow holds (`FlowItem`). -/
inductive Flow.Entry where
  | command (command : Command)
  | property (property : Property)
  deriving DecidableEq, Inhabited

/-- A flow `flow before | @name | after { … }`. -/
structure Flow where
  annots : List Annot
  before : Option RefList
  name : Ident
  after : Option RefList
  entries : List Flow.Entry
  span : Span
  deriving DecidableEq, Inhabited

/-- A name for other flows `flow name : targets;`. -/
structure FlowAlias where
  annots : List Annot
  name : Ident
  targets : RefList
  span : Span
  deriving DecidableEq, Inhabited

/-- A parameter of a function, `*name` when it takes any number of values, `name = "…"` when it
has a default. -/
structure Param where
  variadic : Bool
  name : Ident
  fallback : Option StrLit
  span : Span
  deriving DecidableEq, Inhabited

/-- A function `fn name(params) { … }`. -/
structure Fn where
  annots : List Annot
  name : Ident
  params : List Param
  body : List Command
  span : Span
  deriving DecidableEq, Inhabited

/-- An activity `activity name { … }`. -/
structure Activity where
  annots : List Annot
  name : Ident
  props : List Property
  span : Span
  deriving DecidableEq, Inhabited

/-- A member of a module (`ModuleItem`). -/
inductive Member where
  | property (property : Property)
  | environment (environment : Environment)
  | flow (flow : Flow)
  | flowAlias (flow : FlowAlias)
  | fn (fn : Fn)
  | activity (activity : Activity)
  deriving DecidableEq, Inhabited

/-! ## Modules and documents -/

/-- A module `mod name : refs { … }`. -/
structure Module where
  annots : List Annot
  name : Ident
  refs : Option RefList
  members : List Member
  span : Span
  deriving DecidableEq, Inhabited

/-- Where external modules come from (`ModuleSource`, with `PathSource` and `GitSource`). -/
inductive Origin where
  /-- A directory. -/
  | path (path : StrLit) (span : Span)
  /-- A branch of a repository. -/
  | git (url channel : StrLit) (span : Span)
  deriving DecidableEq, Inhabited

/-- The span of an origin, whichever constructor of `Origin` it is. -/
def Origin.span : Origin → Span
  | .path _ span => span
  | .git _ _ span => span

/-- Modules that live elsewhere, `extern mod names { … }`. -/
structure External where
  names : List Ident
  origin : Origin
  span : Span
  deriving DecidableEq, Inhabited

/-- An item of a document (`TopLevelItem`). -/
inductive Item where
  | module (module : Module)
  | external (external : External)
  deriving DecidableEq, Inhabited

/-- The tree of a source text (`SourceFile`). -/
structure Document where
  items : List Item
  span : Span
  deriving DecidableEq, Inhabited

namespace Document

/-- The modules of a document, in order (`SourceFile::modules`). -/
def modules (d : Document) : List Module :=
  d.items.filterMap fun
    | .module m => some m
    | .external _ => none

/-- The declarations of external modules of a document, in order (`SourceFile::extern_modules`). -/
def externals (d : Document) : List External :=
  d.items.filterMap fun
    | .module _ => none
    | .external e => some e

end Document

end Gxl
