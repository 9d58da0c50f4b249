import Gxl.Document
import Gxl.Json

/-!
# Outlines

An outline lists what a document holds: the name of each construct and the stretch of the source
text it was read from.

Reference: the accessors of `src/crates/core/src/ast.rs` (`SourceFile::modules`,
`SourceFile::extern_modules`, `RefList::names`, `CommandStmt::props`, `CommandStmt::span`,
`CallTarget::segments`).
-/

namespace Gxl

/-- The stretch of a source text that a span covers (`Span::text`). -/
def Span.outline (source : String) (s : Span) : Json :=
  .ofOption .string (s.text? source)

/-- The names of a list, and its text (`RefList::names`). -/
def RefList.outline (source : String) (r : RefList) : Json :=
  .array [.ofList (fun i => .string i.name) r.names, r.span.outline source]

/-- A command: whether it is builtin, what it calls, the keys of its arguments, and its text
(`CommandStmt::props` and `CallTarget::segments`). -/
def Command.outline (source : String) (c : Command) : Json :=
  .object
    (callee ++ [("keys", .ofList (fun a => .string a.key.name) c.args),
      ("text", c.span.outline source)])
where
  /-- What the command calls. -/
  callee : List (String × Json) :=
    match c with
    | .builtin b =>
      [("builtin", .bool true), ("callee", .string b.builtin.name), ("segments", .null)]
    | .call b =>
      [("builtin", .bool false), ("callee", .string b.target.display),
       ("segments", .ofList .string b.target.segments)]

/-- An entry of an environment: a property, a `Command.outline`, or a block of variables. -/
def Environment.Entry.outline (source : String) : Environment.Entry → Json
  | .property p => p.span.outline source
  | .command c => c.outline source
  | .vars b =>
    .object
      [("vars", .ofList (fun a => a.span.outline source) b.args), ("text", b.span.outline source)]

/-- An entry of a flow: a property or a `Command.outline`. -/
def Flow.Entry.outline (source : String) : Flow.Entry → Json
  | .command c => c.outline source
  | .property p => p.span.outline source

/-- A member of a module: its construct, its name, its text, and what it holds. -/
def Member.outline (source : String) : Member → Json
  | .property p =>
    .array [.string "property", .string p.key.name, p.span.outline source]
  | .environment e =>
    .array
      [.string "environment", .string e.name.name, e.span.outline source,
       .ofOption (RefList.outline source) e.refs,
       .ofList (Environment.Entry.outline source) e.entries]
  | .flow f =>
    .array
      [.string "flow", .string f.name.name, f.span.outline source,
       .ofOption (RefList.outline source) f.before, .ofOption (RefList.outline source) f.after,
       .ofList (Flow.Entry.outline source) f.entries]
  | .flowAlias f =>
    .array
      [.string "flow_ref", .string f.name.name, f.span.outline source,
       .ofList (fun i => .string i.name) f.targets.names]
  | .fn f =>
    .array
      [.string "function", .string f.name.name, f.span.outline source,
       .ofList (fun p => p.span.outline source) f.params, .ofList (Command.outline source) f.body]
  | .activity a =>
    .array
      [.string "activity", .string a.name.name, a.span.outline source,
       .ofList (fun p => p.span.outline source) a.props]

/-- A module: its name, what it inherits from, and the outline of each `Member`. -/
def Module.outline (source : String) (m : Module) : Json :=
  .object
    [("name", .string m.name.name), ("refs", .ofOption (RefList.outline source) m.refs),
     ("annotations", .ofList (fun a => a.span.outline source) m.annots),
     ("text", m.span.outline source), ("items", .ofList (Member.outline source) m.members)]

/-- A declaration of external modules: its names and its `Origin`. -/
def External.outline (source : String) (e : External) : Json :=
  .array
    [.ofList (fun i => .string i.name) e.names, e.span.outline source,
     e.origin.span.outline source]

/-- The outline of a document that was read from a source text (`SourceFile::modules` and
`SourceFile::extern_modules`). -/
def Document.outline (source : String) (d : Document) : Json :=
  .object
    [("modules", .ofList (Module.outline source) d.modules),
     ("externs", .ofList (External.outline source) d.externals)]

end Gxl
