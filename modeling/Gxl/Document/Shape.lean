import Gxl.Document
import Gxl.Json.Text

/-!
# Trees as JSON

`Document.toJson` is the full tree with every span.  Each choice between constructs is told by a
field `type` before the fields of the construct.  An entry that holds a command has two such fields,
one for the entry and one for the command; read back, the second counts.

`Document.shape` is the tree as it is read back, without spans.  Two documents are the same tree
when their shapes agree, that is when they differ at most in where things stand.

Reference: the derived serialization of `src/crates/core/src/ast.rs`, and
`src/crates/core/src/testing.rs` (`shape`, `same_tree`, `assert_same_tree`).
-/

namespace Gxl

/-- A span as JSON, one field for each field of `Span`. -/
def Span.toJson (s : Span) : Json :=
  .object [("start", .nat s.start), ("end", .nat s.stop), ("line", .nat s.line),
    ("column", .nat s.column)]

/-- A construct as JSON: its fields, then the field `span`. -/
def Json.node (fields : List (String × Json)) (span : Span) : Json :=
  .object (fields ++ [("span", span.toJson)])

/-- A field `type` that tells which construct a value is, before the fields of that value. -/
def Json.tagged (type : String) : Json → Json
  | .object fields => .object (("type", .string type) :: fields)
  | v => v

/-- A name as JSON, with the field `name`. -/
def Ident.toJson (i : Ident) : Json :=
  .node [("name", .string i.name)] i.span

/-- A string literal as JSON, with the field `raw`. -/
def StrLit.toJson (s : StrLit) : Json :=
  .node [("raw", .string s.raw)] s.span

/-- A number literal as JSON, with the field `text`. -/
def NumLit.toJson (n : NumLit) : Json :=
  .node [("text", .string n.text)] n.span

/-- Names in a row as JSON, with the field `names`. -/
def RefList.toJson (r : RefList) : Json :=
  .node [("names", .ofList Ident.toJson r.names)] r.span

/-- An argument of an annotation as JSON, tagged `key_value` or `bare`. -/
def Annot.Arg.toJson : Annot.Arg → Json
  | .keyed key value => .tagged "key_value" (.object [("key", key.toJson), ("value", value.toJson)])
  | .bare value => .tagged "bare" value.toJson

/-- An annotation as JSON, with the fields `name` and `args`. -/
def Annot.toJson (a : Annot) : Json :=
  .node [("name", a.name.toJson), ("args", .ofList Annot.Arg.toJson a.args)] a.span

/-- The value of a property as JSON, tagged `string` or `number`. -/
def Literal.toJson : Literal → Json
  | .string value => .tagged "string" value.toJson
  | .number value => .tagged "number" value.toJson

/-- A property as JSON, with the fields `key` and `value`. -/
def Property.toJson (p : Property) : Json :=
  .node [("key", p.key.toJson), ("value", p.value.toJson)] p.span

/-- The value of an argument as JSON, tagged `string` or `var`. -/
def Arg.Value.toJson : Arg.Value → Json
  | .string value => .tagged "string" value.toJson
  | .variable name => .tagged "var" name.toJson

/-- An argument as JSON, with the fields `key` and `value`. -/
def Arg.toJson (a : Arg) : Json :=
  .node [("key", a.key.toJson), ("value", a.value.toJson)] a.span

/-- What a call calls, as JSON, tagged `name` or `dotted`. -/
def Target.toJson : Target → Json
  | .name id => .tagged "name" id.toJson
  | .path p => .tagged "dotted" (.node [("segments", .ofList Ident.toJson p.segments)] p.span)

/-- A command as JSON, tagged as the constructor of `Command`. -/
def Command.toJson : Command → Json
  | .builtin c =>
    .tagged "builtin"
      (.node [("name", .string c.builtin.name), ("props", .ofList Arg.toJson c.args)] c.span)
  | .call c =>
    .tagged "call"
      (.node [("target", c.target.toJson), ("props", .ofList Arg.toJson c.args)] c.span)

/-- An entry of an environment as JSON.  A command keeps its own `type` behind that of the entry. -/
def Environment.Entry.toJson : Environment.Entry → Json
  | .property p => .tagged "property" p.toJson
  | .command c => .tagged "command" c.toJson
  | .vars b => .tagged "vars" (.node [("props", .ofList Arg.toJson b.args)] b.span)

/-- An environment as JSON, one field for each field of `Environment`. -/
def Environment.toJson (e : Environment) : Json :=
  .node
    [("annotations", .ofList Annot.toJson e.annots), ("name", e.name.toJson),
     ("refs", .ofOption RefList.toJson e.refs),
     ("items", .ofList Environment.Entry.toJson e.entries)] e.span

/-- An entry of a flow as JSON.  A command keeps its own `type` behind that of the entry. -/
def Flow.Entry.toJson : Flow.Entry → Json
  | .command c => .tagged "command" c.toJson
  | .property p => .tagged "property" p.toJson

/-- A flow as JSON, one field for each field of `Flow`. -/
def Flow.toJson (f : Flow) : Json :=
  .node
    [("annotations", .ofList Annot.toJson f.annots), ("before", .ofOption RefList.toJson f.before),
     ("name", f.name.toJson), ("after", .ofOption RefList.toJson f.after),
     ("items", .ofList Flow.Entry.toJson f.entries)] f.span

/-- A name for other flows as JSON, one field for each field of `FlowAlias`. -/
def FlowAlias.toJson (f : FlowAlias) : Json :=
  .node
    [("annotations", .ofList Annot.toJson f.annots), ("name", f.name.toJson),
     ("targets", f.targets.toJson)] f.span

/-- A parameter as JSON, one field for each field of `Param`. -/
def Param.toJson (p : Param) : Json :=
  .node
    [("variadic", .bool p.variadic), ("name", p.name.toJson),
     ("default", .ofOption StrLit.toJson p.fallback)] p.span

/-- A function as JSON, one field for each field of `Fn`. -/
def Fn.toJson (f : Fn) : Json :=
  .node
    [("annotations", .ofList Annot.toJson f.annots), ("name", f.name.toJson),
     ("params", .ofList Param.toJson f.params), ("body", .ofList Command.toJson f.body)] f.span

/-- An activity as JSON, one field for each field of `Activity`. -/
def Activity.toJson (a : Activity) : Json :=
  .node
    [("annotations", .ofList Annot.toJson a.annots), ("name", a.name.toJson),
     ("props", .ofList Property.toJson a.props)] a.span

/-- A member of a module as JSON, with a tag for each constructor of `Member`. -/
def Member.toJson : Member → Json
  | .property p => .tagged "property" p.toJson
  | .environment e => .tagged "environment" e.toJson
  | .flow f => .tagged "flow" f.toJson
  | .flowAlias f => .tagged "flow_ref" f.toJson
  | .fn f => .tagged "function" f.toJson
  | .activity a => .tagged "activity" a.toJson

/-- A module as JSON, one field for each field of `Module`. -/
def Module.toJson (m : Module) : Json :=
  .node
    [("annotations", .ofList Annot.toJson m.annots), ("name", m.name.toJson),
     ("refs", .ofOption RefList.toJson m.refs), ("items", .ofList Member.toJson m.members)] m.span

/-- Where external modules come from, as JSON, tagged `path` or `git`. -/
def Origin.toJson : Origin → Json
  | .path place span => .tagged "path" (.node [("path", place.toJson)] span)
  | .git url channel span =>
    .tagged "git" (.node [("url", url.toJson), ("channel", channel.toJson)] span)

/-- A declaration of external modules as JSON, one field for each field of `External`. -/
def External.toJson (e : External) : Json :=
  .node [("names", .ofList Ident.toJson e.names), ("source", e.origin.toJson)] e.span

/-- An item of a document as JSON, tagged `module` or `extern`. -/
def Item.toJson : Item → Json
  | .module m => .tagged "module" m.toJson
  | .external e => .tagged "extern" e.toJson

namespace Document

/-- The tree with every span, as `SourceFile` is serialized. -/
def toJson (d : Document) : Json :=
  .node [("items", .ofList Item.toJson d.items)] d.span

/-- The tree as it is read back, without spans (`shape`, which takes the spans out by
`strip_spans`). -/
def shape (d : Document) : Json :=
  d.toJson.canonical.stripSpans

/-- Whether two documents have the same shape (`same_tree`). -/
def sameTree (a b : Document) : Bool :=
  a.shape == b.shape

/-- The report of a difference between two trees, if there is one (the panic of
`assert_same_tree`). -/
def difference? (a b : Document) : Option String :=
  if sameTree a b then
    none
  else
    some ("trees differ\n--- left ---\n" ++ a.shape.pretty ++ "\n--- right ---\n" ++ b.shape.pretty)

end Document

end Gxl
