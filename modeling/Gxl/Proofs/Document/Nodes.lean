import Gxl.Document

/-!
# The nodes of a tree

Every piece of a tree that keeps a span is a node.  A forest lists nodes that stand side by side,
in the order in which they are read, together with all nodes below them; each node is listed with
the spans of the nodes directly below it, and a leaf with the text that it stands for.

The forest of a piece of tree follows its fields, annotations first.  A piece without a span of its
own, such as an argument of an annotation with a name, is the nodes that it is made of.
-/

namespace Gxl

/-- A node: its span, the spans of the nodes directly below it, in order, and the text of a leaf. -/
structure Node where
  span : Span
  parts : List Span
  text : Option String
  deriving DecidableEq

/-- Nodes side by side: the `roots` among them, and all of them with those below. -/
structure Forest where
  /-- The spans of the nodes that stand side by side. -/
  roots : List Span
  /-- These nodes and all nodes below them. -/
  nodes : List Node
  deriving DecidableEq

namespace Forest

instance : EmptyCollection Forest := ⟨⟨[], []⟩⟩

/-- One forest and then another. -/
instance : Append Forest := ⟨fun f g => ⟨f.roots ++ g.roots, f.nodes ++ g.nodes⟩⟩

theorem append_empty (f : Forest) : f ++ ∅ = f := by
  show Forest.mk (f.roots ++ []) (f.nodes ++ []) = f
  rw [List.append_nil, List.append_nil]

/-- A single node over the forest `below`. -/
def node (span : Span) (below : Forest) : Forest :=
  ⟨[span], ⟨span, below.roots, none⟩ :: below.nodes⟩

/-- A leaf with the span `span` that stands for `text`. -/
def leaf (span : Span) (text : String) : Forest :=
  ⟨[span], [⟨span, [], some text⟩]⟩

variable {α : Type}

/-- The forests of the pieces of a list, one behind the other, by `++` of forests. -/
def ofList (forest : α → Forest) : List α → Forest
  | [] => ∅
  | a :: as => forest a ++ ofList forest as

/-- The forest of a piece of tree that may be missing, `∅` if it is. -/
def ofOption (forest : α → Forest) : Option α → Forest
  | none => ∅
  | some a => forest a

end Forest

/-! ## Leaves -/

def Ident.forest (i : Ident) : Forest :=
  .leaf i.span i.name

/-- A string literal stands for its `raw` text between two quotes. -/
def StrLit.forest (s : StrLit) : Forest :=
  .leaf s.span ("\"" ++ s.raw ++ "\"")

def NumLit.forest (n : NumLit) : Forest :=
  .leaf n.span n.text

def RefList.forest (r : RefList) : Forest :=
  .node r.span (.ofList Ident.forest r.names)

/-! ## Annotations, properties and commands -/

def Annot.Arg.forest : Annot.Arg → Forest
  | .keyed key value => key.forest ++ value.forest
  | .bare value => value.forest

def Annot.forest (a : Annot) : Forest :=
  .node a.span (a.name.forest ++ .ofList Annot.Arg.forest a.args)

def Literal.forest : Literal → Forest
  | .string value => value.forest
  | .number value => value.forest

def Property.forest (p : Property) : Forest :=
  .node p.span (p.key.forest ++ p.value.forest)

def Arg.Value.forest : Arg.Value → Forest
  | .string value => value.forest
  | .variable name => name.forest

def Arg.forest (a : Arg) : Forest :=
  .node a.span (a.key.forest ++ a.value.forest)

def Target.forest : Target → Forest
  | .name id => id.forest
  | .path p => .node p.span (.ofList Ident.forest p.segments)

/-- A command with what it calls and its arguments.  The name of a builtin command is no node, as
`BuiltinCall` keeps no span of it. -/
def Command.forest : Command → Forest
  | .builtin c => .node c.span (.ofList Arg.forest c.args)
  | .call c => .node c.span (c.target.forest ++ .ofList Arg.forest c.args)

/-! ## The members of a module -/

def VarsBlock.forest (b : VarsBlock) : Forest :=
  .node b.span (.ofList Arg.forest b.args)

def Environment.Entry.forest : Environment.Entry → Forest
  | .property p => p.forest
  | .command c => c.forest
  | .vars b => b.forest

def Environment.forest (e : Environment) : Forest :=
  .node e.span (.ofList Annot.forest e.annots ++ e.name.forest ++
    .ofOption RefList.forest e.refs ++ .ofList Environment.Entry.forest e.entries)

def Flow.Entry.forest : Flow.Entry → Forest
  | .command c => c.forest
  | .property p => p.forest

def Flow.forest (x : Flow) : Forest :=
  .node x.span (.ofList Annot.forest x.annots ++ .ofOption RefList.forest x.before ++
    x.name.forest ++ .ofOption RefList.forest x.after ++ .ofList Flow.Entry.forest x.entries)

def FlowAlias.forest (x : FlowAlias) : Forest :=
  .node x.span (.ofList Annot.forest x.annots ++ x.name.forest ++ x.targets.forest)

def Param.forest (p : Param) : Forest :=
  .node p.span (p.name.forest ++ .ofOption StrLit.forest p.fallback)

def Fn.forest (x : Fn) : Forest :=
  .node x.span (.ofList Annot.forest x.annots ++ x.name.forest ++ .ofList Param.forest x.params ++
    .ofList Command.forest x.body)

def Activity.forest (a : Activity) : Forest :=
  .node a.span (.ofList Annot.forest a.annots ++ a.name.forest ++
    .ofList Property.forest a.props)

def Member.forest : Member → Forest
  | .property p => p.forest
  | .environment e => e.forest
  | .flow x => x.forest
  | .flowAlias x => x.forest
  | .fn x => x.forest
  | .activity a => a.forest

/-! ## Modules and documents -/

def Module.forest (m : Module) : Forest :=
  .node m.span (.ofList Annot.forest m.annots ++ m.name.forest ++
    .ofOption RefList.forest m.refs ++ .ofList Member.forest m.members)

def Origin.forest : Origin → Forest
  | .path place span => .node span place.forest
  | .git url channel span => .node span (url.forest ++ channel.forest)

def External.forest (e : External) : Forest :=
  .node e.span (.ofList Ident.forest e.names ++ e.origin.forest)

def Item.forest : Item → Forest
  | .module m => m.forest
  | .external e => e.forest

/-- The span of a `Member` of a module. -/
def Member.span : Member → Span
  | .property p => p.span
  | .environment e => e.span
  | .flow x => x.span
  | .flowAlias x => x.span
  | .fn x => x.span
  | .activity a => a.span

/-- The span of an `Item` of a document. -/
def Item.span : Item → Span
  | .module m => m.span
  | .external e => e.span

/-- The nodes of a document but for its `root`. -/
def Document.below (d : Document) : Forest :=
  .ofList Item.forest d.items

/-- The root of a document, over the `roots` of the forest below. -/
def Document.root (d : Document) : Node :=
  ⟨d.span, d.below.roots, none⟩

/-! ## Calls of builtin commands -/

/-- The calls of builtin commands within a command: one or none. -/
def Command.builtinCalls : Command → List BuiltinCall
  | .builtin c => [c]
  | .call _ => []

def Environment.Entry.builtinCalls : Environment.Entry → List BuiltinCall
  | .command c => c.builtinCalls
  | .property _ | .vars _ => []

def Flow.Entry.builtinCalls : Flow.Entry → List BuiltinCall
  | .command c => c.builtinCalls
  | .property _ => []

def Member.builtinCalls : Member → List BuiltinCall
  | .environment e => e.entries.flatMap Environment.Entry.builtinCalls
  | .flow x => x.entries.flatMap Flow.Entry.builtinCalls
  | .fn x => x.body.flatMap Command.builtinCalls
  | .property _ | .flowAlias _ | .activity _ => []

def Item.builtinCalls : Item → List BuiltinCall
  | .module m => m.members.flatMap Member.builtinCalls
  | .external _ => []

end Gxl
