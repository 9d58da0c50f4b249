import Gxl.Document

/-!
# Canonical layout

`Document.print` writes a tree as a source text of canonical form: one construct, property or
command a line, bodies one level deeper, a semicolon behind every closing brace, and an empty line
between items.  Comments are not part of a tree and are not written.

Lines are laid out first, each with its depth, and indented last; so a construct is laid out the
same way wherever it stands.

Reference: `src/crates/core/src/printer.rs` (`print` and the methods of `Printer`; `call_target`,
`string`, `idents`, `inherits`, `props`).
-/

namespace Gxl

/-- A line of a layout: how deep it stands (the `depth` of a `Printer`), and its text. -/
structure Line where
  depth : Nat
  text : String
  deriving DecidableEq, Inhabited

namespace Line

/-- A line on its own, at depth `0`. -/
def of (text : String) : Line :=
  ⟨0, text⟩

/-- A line one level deeper, as `Printer::open` makes those that follow. -/
def deeper (l : Line) : Line :=
  ⟨l.depth + 1, l.text⟩

/-- A header, its body one level deeper between braces, and the closing semicolon (`Printer::open`
and `Printer::close`). -/
def block (header : String) (body : List Line) : List Line :=
  .of (header ++ " \x7b") :: body.map deeper ++ [.of "\x7d;"]

/-- A line with its indentation and its ending (`Printer::line`). -/
def render (indent : Nat) (l : Line) : String :=
  String.ofList (List.replicate (l.depth * indent) ' ') ++ l.text ++ "\n"

end Line

/-! ## Parts of lines -/

/-- Parts separated by commas. -/
def commas (parts : List String) : String :=
  ", ".intercalate parts

/-- Names separated by commas (`idents`). -/
def Ident.commas (names : List Ident) : String :=
  Gxl.commas (names.map Ident.name)

/-- A string literal with its quotes (`string`). -/
def StrLit.text (s : StrLit) : String :=
  "\"" ++ s.raw ++ "\""

/-- An argument of an annotation (part of `Printer::annotations`). -/
def Annot.Arg.text : Annot.Arg → String
  | .keyed key value => key.name ++ " = " ++ value.text
  | .bare value => value.text

/-- An annotation (part of `Printer::annotations`). -/
def Annot.text (a : Annot) : String :=
  if a.args.isEmpty then "#[" ++ a.name.name ++ "]"
  else "#[" ++ a.name.name ++ "(" ++ commas (a.args.map Annot.Arg.text) ++ ")]"

/-- A value of a property (part of `Printer::property`). -/
def Literal.text : Literal → String
  | .string value => value.text
  | .number value => value.text

/-- A property with its semicolon (`Printer::property`). -/
def Property.text (p : Property) : String :=
  p.key.name ++ " = " ++ p.value.text ++ ";"

/-- A value of an argument (part of `props`). -/
def Arg.Value.text : Arg.Value → String
  | .string value => value.text
  | .variable id => id.name

/-- An argument (part of `props`). -/
def Arg.text (a : Arg) : String :=
  a.key.name ++ ": " ++ a.value.text

/-- A target (`call_target`).  One that is spelled like a builtin command gets a space before its
dot, since without it the name would be read as that command. -/
def Target.text (t : Target) : String :=
  if (Builtin.ofName? t.display).isSome then " .".intercalate t.segments else t.display

/-- What a command calls: the `name` of a builtin, or the `Target.text` of a call. -/
def Command.callee : Command → String
  | .builtin c => c.builtin.name
  | .call c => c.target.text

/-- A command with its semicolon (`Printer::command`). -/
def Command.text (c : Command) : String :=
  c.callee ++ "(" ++ commas (c.args.map Arg.text) ++ ");"

/-- A block of variables with its semicolon (part of `Printer::environment`). -/
def VarsBlock.text (b : VarsBlock) : String :=
  if b.args.isEmpty then "gx.vars \x7b \x7d;"
  else "gx.vars \x7b " ++ commas (b.args.map Arg.text) ++ " \x7d;"

/-- The names that a construct inherits from (`inherits`). -/
def RefList.inherited : Option RefList → String
  | some refs => " : " ++ Ident.commas refs.names
  | none => ""

/-- A parameter (part of `Printer::function`). -/
def Param.text (p : Param) : String :=
  (if p.variadic then "*" else "") ++ p.name.name
    ++ match p.fallback with
      | some value => " = " ++ value.text
      | none => ""

/-- The header of a flow (part of `Printer::flow_definition`). -/
def Flow.header (f : Flow) : String :=
  "flow "
    ++ (match f.before with
      | some refs => Ident.commas refs.names ++ " | "
      | none => "")
    ++ "@" ++ f.name.name
    ++ match f.after with
      | some refs => " | " ++ Ident.commas refs.names
      | none => ""

/-! ## Lines of constructs -/

/-- The lines of annotations, one each (`Printer::annotations`). -/
def Annot.lines (annots : List Annot) : List Line :=
  annots.map fun a => .of a.text

/-- An entry of an environment (part of `Printer::environment`). -/
def Environment.Entry.text : Environment.Entry → String
  | .property p => p.text
  | .command c => c.text
  | .vars b => b.text

/-- An entry of a flow (part of `Printer::flow_definition`). -/
def Flow.Entry.text : Flow.Entry → String
  | .command c => c.text
  | .property p => p.text

/-- The lines of a member of a module: `Printer::property`, `Printer::environment` and the methods
beside it. -/
def Member.lines : Member → List Line
  | .property p => [.of p.text]
  | .environment e =>
    Annot.lines e.annots
      ++ Line.block ("env " ++ e.name.name ++ RefList.inherited e.refs)
        (e.entries.map fun x => .of x.text)
  | .flow f => Annot.lines f.annots ++ Line.block f.header (f.entries.map fun x => .of x.text)
  | .flowAlias f =>
    Annot.lines f.annots
      ++ [.of ("flow " ++ f.name.name ++ " : " ++ Ident.commas f.targets.names ++ ";")]
  | .fn f =>
    Annot.lines f.annots
      ++ Line.block ("fn " ++ f.name.name ++ "(" ++ commas (f.params.map Param.text) ++ ")")
        (f.body.map fun c => .of c.text)
  | .activity a =>
    Annot.lines a.annots
      ++ Line.block ("activity " ++ a.name.name) (a.props.map fun p => .of p.text)

/-- The lines of a module (`Printer::module`). -/
def Module.lines (m : Module) : List Line :=
  Annot.lines m.annots
    ++ Line.block ("mod " ++ m.name.name ++ RefList.inherited m.refs)
      (m.members.flatMap Member.lines)

/-- An origin with its semicolon (part of `Printer::extern_module`). -/
def Origin.text : Origin → String
  | .path place _ => "path = " ++ place.text ++ ";"
  | .git url channel _ => "git = " ++ url.text ++ ", channel = " ++ channel.text ++ ";"

/-- The lines of a declaration of external modules (`Printer::extern_module`). -/
def External.lines (e : External) : List Line :=
  Line.block ("extern mod " ++ Ident.commas e.names) [.of e.origin.text]

/-- The lines of an item (the loop of `print`). -/
def Item.lines : Item → List Line
  | .module m => m.lines
  | .external e => e.lines

/-- An item as text: its `lines`, each rendered. -/
def Item.print (indent : Nat) (i : Item) : String :=
  String.join (i.lines.map (Line.render indent))

/-- A document in canonical form, with a number of spaces for each level (`print`). -/
def Document.print (indent : Nat) (d : Document) : String :=
  "\n".intercalate (d.items.map (Item.print indent))

/-- The number of spaces for each level that is used when nothing else is asked for (the default of
`PrintOptions`). -/
def defaultIndent : Nat := 4

end Gxl
