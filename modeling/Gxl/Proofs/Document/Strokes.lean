import Gxl.Document.Layout
import Gxl.Proofs.Token.Offsets

/-!
# Writing stroke by stroke

The layout of a tree gives every line its depth.  A writer knows no more than how deep it stands:
it writes a line, opens a body and goes one level down, or goes one level up and closes the body.
At the outermost level there is no way up, and a stroke that wants to go there is refused.

The strokes of a construct write the lines of its layout and leave the writer as deep as it was
(`Draws`).  Bodies nest, so nothing is refused, and behind every item of a document the writer is at
the outermost level again (`Page.items?_eq`).
-/

namespace Gxl

/-- One stroke of a writer. -/
inductive Stroke where
  /-- A line of its own. -/
  | line (text : String)
  /-- The header of a body, which goes one level down. -/
  | opens (header : String)
  /-- The end of a body, one level up. -/
  | closes
  deriving DecidableEq, Inhabited

/-- What has been written, `out`, and how deep the writer stands. -/
structure Page where
  out : String
  depth : Nat
  deriving DecidableEq, Inhabited

namespace Page

/-- Nothing has been written. -/
def blank : Page :=
  ⟨"", 0⟩

/-- Writes a line as deep as the writer stands, by `Line.render`. -/
def line (indent : Nat) (text : String) (p : Page) : Page :=
  { p with out := p.out ++ Line.render indent ⟨p.depth, text⟩ }

/-- Writes a `header` and goes one level down. -/
def opened (indent : Nat) (header : String) (p : Page) : Page :=
  { p.line indent (header ++ " \x7b") with depth := p.depth + 1 }

/-- Goes one level up and writes the end of a body.  There is no way up from the outermost level,
where `Text.back?` refuses. -/
def closed? (indent : Nat) (p : Page) : Option Page := do
  let depth ← Text.back? p.depth 1
  return line indent "\x7d;" { p with depth := depth }

/-- Makes a stroke, or refuses it. -/
def draw? (indent : Nat) (p : Page) : Stroke → Option Page
  | .line text => some (p.line indent text)
  | .opens header => some (p.opened indent header)
  | .closes => p.closed? indent

/-- Makes strokes one after the other by `draw?`. -/
def write? (indent : Nat) (p : Page) (strokes : List Stroke) : Option Page :=
  strokes.foldlM (draw? indent) p

end Page

/-! ## The strokes of constructs -/

/-- The header of a body, the body, and its end (`Stroke.closes`). -/
def Stroke.block (header : String) (body : List Stroke) : List Stroke :=
  .opens header :: body ++ [.closes]

/-- The strokes of annotations, a `Stroke.line` each. -/
def Annot.strokes (annots : List Annot) : List Stroke :=
  annots.map fun a => .line a.text

/-- The strokes of a `Member` of a module. -/
def Member.strokes : Member → List Stroke
  | .property p => [.line p.text]
  | .environment e =>
    Annot.strokes e.annots
      ++ Stroke.block ("env " ++ e.name.name ++ RefList.inherited e.refs)
        (e.entries.map fun x => .line x.text)
  | .flow f =>
    Annot.strokes f.annots ++ Stroke.block f.header (f.entries.map fun x => .line x.text)
  | .flowAlias f =>
    Annot.strokes f.annots
      ++ [.line ("flow " ++ f.name.name ++ " : " ++ Ident.commas f.targets.names ++ ";")]
  | .fn f =>
    Annot.strokes f.annots
      ++ Stroke.block ("fn " ++ f.name.name ++ "(" ++ commas (f.params.map Param.text) ++ ")")
        (f.body.map fun c => .line c.text)
  | .activity a =>
    Annot.strokes a.annots
      ++ Stroke.block ("activity " ++ a.name.name) (a.props.map fun p => .line p.text)

/-- The strokes of an `Item` of a document. -/
def Item.strokes : Item → List Stroke
  | .module m =>
    Annot.strokes m.annots
      ++ Stroke.block ("mod " ++ m.name.name ++ RefList.inherited m.refs)
        (m.members.flatMap Member.strokes)
  | .external e =>
    Stroke.block ("extern mod " ++ Ident.commas e.names) [.line e.origin.text]

/-! ## What strokes draw -/

namespace Page

/-- The page with more lines on it, deeper by as much as the writer stands (`depth`). -/
def add (indent : Nat) (p : Page) (lines : List Line) : Page :=
  { p with
    out := p.out ++
      String.join (lines.map fun l => Line.render indent ⟨p.depth + l.depth, l.text⟩) }

/-- Lines are added one part after the other. -/
theorem add_append (indent : Nat) (p : Page) (lines lines' : List Line) :
    p.add indent (lines ++ lines') = (p.add indent lines).add indent lines' := by
  simp [add, String.join_append, String.append_assoc]

/-- A body that has been written is closed one level up, where its header stands: the page has the
lines of `Line.block`. -/
theorem closed?_add {indent : Nat} (p : Page) (header : String) (lines : List Line) :
    ((p.opened indent header).add indent lines).closed? indent
      = some (p.add indent (Line.block header lines)) := by
  have hback : Text.back? ((p.opened indent header).add indent lines).depth 1 = some p.depth :=
    Text.back?_add p.depth 1
  have hdeeper : ∀ l : Line, p.depth + 1 + l.depth = p.depth + (l.depth + 1) := fun l => by omega
  rw [closed?, hback]
  simp [add, opened, line, Line.block, Line.of, Line.deeper, hdeeper, Function.comp_def,
    String.join_append, String.join_cons, String.append_assoc]

/-- A body that has not been opened cannot be closed. -/
example (indent : Nat) : blank.closed? indent = none := rfl

/-- Strokes are made one part after the other, if none of the first part is refused. -/
theorem write?_append (indent : Nat) (p : Page) (strokes strokes' : List Stroke) :
    p.write? indent (strokes ++ strokes')
      = (p.write? indent strokes).bind (write? indent · strokes') :=
  List.foldlM_append

end Page

/-- Strokes draw lines: wherever the writer stands, none of them is refused, the lines are written
as `add` adds them, and the writer is left as deep as it was. -/
def Draws (strokes : List Stroke) (lines : List Line) : Prop :=
  ∀ (indent : Nat) (p : Page), p.write? indent strokes = some (p.add indent lines)

namespace Draws

variable {strokes strokes' : List Stroke} {lines lines' : List Line}

theorem nil : Draws [] [] := by
  intro indent p
  simp [Page.write?, Page.add]

/-- What is drawn by two parts one after the other. -/
theorem append (h : Draws strokes lines) (h' : Draws strokes' lines') :
    Draws (strokes ++ strokes') (lines ++ lines') := by
  intro indent p
  rw [Page.write?_append, h indent p, Option.bind_some, h' indent, Page.add_append]

/-- A single line is drawn by its stroke. -/
theorem line (text : String) : Draws [.line text] [.of text] := by
  intro indent p
  simp [Page.write?, Page.draw?, Page.line, Page.add, Line.of]

/-- A body with its header and its end draws `Line.block`. -/
theorem block (header : String) (h : Draws strokes lines) :
    Draws (Stroke.block header strokes) (Line.block header lines) := by
  intro indent p
  have hopen : p.write? indent (Stroke.block header strokes)
      = (p.opened indent header).write? indent (strokes ++ [.closes]) := List.foldlM_cons
  rw [hopen, Page.write?_append, h indent, Option.bind_some, ← p.closed?_add]
  simp [Page.write?, Page.draw?]

/-- If `f` draws `g` of each item, the strokes of a list of items draw the lines of all. -/
theorem flatMap {α : Type} {f : α → List Stroke} {g : α → List Line} (h : ∀ a, Draws (f a) (g a))
    (as : List α) : Draws (as.flatMap f) (as.flatMap g) := by
  induction as with
  | nil => exact nil
  | cons a as ih => exact (h a).append ih

/-- Single lines, one for each item of a list. -/
theorem map {α : Type} (text : α → String) (as : List α) :
    Draws (as.map fun a => .line (text a)) (as.map fun a => .of (text a)) := by
  induction as with
  | nil => exact nil
  | cons a as ih => exact (line (text a)).append ih

end Draws

/-- The strokes of a member draw its `lines`. -/
theorem Member.draws (m : Member) : Draws m.strokes m.lines := by
  cases m with
  | property p => exact .line _
  | environment e => exact (Draws.map _ e.annots).append (.block _ (.map _ e.entries))
  | flow f => exact (Draws.map _ f.annots).append (.block _ (.map _ f.entries))
  | flowAlias f => exact (Draws.map _ f.annots).append (.line _)
  | fn f => exact (Draws.map _ f.annots).append (.block _ (.map _ f.body))
  | activity a => exact (Draws.map _ a.annots).append (.block _ (.map _ a.props))

/-- The strokes of an item draw its `lines`. -/
theorem Item.draws (i : Item) : Draws i.strokes i.lines := by
  cases i with
  | module m => exact (Draws.map _ m.annots).append (.block _ (.flatMap Member.draws m.members))
  | external e => exact .block _ (.line _)

namespace Page

/-- Writes items one after the other by `write?`, with an empty line between them. -/
def items? (indent : Nat) (p : Page) : List Item → Option Page
  | [] => some p
  | i :: rest => do
    let q ← p.write? indent i.strokes
    rest.foldlM (fun q j => write? indent { q with out := q.out ++ "\n" } j.strokes) q

/-- An item that is written at the outermost level leaves the writer there, behind the text of
`Item.print`. -/
theorem write?_item (indent : Nat) (out : String) (i : Item) :
    write? indent ⟨out, 0⟩ i.strokes = some ⟨out ++ i.print indent, 0⟩ := by
  rw [i.draws indent]
  simp [add, Item.print]

/-- Items are written at the outermost level as their texts with an empty line between. -/
theorem items?_cons (indent : Nat) (out : String) (i : Item) (rest : List Item) :
    items? indent ⟨out, 0⟩ (i :: rest)
      = some ⟨out ++ "\n".intercalate ((i :: rest).map (Item.print indent)), 0⟩ := by
  rw [items?, write?_item]
  induction rest generalizing out i with
  | nil => simp
  | cons j rest ih =>
    have hrest := ih (out ++ i.print indent ++ "\n") j
    rw [Option.bind_eq_bind, Option.bind_some] at hrest ⊢
    rw [List.foldlM_cons, write?_item]
    simpa [String.intercalate_cons_cons, String.append_assoc] using hrest

/-- The items of a document are written as its text (`Document.print`), and the writer comes back to
the outermost level. -/
theorem items?_eq (indent : Nat) (d : Document) :
    blank.items? indent d.items = some ⟨d.print indent, 0⟩ := by
  rw [Document.print]
  cases d.items with
  | nil => rfl
  | cons i rest => simpa [blank] using items?_cons indent "" i rest

end Page

end Gxl
