import Gxl.Document.Layout
import Gxl.Proofs.Document.Spans

/-!
# The layout of a tree and its spans

The canonical layout of a tree says nothing of where its pieces stood: changing the spans leaves
every line as it is, and so the whole text (`Document.print_mapSpans`).
-/

namespace Gxl

variable {f : Span → Span}

/-- What `g` makes of each item of a list, joined by `flatMap`, does not depend on spans if `g` does
not. -/
theorem flatMap_mapSpans {α β : Type} [Placed α] {g : α → List β} (h : ∀ a, g (mapSpans f a) = g a)
    (as : List α) : (mapSpans f as).flatMap g = as.flatMap g := by
  rw [List.flatMap_def, List.flatMap_def, map_mapSpans h]

/-! ## Parts of lines -/

/-- The names joined by `Ident.commas` are the same whatever their spans. -/
theorem Ident.commas_mapSpans (names : List Ident) :
    Ident.commas (mapSpans f names) = Ident.commas names :=
  congrArg Gxl.commas (map_mapSpans (fun _ => rfl) names)

/-- The text of an argument of an annotation does not depend on spans. -/
theorem Annot.Arg.text_mapSpans (a : Annot.Arg) : (mapSpans f a).text = a.text := by
  cases a <;> rfl

/-- The text of an annotation does not depend on spans, by `Annot.Arg.text_mapSpans`. -/
theorem Annot.text_mapSpans (a : Annot) : (mapSpans f a).text = a.text := by
  have hargs : (mapSpans f a).args.map Annot.Arg.text = a.args.map Annot.Arg.text :=
    map_mapSpans Annot.Arg.text_mapSpans a.args
  have hempty : (mapSpans f a).args.isEmpty = a.args.isEmpty := List.isEmpty_map
  rw [Annot.text, Annot.text, hargs, hempty]
  rfl

theorem Property.text_mapSpans (p : Property) : (mapSpans f p).text = p.text := by
  obtain ⟨key, value | value, span⟩ := p <;> rfl

theorem Arg.text_mapSpans (a : Arg) : (mapSpans f a).text = a.text := by
  obtain ⟨key, value | value, span⟩ := a <;> rfl

/-- The text of a `Target` does not depend on spans, since its `segments` do not. -/
theorem Target.text_mapSpans (t : Target) : (mapSpans f t).text = t.text := by
  have hdisplay : (mapSpans f t).display = t.display :=
    congrArg (".".intercalate ·) (t.segments_mapSpans f)
  rw [Target.text, Target.text, hdisplay, t.segments_mapSpans]

/-- The text of a `Command` does not depend on spans: that of its target and of its arguments does
not. -/
theorem Command.text_mapSpans (c : Command) : (mapSpans f c).text = c.text := by
  have hargs : (mapSpans f c).args.map Arg.text = c.args.map Arg.text := by
    cases c with
    | builtin c => exact map_mapSpans Arg.text_mapSpans c.args
    | call c => exact map_mapSpans Arg.text_mapSpans c.args
  have hcallee : (mapSpans f c).callee = c.callee := by
    cases c with
    | builtin c => rfl
    | call c => exact c.target.text_mapSpans
  rw [Command.text, Command.text, hargs, hcallee]

theorem VarsBlock.text_mapSpans (b : VarsBlock) : (mapSpans f b).text = b.text := by
  have hargs : (mapSpans f b).args.map Arg.text = b.args.map Arg.text :=
    map_mapSpans Arg.text_mapSpans b.args
  have hempty : (mapSpans f b).args.isEmpty = b.args.isEmpty := List.isEmpty_map
  rw [VarsBlock.text, VarsBlock.text, hargs, hempty]

/-- The list of references behind a name, `RefList.inherited`, does not depend on spans. -/
theorem RefList.inherited_mapSpans (refs : Option RefList) :
    RefList.inherited (mapSpans f refs) = RefList.inherited refs := by
  cases refs with
  | none => rfl
  | some r => exact congrArg (" : " ++ ·) (Ident.commas_mapSpans r.names)

/-- The text of a parameter does not depend on spans. -/
theorem Param.text_mapSpans (p : Param) : (mapSpans f p).text = p.text := by
  obtain ⟨variadic, name, _ | value, span⟩ := p <;> rfl

/-- The `header` of a flow does not depend on spans. -/
theorem Flow.header_mapSpans (x : Flow) : (mapSpans f x).header = x.header := by
  have hrefs : ∀ names : List Ident,
      Ident.commas (names.map fun i => ⟨i.name, f i.span⟩) = Ident.commas names :=
    Ident.commas_mapSpans
  obtain ⟨annots, _ | before, name, _ | after, entries, span⟩ := x <;>
    simp [Flow.header, mapSpans, hrefs]

/-! ## Lines of constructs -/

/-- The lines of annotations do not depend on spans. -/
theorem Annot.lines_mapSpans (annots : List Annot) :
    Annot.lines (mapSpans f annots) = Annot.lines annots :=
  map_mapSpans (fun a : Annot => congrArg Line.of a.text_mapSpans) annots

/-- The text of an entry of an environment does not depend on spans. -/
theorem Environment.Entry.text_mapSpans (e : Environment.Entry) : (mapSpans f e).text = e.text := by
  cases e with
  | property p => exact p.text_mapSpans
  | command c => exact c.text_mapSpans
  | vars b => exact b.text_mapSpans

/-- The text of an entry of a flow does not depend on spans. -/
theorem Flow.Entry.text_mapSpans (e : Flow.Entry) : (mapSpans f e).text = e.text := by
  cases e with
  | command c => exact c.text_mapSpans
  | property p => exact p.text_mapSpans

/-- The lines of a `Member` do not depend on spans, one case a constructor. -/
theorem Member.lines_mapSpans (m : Member) : (mapSpans f m).lines = m.lines := by
  cases m with
  | property p => exact congrArg (fun s => [Line.of s]) p.text_mapSpans
  | environment e =>
    have hentries : (mapSpans f e.entries).map (fun x => Line.of x.text) = _ :=
      map_mapSpans (fun x : Environment.Entry => congrArg Line.of x.text_mapSpans) e.entries
    show Annot.lines (mapSpans f e.annots)
      ++ Line.block ("env " ++ e.name.name ++ RefList.inherited (mapSpans f e.refs))
        ((mapSpans f e.entries).map fun x => Line.of x.text) = _
    rw [Annot.lines_mapSpans, RefList.inherited_mapSpans, hentries]
    rfl
  | flow x =>
    have hentries : (mapSpans f x.entries).map (fun x => Line.of x.text) = _ :=
      map_mapSpans (fun x : Flow.Entry => congrArg Line.of x.text_mapSpans) x.entries
    show Annot.lines (mapSpans f x.annots) ++ Line.block (mapSpans f x).header
      ((mapSpans f x.entries).map fun x => Line.of x.text) = _
    rw [Annot.lines_mapSpans, Flow.header_mapSpans, hentries]
    rfl
  | flowAlias x =>
    show Annot.lines (mapSpans f x.annots)
      ++ [.of ("flow " ++ x.name.name ++ " : " ++ Ident.commas (mapSpans f x.targets.names) ++ ";")]
        = _
    rw [Annot.lines_mapSpans, Ident.commas_mapSpans]
    rfl
  | fn x =>
    have hbody : (mapSpans f x.body).map (fun c => Line.of c.text) = _ :=
      map_mapSpans (fun c : Command => congrArg Line.of c.text_mapSpans) x.body
    show Annot.lines (mapSpans f x.annots)
      ++ Line.block ("fn " ++ x.name.name ++ "(" ++ commas ((mapSpans f x.params).map Param.text)
        ++ ")") ((mapSpans f x.body).map fun c => Line.of c.text) = _
    rw [Annot.lines_mapSpans, map_mapSpans Param.text_mapSpans, hbody]
    rfl
  | activity a =>
    have hprops : (mapSpans f a.props).map (fun p => Line.of p.text) = _ :=
      map_mapSpans (fun p : Property => congrArg Line.of p.text_mapSpans) a.props
    show Annot.lines (mapSpans f a.annots) ++ Line.block ("activity " ++ a.name.name)
      ((mapSpans f a.props).map fun p => Line.of p.text) = _
    rw [Annot.lines_mapSpans, hprops]
    rfl

/-- The lines of a module do not depend on spans: those of its head and of its members do not. -/
theorem Module.lines_mapSpans (m : Module) : (mapSpans f m).lines = m.lines := by
  show Annot.lines (mapSpans f m.annots)
    ++ Line.block ("mod " ++ m.name.name ++ RefList.inherited (mapSpans f m.refs))
      ((mapSpans f m.members).flatMap Member.lines) = _
  rw [Annot.lines_mapSpans, RefList.inherited_mapSpans, flatMap_mapSpans Member.lines_mapSpans]
  rfl

/-- The lines of an `Item` do not depend on spans. -/
theorem Item.lines_mapSpans (i : Item) : (mapSpans f i).lines = i.lines := by
  cases i with
  | module m => exact m.lines_mapSpans
  | external e =>
    have horigin : (mapSpans f e.origin).text = e.origin.text := by
      cases e.origin <;> rfl
    show Line.block ("extern mod " ++ Ident.commas (mapSpans f e.names))
      [.of (mapSpans f e.origin).text] = _
    rw [Ident.commas_mapSpans, horigin]
    rfl

/-- A document is written the same by `Document.print` whatever its spans. -/
theorem Document.print_mapSpans (indent : Nat) (d : Document) :
    (mapSpans f d).print indent = d.print indent := by
  have hitem : ∀ i : Item, (mapSpans f i).print indent = i.print indent := by
    intro i
    rw [Item.print, Item.print, i.lines_mapSpans]
  exact congrArg ("\n".intercalate ·) (map_mapSpans hitem d.items)

end Gxl
