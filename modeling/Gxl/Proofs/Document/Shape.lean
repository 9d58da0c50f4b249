import Gxl.Document.Shape
import Gxl.Proofs.Document.Spans

/-!
# The shape of a tree and its spans

Two trees that differ only in their spans have the same shape (`Document.shape_mapSpans`).

Reading a value back sorts its fields and drops some of them, so the spans cannot be followed by
their place.  They are masked instead: `maskSpans` puts null in the place of every span, which the
reading neither sees nor undoes, and which is all the same once the spans are left out.
-/

namespace Gxl

namespace Json

mutual

/-- The value with null for its fields named `span`, at any depth. -/
def maskSpans : Json → Json
  | .array items => .array (maskSpansList items)
  | .object fields => .object (maskSpansFields fields)
  | v => v

/-- `maskSpans` on every item. -/
def maskSpansList : List Json → List Json
  | [] => []
  | v :: items => v.maskSpans :: maskSpansList items

/-- Puts null for the fields named `span`, with `maskSpans` on the others. -/
def maskSpansFields : List (String × Json) → List (String × Json)
  | [] => []
  | (k, v) :: fields => (k, if k = "span" then .null else v.maskSpans) :: maskSpansFields fields

end

/-! ## Reading back -/

/-- A field is set among masked fields as `setField` sets it among those that were masked. -/
theorem setField_maskSpans (name : String) (value : Json) (fields : List (String × Json)) :
    setField name (if name = "span" then .null else value.maskSpans) (maskSpansFields fields)
      = maskSpansFields (setField name value fields) := by
  induction fields with
  | nil => rfl
  | cons field fields ih =>
    obtain ⟨k, v⟩ := field
    simp only [maskSpansFields, setField]
    split
    · rfl
    · split
      · rfl
      · rw [ih]
        rfl

mutual

/-- Reading back commutes with masking: `canonical` sorts fields by their names, which `maskSpans`
keeps. -/
theorem canonical_maskSpans : ∀ v : Json, v.maskSpans.canonical = v.canonical.maskSpans
  | .null | .bool _ | .number _ _ | .string _ => rfl
  | .array items => congrArg array (canonicalList_maskSpans items)
  | .object fields => congrArg object (canonicalFields_maskSpans [] fields)

/-- The same for the items of an array. -/
theorem canonicalList_maskSpans :
    ∀ items : List Json, canonicalList (maskSpansList items) = maskSpansList (canonicalList items)
  | [] => rfl
  | v :: items => by
    simp only [maskSpansList, canonicalList, canonical_maskSpans v, canonicalList_maskSpans items]

/-- The same for the fields of an object, with the fields `seen` before them. -/
theorem canonicalFields_maskSpans (seen : List (String × Json)) :
    ∀ fields, canonicalFields (maskSpansFields seen) (maskSpansFields fields)
      = maskSpansFields (canonicalFields seen fields)
  | [] => rfl
  | (k, v) :: fields => by
    -- null is its own reading, so masking a span before or after makes no difference
    have hvalue : (if k = "span" then null else v.maskSpans).canonical
        = if k = "span" then null else v.canonical.maskSpans := by
      split
      · rfl
      · exact canonical_maskSpans v
    simp only [maskSpansFields, canonicalFields, hvalue, setField_maskSpans]
    exact canonicalFields_maskSpans _ fields

end

mutual

/-- Once the spans are left out, it makes no difference that they were masked: `stripSpans` undoes
`maskSpans`. -/
theorem stripSpans_maskSpans : ∀ v : Json, v.maskSpans.stripSpans = v.stripSpans
  | .null | .bool _ | .number _ _ | .string _ => rfl
  | .array items => congrArg array (stripSpansList_maskSpans items)
  | .object fields => congrArg object (stripSpansFields_maskSpans fields)

/-- The same for the items of an array. -/
theorem stripSpansList_maskSpans :
    ∀ items : List Json, stripSpansList (maskSpansList items) = stripSpansList items
  | [] => rfl
  | v :: items => by
    simp only [maskSpansList, stripSpansList, stripSpans_maskSpans v,
      stripSpansList_maskSpans items]

/-- The same for the fields of an object: the masked ones are those that are left out. -/
theorem stripSpansFields_maskSpans :
    ∀ fields, stripSpansFields (maskSpansFields fields) = stripSpansFields fields
  | [] => rfl
  | (k, v) :: fields => by
    simp only [maskSpansFields, stripSpansFields, stripSpansFields_maskSpans fields]
    split
    · rfl
    · rw [stripSpans_maskSpans v]

end

/-! ## Values that agree -/

/-- Two values agree up to their spans: masked by `maskSpans` they are equal. -/
def Alike (v w : Json) : Prop :=
  v.maskSpans = w.maskSpans

/-- The fields of two values agree up to their spans, masked by `maskSpansFields`. -/
def AlikeFields (fs gs : List (String × Json)) : Prop :=
  maskSpansFields fs = maskSpansFields gs

/-- Values that are `Alike` are the same once they are read back and their spans are left out. -/
theorem Alike.shape_eq {v w : Json} (h : Alike v w) :
    v.canonical.stripSpans = w.canonical.stripSpans := by
  rw [← stripSpans_maskSpans, ← canonical_maskSpans, h, canonical_maskSpans, stripSpans_maskSpans]

theorem AlikeFields.nil : AlikeFields [] [] := rfl

/-- Fields of one name with values that are `Alike` may stand before fields that agree. -/
theorem AlikeFields.cons {name : String} {v w : Json} {fs gs : List (String × Json)}
    (h : Alike v w) (hs : AlikeFields fs gs) : AlikeFields ((name, v) :: fs) ((name, w) :: gs) := by
  show _ :: maskSpansFields fs = _ :: maskSpansFields gs
  rw [h, hs]

/-- Masking goes over the fields one by one. -/
theorem maskSpansFields_append (fs gs : List (String × Json)) :
    maskSpansFields (fs ++ gs) = maskSpansFields fs ++ maskSpansFields gs := by
  induction fs with
  | nil => rfl
  | cons field fs ih =>
    obtain ⟨k, v⟩ := field
    show _ :: maskSpansFields (fs ++ gs) = _
    rw [ih]
    rfl

/-- Objects with fields that agree are `Alike`. -/
theorem AlikeFields.object {fs gs : List (String × Json)} (h : AlikeFields fs gs) :
    Alike (.object fs) (.object gs) :=
  congrArg Json.object h

/-- The span of a construct does not matter to `Json.node`. -/
theorem AlikeFields.node {fs gs : List (String × Json)} {s t : Span} (h : AlikeFields fs gs) :
    Alike (.node fs s) (.node gs t) := by
  apply AlikeFields.object
  rw [AlikeFields, maskSpansFields_append, maskSpansFields_append, h]
  rfl

/-- The same tag on values that are `Alike` keeps them so. -/
theorem Alike.tagged {type : String} {v w : Json} (h : Alike v w) :
    Alike (.tagged type v) (.tagged type w) := by
  have hmask : ∀ v : Json, (Json.tagged type v).maskSpans = Json.tagged type v.maskSpans := by
    intro v
    cases v <;> rfl
  rw [Alike, hmask, hmask, h]

section Placed

variable {α : Type} [Placed α] {f : Span → Span} {g : α → Json}

/-- If what `g` makes of an item does not depend on its spans, nor does what it makes of a list. -/
theorem Alike.ofList (h : ∀ a, Alike (g (mapSpans f a)) (g a)) (as : List α) :
    Alike (.ofList g (mapSpans f as)) (.ofList g as) := by
  refine congrArg array ?_
  induction as with
  | nil => rfl
  | cons a as ih =>
    show _ :: maskSpansList _ = _ :: maskSpansList _
    rw [h a]
    exact congrArg _ ih

/-- The same for an item that may be missing. -/
theorem Alike.ofOption (h : ∀ a, Alike (g (mapSpans f a)) (g a)) (a : Option α) :
    Alike (.ofOption g (mapSpans f a)) (.ofOption g a) := by
  cases a with
  | none => rfl
  | some a => exact h a

end Placed

end Json

/-! ## Constructs -/

open Json

variable {f : Span → Span}

/-- A name as JSON depends on its spans in `span` only, by `AlikeFields.node`; and so do the pieces
of tree below, one lemma for each `toJson`. -/
theorem Ident.alike (i : Ident) : Alike (mapSpans f i).toJson i.toJson :=
  AlikeFields.node (.cons rfl .nil)

theorem StrLit.alike (s : StrLit) : Alike (mapSpans f s).toJson s.toJson :=
  AlikeFields.node (.cons rfl .nil)

theorem NumLit.alike (n : NumLit) : Alike (mapSpans f n).toJson n.toJson :=
  AlikeFields.node (.cons rfl .nil)

theorem RefList.alike (r : RefList) : Alike (mapSpans f r).toJson r.toJson :=
  AlikeFields.node (.cons (.ofList Ident.alike r.names) .nil)

theorem Annot.Arg.alike (a : Annot.Arg) : Alike (mapSpans f a).toJson a.toJson := by
  cases a with
  | keyed key value =>
    exact .tagged (AlikeFields.object (.cons key.alike (.cons value.alike .nil)))
  | bare value => exact .tagged value.alike

theorem Annot.alike (a : Annot) : Alike (mapSpans f a).toJson a.toJson :=
  AlikeFields.node (.cons a.name.alike (.cons (.ofList Annot.Arg.alike a.args) .nil))

theorem Literal.alike (v : Literal) : Alike (mapSpans f v).toJson v.toJson := by
  cases v with
  | string value => exact .tagged value.alike
  | number value => exact .tagged value.alike

theorem Property.alike (p : Property) : Alike (mapSpans f p).toJson p.toJson :=
  AlikeFields.node (.cons p.key.alike (.cons p.value.alike .nil))

theorem Arg.Value.alike (v : Arg.Value) : Alike (mapSpans f v).toJson v.toJson := by
  rcases v with value | name
  · exact .tagged value.alike
  · exact .tagged name.alike

theorem Arg.alike (a : Arg) : Alike (mapSpans f a).toJson a.toJson :=
  AlikeFields.node (.cons a.key.alike (.cons a.value.alike .nil))

theorem Target.alike (t : Target) : Alike (mapSpans f t).toJson t.toJson := by
  cases t with
  | name name => exact .tagged name.alike
  | path path =>
    exact .tagged (AlikeFields.node (.cons (.ofList Ident.alike path.segments) .nil))

theorem Command.alike (c : Command) : Alike (mapSpans f c).toJson c.toJson := by
  cases c with
  | builtin c =>
    exact .tagged (AlikeFields.node (.cons rfl (.cons (.ofList Arg.alike c.args) .nil)))
  | call c =>
    exact .tagged (AlikeFields.node (.cons c.target.alike (.cons (.ofList Arg.alike c.args) .nil)))

theorem Environment.Entry.alike (e : Environment.Entry) : Alike (mapSpans f e).toJson e.toJson := by
  cases e with
  | property p => exact .tagged p.alike
  | command c => exact .tagged c.alike
  | vars b => exact .tagged (AlikeFields.node (.cons (.ofList Arg.alike b.args) .nil))

theorem Flow.Entry.alike (e : Flow.Entry) : Alike (mapSpans f e).toJson e.toJson := by
  cases e with
  | command c => exact .tagged c.alike
  | property p => exact .tagged p.alike

theorem Param.alike (p : Param) : Alike (mapSpans f p).toJson p.toJson :=
  AlikeFields.node (.cons rfl (.cons p.name.alike (.cons (.ofOption StrLit.alike p.fallback) .nil)))

theorem Member.alike (m : Member) : Alike (mapSpans f m).toJson m.toJson := by
  cases m with
  | property p => exact .tagged p.alike
  | environment e =>
    exact .tagged (AlikeFields.node (.cons (.ofList Annot.alike e.annots) (.cons e.name.alike
      (.cons (.ofOption RefList.alike e.refs) (.cons (.ofList Environment.Entry.alike e.entries)
        .nil)))))
  | flow x =>
    exact .tagged (AlikeFields.node (.cons (.ofList Annot.alike x.annots)
      (.cons (.ofOption RefList.alike x.before) (.cons x.name.alike
        (.cons (.ofOption RefList.alike x.after) (.cons (.ofList Flow.Entry.alike x.entries)
          .nil))))))
  | flowAlias x =>
    exact .tagged (AlikeFields.node (.cons (.ofList Annot.alike x.annots) (.cons x.name.alike
      (.cons x.targets.alike .nil))))
  | fn x =>
    exact .tagged (AlikeFields.node (.cons (.ofList Annot.alike x.annots) (.cons x.name.alike
      (.cons (.ofList Param.alike x.params) (.cons (.ofList Command.alike x.body) .nil)))))
  | activity a =>
    exact .tagged (AlikeFields.node (.cons (.ofList Annot.alike a.annots) (.cons a.name.alike
      (.cons (.ofList Property.alike a.props) .nil))))

theorem Origin.alike (o : Origin) : Alike (mapSpans f o).toJson o.toJson := by
  cases o with
  | path place span => exact .tagged (AlikeFields.node (.cons place.alike .nil))
  | git url channel span =>
    exact .tagged (AlikeFields.node (.cons url.alike (.cons channel.alike .nil)))

theorem Item.alike (i : Item) : Alike (mapSpans f i).toJson i.toJson := by
  cases i with
  | module m =>
    exact .tagged (AlikeFields.node (.cons (.ofList Annot.alike m.annots) (.cons m.name.alike
      (.cons (.ofOption RefList.alike m.refs) (.cons (.ofList Member.alike m.members) .nil)))))
  | external e =>
    exact .tagged (AlikeFields.node (.cons (.ofList Ident.alike e.names)
      (.cons e.origin.alike .nil)))

namespace Document

/-- The `shape` of a document does not depend on its spans. -/
theorem shape_mapSpans (d : Document) : (mapSpans f d).shape = d.shape :=
  (AlikeFields.node (.cons (.ofList Item.alike d.items) .nil) : Alike _ _).shape_eq

/-- Documents that differ only in their spans, so that `erase` makes them equal, are the same
tree. -/
theorem sameTree_of_erase_eq {d e : Document} (h : erase d = erase e) : sameTree d e = true := by
  have hshape : d.shape = e.shape := by
    rw [← shape_mapSpans d, ← shape_mapSpans e]
    exact congrArg shape h
  rw [sameTree, hshape]
  exact beq_self_eq_true _

end Document

end Gxl
