import Gxl.Proofs.Document.Shape

/-!
# Trees of the same shape

The shape of a tree tells everything about it but its spans: documents of the same shape are equal
once their spans are erased (`Document.erase_eq_of_sameTree`).

A shape is an object in which each name counts once, with the value given last, so two shapes are
compared name by name: objects of the same shape have values of the same shape under each name
(`Matches.field`).  Which construct a value is, its field `type` tells (`tag_eq`).  An entry that
holds a command has two such fields, of which that of the command counts (`shape_tagged_tagged`); it
tells a command from the other entries as well.
-/

namespace Gxl

namespace Json

/-- A value as it is read back (`canonical`), without spans. -/
def shape (v : Json) : Json :=
  v.canonical.stripSpans

@[simp] theorem shape_string (s : String) : (string s).shape = string s := rfl

@[simp] theorem shape_bool (b : Bool) : (bool b).shape = bool b := rfl

/-- The `shape` of an array is that of its items. -/
theorem shape_array (items : List Json) : (array items).shape = array (items.map shape) := by
  refine congrArg array ?_
  induction items with
  | nil => rfl
  | cons v items ih => exact congrArg (v.shape :: ·) ih

/-! ## Names in an object -/

/-- The value that counts under a name in an object: the one that is given last. -/
def given (name : String) : List (String × Json) → Option Json
  | [] => none
  | (k, v) :: fields => (given name fields).or (if k = name then some v else none)

/-- What `List.lookup` finds in a list that starts with a field, as an `if`. -/
theorem lookup_cons_eq_ite (name k : String) (v : Json) (fields : List (String × Json)) :
    ((k, v) :: fields).lookup name = if k = name then some v else fields.lookup name := by
  rw [List.lookup_cons]
  by_cases h : k = name
  · simp [h]
  · simp [h, beq_false_of_ne (Ne.symm h)]

/-- Looking up a name after `setField` finds the new value under its own name, and what was there
under any other. -/
theorem lookup_setField (name k : String) (value : Json) (fields : List (String × Json)) :
    (setField k value fields).lookup name
      = if k = name then some value else fields.lookup name := by
  induction fields with
  | nil => rw [setField, lookup_cons_eq_ite]
  | cons field fields ih =>
    obtain ⟨l, v⟩ := field
    rw [setField]
    split
    · rename_i hkl
      rw [lookup_cons_eq_ite, lookup_cons_eq_ite, hkl]
      split <;> rfl
    · rename_i hkl
      split
      · rw [lookup_cons_eq_ite]
      · -- the field is set further behind, and the field passed over has another name
        rw [lookup_cons_eq_ite, lookup_cons_eq_ite, ih]
        by_cases hl : l = name
        · rw [if_pos hl, if_pos hl, if_neg (hl ▸ hkl)]
        · rw [if_neg hl, if_neg hl]

/-- The fields of a canonical object answer a name by what is `given` under it, and else by what was
`seen` before. -/
theorem lookup_canonicalFields (name : String) (seen fields : List (String × Json)) :
    (canonicalFields seen fields).lookup name
      = ((given name fields).map canonical).or (seen.lookup name) := by
  induction fields generalizing seen with
  | nil => rfl
  | cons field fields ih =>
    obtain ⟨k, v⟩ := field
    rw [canonicalFields, ih, lookup_setField, given]
    cases given name fields with
    | some w => rfl
    | none => by_cases h : k = name <;> simp [h]

/-- Leaving out the spans leaves the fields of every other name. -/
theorem lookup_stripSpansFields {name : String} (hname : name ≠ "span")
    (fields : List (String × Json)) :
    (stripSpansFields fields).lookup name = (fields.lookup name).map stripSpans := by
  induction fields with
  | nil => rfl
  | cons field fields ih =>
    obtain ⟨k, v⟩ := field
    rw [stripSpansFields, lookup_cons_eq_ite]
    split
    · rename_i hk
      rw [ih, if_neg (hk ▸ Ne.symm hname)]
    · rw [lookup_cons_eq_ite, ih]
      split <;> rfl

/-- Objects of the same `shape` have values of the same shape under every name but that of spans. -/
theorem given_eq {fs gs : List (String × Json)} (h : (object fs).shape = (object gs).shape)
    (name : String) (hname : name ≠ "span") :
    (given name fs).map shape = (given name gs).map shape := by
  have hfields : stripSpansFields (canonicalFields [] fs)
      = stripSpansFields (canonicalFields [] gs) := object.inj h
  have hlookup := congrArg (List.lookup name) hfields
  simp only [lookup_stripSpansFields hname, lookup_canonicalFields, List.lookup_nil, Option.or_none,
    Option.map_map] at hlookup
  exact hlookup

/-! ## Tags -/

/-- The field `type` tells constructs apart. -/
theorem tag_eq {s t : String} {fs gs : List (String × Json)}
    (h : (tagged s (object fs)).shape = (tagged t (object gs)).shape)
    (hf : given "type" fs = none) (hg : given "type" gs = none) : s = t := by
  have hgiven := given_eq h "type" (by decide)
  simpa [given, hf, hg] using hgiven

/-- Of two fields `type` the second counts. -/
theorem shape_tagged_tagged (s t : String) (fs : List (String × Json)) :
    (tagged s (tagged t (object fs))).shape = (tagged t (object fs)).shape := by
  simp [shape, tagged, canonical, canonicalFields, setField]

/-- Two objects have values of the same shapes under every name, spans and tags aside, as far as
`given` tells. -/
def Matches : Json → Json → Prop
  | .object fs, .object gs =>
    ∀ name, name ≠ "span" → name ≠ "type" →
      (given name fs).map shape = (given name gs).map shape
  | _, _ => False

/-- Objects of the same `shape` match. -/
theorem Matches.of_shape {fs gs : List (String × Json)}
    (h : (object fs).shape = (object gs).shape) : Matches (object fs) (object gs) :=
  fun name hspan _ => given_eq h name hspan

/-- Objects whose tagged forms have the same `shape` match, since the tag is left out of account. -/
theorem Matches.of_tagged {s t : String} {fs gs : List (String × Json)}
    (h : (tagged s (object fs)).shape = (tagged t (object gs)).shape) :
    Matches (object fs) (object gs) := by
  intro name hspan htype
  have hgiven := given_eq h name hspan
  simpa [given, Ne.symm htype] using hgiven

/-- Objects that match have values of the same `shape` under each name but `span` and `type`. -/
theorem Matches.field {fs gs : List (String × Json)} {v w : Json}
    (h : Matches (object fs) (object gs)) (name : String) (hv : given name fs = some v)
    (hw : given name gs = some w) (hname : name ≠ "span" ∧ name ≠ "type") :
    v.shape = w.shape := by
  have hgiven := h name hname.1 hname.2
  rw [hv, hw] at hgiven
  exact Option.some.inj hgiven

/-! ## Encodings that tell everything -/

/-- An encoding from which a piece of tree can be told, up to its spans: values of the same `shape`
encode the same piece. -/
def Tells {α : Type} [Placed α] (encode : α → Json) : Prop :=
  ∀ a b, (encode a).shape = (encode b).shape → erase a = erase b

section Placed

variable {α : Type} [Placed α] {encode : α → Json} {fields : α → List (String × Json)}

/-- If items can be told, so can lists of them. -/
theorem Tells.ofList (h : Tells encode) : Tells (Json.ofList encode) := by
  intro as bs hshape
  rw [Json.ofList, Json.ofList, shape_array, shape_array, array.injEq, List.map_map,
    List.map_map] at hshape
  induction as generalizing bs with
  | nil =>
    obtain rfl : bs = [] := by simpa using hshape
    rfl
  | cons a as ih =>
    cases bs with
    | nil => simp at hshape
    | cons b bs =>
      obtain ⟨hhead, htail⟩ := List.cons.inj hshape
      show erase a :: erase as = erase b :: erase bs
      rw [h a b hhead, ih bs htail]

/-- If a piece of tree that is an object can be told, so can one that may be missing, which is
`null` then. -/
theorem Tells.ofOption (h : Tells fun a => object (fields a)) :
    Tells (Json.ofOption fun a => object (fields a)) := by
  rintro (_ | a) (_ | b) hshape
  · rfl
  · exact Json.noConfusion hshape
  · exact Json.noConfusion hshape
  · exact congrArg some (h a b hshape)

end Placed

end Json

/-! ## Leaves -/

open Json

/-- Names whose objects match differ at most in their spans. -/
theorem Ident.erase_eq {a b : Ident} (h : Matches a.toJson b.toJson) : erase a = erase b := by
  have hname : a.name = b.name := string.inj (h.field "name" rfl rfl (by simp))
  show (⟨a.name, default⟩ : Ident) = ⟨b.name, default⟩
  rw [hname]

theorem Ident.tells : Tells Ident.toJson :=
  fun _ _ h => Ident.erase_eq (.of_shape h)

/-- String literals whose objects match differ at most in their spans. -/
theorem StrLit.erase_eq {a b : StrLit} (h : Matches a.toJson b.toJson) : erase a = erase b := by
  have hraw : a.raw = b.raw := string.inj (h.field "raw" rfl rfl (by simp))
  show (⟨a.raw, default⟩ : StrLit) = ⟨b.raw, default⟩
  rw [hraw]

theorem StrLit.tells : Tells StrLit.toJson :=
  fun _ _ h => StrLit.erase_eq (.of_shape h)

/-- Number literals whose objects match differ at most in their spans. -/
theorem NumLit.erase_eq {a b : NumLit} (h : Matches a.toJson b.toJson) : erase a = erase b := by
  have htext : a.text = b.text := string.inj (h.field "text" rfl rfl (by simp))
  show (⟨a.text, default⟩ : NumLit) = ⟨b.text, default⟩
  rw [htext]

/-- Names in a row can be told by their list. -/
theorem RefList.tells : Tells RefList.toJson := by
  intro a b h
  have hnames := Ident.tells.ofList _ _ ((Matches.of_shape h).field "names" rfl rfl (by simp))
  show (⟨erase a.names, default⟩ : RefList) = ⟨erase b.names, default⟩
  rw [hnames]

/-- Names that may be missing can be told, by `Tells.ofOption`. -/
theorem RefList.tells_option : Tells (Json.ofOption RefList.toJson) :=
  RefList.tells.ofOption

/-! ## Annotations, properties and commands -/

/-- An argument of an annotation can be told: its tag says which constructor of `Annot.Arg` it
is. -/
theorem Annot.Arg.tells : Tells Annot.Arg.toJson := by
  rintro (⟨key, value⟩ | value) (⟨key', value'⟩ | value') h
  · have hfields := Matches.of_tagged h
    have hkey := Ident.tells _ _ (hfields.field "key" rfl rfl (by simp))
    have hvalue := StrLit.tells _ _ (hfields.field "value" rfl rfl (by simp))
    show Annot.Arg.keyed (erase key) (erase value) = .keyed (erase key') (erase value')
    rw [hkey, hvalue]
  · exact absurd (tag_eq h rfl rfl) (by simp)
  · exact absurd (tag_eq h rfl rfl) (by simp)
  · exact congrArg Annot.Arg.bare (StrLit.erase_eq (.of_tagged h))

/-- An annotation can be told by the fields `name` and `args`. -/
theorem Annot.tells : Tells Annot.toJson := by
  intro a b h
  have hfields := Matches.of_shape h
  have hname := Ident.tells _ _ (hfields.field "name" rfl rfl (by simp))
  have hargs := Annot.Arg.tells.ofList _ _ (hfields.field "args" rfl rfl (by simp))
  show (⟨erase a.name, erase a.args, default⟩ : Annot) = ⟨erase b.name, erase b.args, default⟩
  rw [hname, hargs]

/-- The value of a property can be told: its tag says which constructor of `Literal` it is. -/
theorem Literal.tells : Tells Literal.toJson := by
  rintro (value | value) (value' | value') h
  · exact congrArg Literal.string (StrLit.erase_eq (.of_tagged h))
  · exact absurd (tag_eq h rfl rfl) (by simp)
  · exact absurd (tag_eq h rfl rfl) (by simp)
  · exact congrArg Literal.number (NumLit.erase_eq (.of_tagged h))

/-- Properties whose objects match differ at most in their spans, and so it is told behind any
tag. -/
theorem Property.erase_eq {a b : Property} (h : Matches a.toJson b.toJson) :
    erase a = erase b := by
  have hkey := Ident.tells _ _ (h.field "key" rfl rfl (by simp))
  have hvalue := Literal.tells _ _ (h.field "value" rfl rfl (by simp))
  show (⟨erase a.key, erase a.value, default⟩ : Property) = ⟨erase b.key, erase b.value, default⟩
  rw [hkey, hvalue]

/-- The value of an argument can be told: its tag says which constructor of `Arg.Value` it is. -/
theorem Arg.Value.tells : Tells Arg.Value.toJson := by
  rintro (value | name) (value' | name') h
  · exact congrArg Arg.Value.string (StrLit.erase_eq (.of_tagged h))
  · exact absurd (tag_eq h rfl rfl) (by simp)
  · exact absurd (tag_eq h rfl rfl) (by simp)
  · exact congrArg Arg.Value.variable (Ident.erase_eq (.of_tagged h))

/-- An argument can be told by the fields `key` and `value`. -/
theorem Arg.tells : Tells Arg.toJson := by
  intro a b h
  have hfields := Matches.of_shape h
  have hkey := Ident.tells _ _ (hfields.field "key" rfl rfl (by simp))
  have hvalue := Arg.Value.tells _ _ (hfields.field "value" rfl rfl (by simp))
  show (⟨erase a.key, erase a.value, default⟩ : Arg) = ⟨erase b.key, erase b.value, default⟩
  rw [hkey, hvalue]

/-- A target can be told: a name and a path have tags of their own. -/
theorem Target.tells : Tells Target.toJson := by
  rintro (name | path) (name' | path') h
  · exact congrArg Target.name (Ident.erase_eq (.of_tagged h))
  · exact absurd (tag_eq h rfl rfl) (by simp)
  · exact absurd (tag_eq h rfl rfl) (by simp)
  · have hfields := Matches.of_tagged h
    have hsegments := Ident.tells.ofList _ _ (hfields.field "segments" rfl rfl (by simp))
    show Target.path ⟨erase path.segments, default⟩ = Target.path ⟨erase path'.segments, default⟩
    rw [hsegments]

/-- Builtin commands have names of their own (`Builtin.name`). -/
theorem Builtin.name_injective {a b : Builtin} (h : a.name = b.name) : a = b :=
  Option.some.inj ((Builtin.ofName?_eq_some_iff.2 rfl).symm.trans
    (h ▸ Builtin.ofName?_eq_some_iff.2 rfl))

/-- A command can be told: `builtin` and `call` tell which it is, the rest is in its fields. -/
theorem Command.tells : Tells Command.toJson := by
  rintro (c | c) (d | d) h
  · have hfields := Matches.of_tagged h
    have hbuiltin : c.builtin = d.builtin :=
      Builtin.name_injective (string.inj (hfields.field "name" rfl rfl (by simp)))
    have hargs := Arg.tells.ofList _ _ (hfields.field "props" rfl rfl (by simp))
    show Command.builtin ⟨c.builtin, erase c.args, default⟩
      = Command.builtin ⟨d.builtin, erase d.args, default⟩
    rw [hbuiltin, hargs]
  · exact absurd (tag_eq h rfl rfl) (by simp)
  · exact absurd (tag_eq h rfl rfl) (by simp)
  · have hfields := Matches.of_tagged h
    have htarget := Target.tells _ _ (hfields.field "target" rfl rfl (by simp))
    have hargs := Arg.tells.ofList _ _ (hfields.field "props" rfl rfl (by simp))
    show Command.call ⟨erase c.target, erase c.args, default⟩
      = Command.call ⟨erase d.target, erase d.args, default⟩
    rw [htarget, hargs]

/-! ## The members of a module -/

/-- The tag of an entry does not show where the entry holds a command, since that has a `type` of
its own, given later. -/
theorem Command.shape_tagged (s : String) (c : Command) :
    (tagged s c.toJson).shape = c.toJson.shape := by
  cases c with
  | builtin c => exact shape_tagged_tagged s "builtin" _
  | call c => exact shape_tagged_tagged s "call" _

/-- A command is told from everything with a tag of its own, as `Command.toJson` gives it `builtin`
or `call`. -/
theorem Command.shape_ne {s : String} {fs : List (String × Json)} (c : Command)
    (hs : s ≠ "builtin" ∧ s ≠ "call") (hfs : given "type" fs = none) :
    (tagged s (object fs)).shape ≠ c.toJson.shape := by
  intro h
  cases c with
  | builtin c => exact hs.1 (tag_eq h hfs rfl)
  | call c => exact hs.2 (tag_eq h hfs rfl)

/-- An entry of an environment can be told; a command by `Command.shape_tagged`, the others by their
tag. -/
theorem Environment.Entry.tells : Tells Environment.Entry.toJson := by
  rintro (p | c | b) (q | d | b') h
  · exact congrArg Environment.Entry.property (Property.erase_eq (.of_tagged h))
  · exact absurd (h.trans (d.shape_tagged _)) (d.shape_ne (by decide) rfl)
  · exact absurd (tag_eq h rfl rfl) (by simp)
  · exact absurd (h.symm.trans (c.shape_tagged _)) (c.shape_ne (by decide) rfl)
  · rw [Environment.Entry.toJson, Environment.Entry.toJson, c.shape_tagged, d.shape_tagged] at h
    exact congrArg Environment.Entry.command (Command.tells _ _ h)
  · exact absurd (h.symm.trans (c.shape_tagged _)) (c.shape_ne (by decide) rfl)
  · exact absurd (tag_eq h rfl rfl) (by simp)
  · exact absurd (h.trans (d.shape_tagged _)) (d.shape_ne (by decide) rfl)
  · have hargs := Arg.tells.ofList _ _ ((Matches.of_tagged h).field "props" rfl rfl (by simp))
    show Environment.Entry.vars ⟨erase b.args, default⟩ = .vars ⟨erase b'.args, default⟩
    rw [hargs]

/-- An entry of a flow can be told in the way of `Environment.Entry.tells`. -/
theorem Flow.Entry.tells : Tells Flow.Entry.toJson := by
  rintro (c | p) (d | q) h
  · rw [Flow.Entry.toJson, Flow.Entry.toJson, c.shape_tagged, d.shape_tagged] at h
    exact congrArg Flow.Entry.command (Command.tells _ _ h)
  · exact absurd (h.symm.trans (c.shape_tagged _)) (c.shape_ne (by decide) rfl)
  · exact absurd (h.trans (d.shape_tagged _)) (d.shape_ne (by decide) rfl)
  · exact congrArg Flow.Entry.property (Property.erase_eq (.of_tagged h))

/-- Environments whose objects match differ at most in their spans; the four fields are compared by
`Matches.field`. -/
theorem Environment.erase_eq {a b : Environment} (h : Matches a.toJson b.toJson) :
    erase a = erase b := by
  have hannots := Annot.tells.ofList _ _ (h.field "annotations" rfl rfl (by simp))
  have hname := Ident.tells _ _ (h.field "name" rfl rfl (by simp))
  have hrefs := RefList.tells_option _ _ (h.field "refs" rfl rfl (by simp))
  have hentries := Environment.Entry.tells.ofList _ _ (h.field "items" rfl rfl (by simp))
  show (⟨erase a.annots, erase a.name, erase a.refs, erase a.entries, default⟩ : Environment)
    = ⟨erase b.annots, erase b.name, erase b.refs, erase b.entries, default⟩
  rw [hannots, hname, hrefs, hentries]

/-- The same for `Flow`; the lists before and after its name are told by `RefList.tells_option`. -/
theorem Flow.erase_eq {a b : Flow} (h : Matches a.toJson b.toJson) : erase a = erase b := by
  have hannots := Annot.tells.ofList _ _ (h.field "annotations" rfl rfl (by simp))
  have hbefore := RefList.tells_option _ _ (h.field "before" rfl rfl (by simp))
  have hname := Ident.tells _ _ (h.field "name" rfl rfl (by simp))
  have hafter := RefList.tells_option _ _ (h.field "after" rfl rfl (by simp))
  have hentries := Flow.Entry.tells.ofList _ _ (h.field "items" rfl rfl (by simp))
  show (⟨erase a.annots, erase a.before, erase a.name, erase a.after, erase a.entries,
      default⟩ : Flow)
    = ⟨erase b.annots, erase b.before, erase b.name, erase b.after, erase b.entries, default⟩
  rw [hannots, hbefore, hname, hafter, hentries]

/-- The same for `FlowAlias`, a flow that stands for others. -/
theorem FlowAlias.erase_eq {a b : FlowAlias} (h : Matches a.toJson b.toJson) :
    erase a = erase b := by
  have hannots := Annot.tells.ofList _ _ (h.field "annotations" rfl rfl (by simp))
  have hname := Ident.tells _ _ (h.field "name" rfl rfl (by simp))
  have htargets := RefList.tells _ _ (h.field "targets" rfl rfl (by simp))
  show (⟨erase a.annots, erase a.name, erase a.targets, default⟩ : FlowAlias)
    = ⟨erase b.annots, erase b.name, erase b.targets, default⟩
  rw [hannots, hname, htargets]

/-- A parameter of a function can be told by the fields `variadic`, `name` and `default`. -/
theorem Param.tells : Tells Param.toJson := by
  intro a b h
  have hfields := Matches.of_shape h
  have hvariadic : a.variadic = b.variadic :=
    Json.bool.inj (hfields.field "variadic" rfl rfl (by simp))
  have hname := Ident.tells _ _ (hfields.field "name" rfl rfl (by simp))
  have hfallback := StrLit.tells.ofOption _ _ (hfields.field "default" rfl rfl (by simp))
  show (⟨a.variadic, erase a.name, erase a.fallback, default⟩ : Param)
    = ⟨b.variadic, erase b.name, erase b.fallback, default⟩
  rw [hvariadic, hname, hfallback]

/-- The same for `Fn`. -/
theorem Fn.erase_eq {a b : Fn} (h : Matches a.toJson b.toJson) : erase a = erase b := by
  have hannots := Annot.tells.ofList _ _ (h.field "annotations" rfl rfl (by simp))
  have hname := Ident.tells _ _ (h.field "name" rfl rfl (by simp))
  have hparams := Param.tells.ofList _ _ (h.field "params" rfl rfl (by simp))
  have hbody := Command.tells.ofList _ _ (h.field "body" rfl rfl (by simp))
  show (⟨erase a.annots, erase a.name, erase a.params, erase a.body, default⟩ : Fn)
    = ⟨erase b.annots, erase b.name, erase b.params, erase b.body, default⟩
  rw [hannots, hname, hparams, hbody]

/-- The same for `Activity`. -/
theorem Activity.erase_eq {a b : Activity} (h : Matches a.toJson b.toJson) :
    erase a = erase b := by
  have hannots := Annot.tells.ofList _ _ (h.field "annotations" rfl rfl (by simp))
  have hname := Ident.tells _ _ (h.field "name" rfl rfl (by simp))
  have hprop : Tells Property.toJson := fun _ _ h => Property.erase_eq (.of_shape h)
  have hprops := hprop.ofList _ _ (h.field "props" rfl rfl (by simp))
  show (⟨erase a.annots, erase a.name, erase a.props, default⟩ : Activity)
    = ⟨erase b.annots, erase b.name, erase b.props, default⟩
  rw [hannots, hname, hprops]

/-- A member of a module can be told: its tag says which constructor of `Member` it is. -/
theorem Member.tells : Tells Member.toJson := by
  intro m n h
  cases m <;> cases n
  case property.property p q => exact congrArg Member.property (Property.erase_eq (.of_tagged h))
  case environment.environment e f =>
    exact congrArg Member.environment (Environment.erase_eq (.of_tagged h))
  case flow.flow x y => exact congrArg Member.flow (Flow.erase_eq (.of_tagged h))
  case flowAlias.flowAlias x y =>
    exact congrArg Member.flowAlias (FlowAlias.erase_eq (.of_tagged h))
  case fn.fn x y => exact congrArg Member.fn (Fn.erase_eq (.of_tagged h))
  case activity.activity a b => exact congrArg Member.activity (Activity.erase_eq (.of_tagged h))
  -- members of different constructs have different tags
  all_goals exact absurd (tag_eq h rfl rfl) (by simp)

/-! ## Modules and documents -/

/-- The same for `Module`, with the list of its members. -/
theorem Module.erase_eq {a b : Module} (h : Matches a.toJson b.toJson) : erase a = erase b := by
  have hannots := Annot.tells.ofList _ _ (h.field "annotations" rfl rfl (by simp))
  have hname := Ident.tells _ _ (h.field "name" rfl rfl (by simp))
  have hrefs := RefList.tells_option _ _ (h.field "refs" rfl rfl (by simp))
  have hmembers := Member.tells.ofList _ _ (h.field "items" rfl rfl (by simp))
  show (⟨erase a.annots, erase a.name, erase a.refs, erase a.members, default⟩ : Module)
    = ⟨erase b.annots, erase b.name, erase b.refs, erase b.members, default⟩
  rw [hannots, hname, hrefs, hmembers]

/-- Where external modules come from can be told: its tag says which constructor of `Origin` it
is. -/
theorem Origin.tells : Tells Origin.toJson := by
  rintro (⟨place, s⟩ | ⟨url, channel, s⟩) (⟨place', s'⟩ | ⟨url', channel', s'⟩) h
  · have hplace := StrLit.tells _ _ ((Matches.of_tagged h).field "path" rfl rfl (by simp))
    show Origin.path (erase place) default = .path (erase place') default
    rw [hplace]
  · exact absurd (tag_eq h rfl rfl) (by simp)
  · exact absurd (tag_eq h rfl rfl) (by simp)
  · have hfields := Matches.of_tagged h
    have hurl := StrLit.tells _ _ (hfields.field "url" rfl rfl (by simp))
    have hchannel := StrLit.tells _ _ (hfields.field "channel" rfl rfl (by simp))
    show Origin.git (erase url) (erase channel) default
      = .git (erase url') (erase channel') default
    rw [hurl, hchannel]

/-- The same for `External`, by its names and its origin. -/
theorem External.erase_eq {a b : External} (h : Matches a.toJson b.toJson) :
    erase a = erase b := by
  have hnames := Ident.tells.ofList _ _ (h.field "names" rfl rfl (by simp))
  have horigin := Origin.tells _ _ (h.field "source" rfl rfl (by simp))
  show (⟨erase a.names, erase a.origin, default⟩ : External)
    = ⟨erase b.names, erase b.origin, default⟩
  rw [hnames, horigin]

/-- An item of a document can be told: its tag says which constructor of `Item` it is. -/
theorem Item.tells : Tells Item.toJson := by
  rintro (m | e) (m' | e') h
  · exact congrArg Item.module (Module.erase_eq (.of_tagged h))
  · exact absurd (tag_eq h rfl rfl) (by simp)
  · exact absurd (tag_eq h rfl rfl) (by simp)
  · exact congrArg Item.external (External.erase_eq (.of_tagged h))

/-- Documents for which `sameTree` is true differ at most in their spans. -/
theorem Document.erase_eq_of_sameTree {d e : Document} (h : sameTree d e = true) :
    erase d = erase e := by
  have hshape : d.toJson.shape = e.toJson.shape := beq_iff_eq.1 h
  have hitems := Item.tells.ofList _ _ ((Matches.of_shape hshape).field "items" rfl rfl (by simp))
  show (⟨erase d.items, default⟩ : Document) = ⟨erase e.items, default⟩
  rw [hitems]

end Gxl
