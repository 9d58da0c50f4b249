import Gxl.Proofs.Document.Faithful
import Gxl.Proofs.Grammar.Trail

/-!
# The log of an accepted source

The log of an accepted source can be told from its tree (`log_mirrors_tree`): it has a record for
the start, one for each item with those of the builtin commands within it, and one for the end.

The names of builtin commands among the tokens are those of the calls in the tree.  The ones within
the span of an item are those of its own calls, since the chunks of the items stand one behind the
other.
-/

namespace Gxl

/-! ## The log of a tree -/

/-- The `Record` of the call of a builtin command. -/
def BuiltinCall.record (c : BuiltinCall) : Record :=
  ⟨.trace, "gxl_core::lexer",
    "builtin '" ++ c.builtin.name ++ "' at " ++ toString c.span.line ++ ":"
      ++ toString c.span.column⟩

/-- The `Record` of the start of an item. -/
def Item.record (i : Item) : Record :=
  ⟨.trace, "gxl_core::parser",
    "top-level item at " ++ toString i.span.line ++ ":" ++ toString i.span.column
      ++ " starting with " ++ i.opening.label⟩

/-- The records of an item: its own `Item.record`, and those of the calls of builtin commands within
it. -/
def Item.log (i : Item) : List Record :=
  i.record :: i.builtinCalls.map BuiltinCall.record

/-- The calls of builtin commands within a document, those of each item in order. -/
def Document.builtinCalls (d : Document) : List BuiltinCall :=
  d.items.flatMap Item.builtinCalls

/-- The records of reading a document from a number of bytes: how many bytes, the `Item.log` of each
item, how many items. -/
def Document.log (bytes : Nat) (d : Document) : List Record :=
  ⟨.debug, "gxl_core::parser", "parsing " ++ toString bytes ++ " bytes"⟩ :: d.items.flatMap Item.log
    ++ [⟨.debug, "gxl_core::parser", "parsed " ++ toString d.items.length ++ " top-level items"⟩]

/-- The events of an item, turned into records, are its `log`. -/
theorem Item.record_events (i : Item) : i.events.map Event.record = i.log := by
  rw [Item.events, List.map_cons, List.map_map]
  rfl

/-- The events of reading an accepted source are those of its items (`Item.events`), between `begun`
and `done`. -/
theorem parseEvents_of_parse {source : String} {t : Document} (h : parse source = .ok t) :
    parseEvents source = .begun (sourceSize source) :: t.items.flatMap Item.events
      ++ [.done t.items.length] := by
  rcases hrun : (Rule.document (sourceSize source)).run (Reader.ofSource source) with ⟨e | d, r⟩
  · simp [parse, hrun] at h
  · obtain rfl : d = t := by simpa [parse, hrun] using h
    have htracks : (Reader.ofSource source).Tracks
        ((significantTokens source).flatMap Event.ofToken) :=
      ⟨⟨_, _, Cursor.gives_stream _, rfl⟩, Nat.zero_le 2⟩
    have hitems : Rule.items.run (Reader.ofSource source) = (.ok d.items, r) := by
      rw [Rule.run_document, Rule.run_bind] at hrun
      rcases hitems : Rule.items.run (Reader.ofSource source) with ⟨e | is, r'⟩ <;>
        rw [hitems] at hrun
      · simp at hrun
      · obtain ⟨rfl, rfl⟩ : ⟨is, _⟩ = d ∧ r' = r := by simpa using hrun
        rfl
    have hevents : r.events = d.items.flatMap Item.events :=
      Rule.events_of_items (Reader.between_ofSource source) htracks hitems
    rw [parseEvents, hrun, ← hevents]

/-! ## Names within a span -/

/-- The token `t` lies within the span `s`. -/
def Span.Contains (s : Span) (t : Token) : Prop :=
  s.start ≤ t.span.start ∧ t.span.stop ≤ s.stop

instance (s : Span) (t : Token) : Decidable (s.Contains t) :=
  inferInstanceAs (Decidable (_ ∧ _))

section

variable {source : String} {s : Span} {u v w : List Token}

/-- Leaving out tokens that name nothing leaves all of the `builtinNames`. -/
theorem builtinNames_filter {p : Token → Bool} (hp : ∀ t ∈ u, t.kind = .builtin → p t = true) :
    builtinNames (u.filter p) = builtinNames u := by
  rw [builtinNames, List.filter_filter, builtinNames]
  congr 1
  refine List.filter_congr fun t ht => ?_
  by_cases hkind : t.kind = .builtin
  · simp [hp t ht hkind]
  · simp [hkind]

/-- The name of a builtin command is no comment and not the end of the text, so no filter of these
two leaves it out. -/
theorem significant_of_builtin (t : Token) (_ : t ∈ u) (hkind : t.kind = .builtin) :
    (t.kind != .comment && t.kind != .eof) = true := by
  simp [hkind]

/-- The `builtinNames` among tokens in order stand one behind the other. -/
theorem InOrder.pairwise_builtinNames (h : InOrder source u) :
    (builtinNames u).Pairwise fun p q => p.2.offset < q.2.offset := by
  refine List.pairwise_map.2 (List.Pairwise.filter _ ?_)
  refine h.behind.imp_of_mem fun {t z} ht _ hle => ?_
  exact Nat.lt_of_lt_of_le (h.stands t ht).1 hle

/-- Of tokens in order, those outside the chunk `w` that a span encloses do not lie within it. -/
theorem Span.Encloses.not_contains (h : s.Encloses w) (hu : InOrder source (u ++ w ++ v)) :
    (∀ t ∈ u, ¬ s.Contains t) ∧ ∀ t ∈ v, ¬ s.Contains t := by
  obtain ⟨x, hx, hcovers, -⟩ := h.exists_covers
  obtain ⟨⟨a, ha, hstart⟩, z, hz, hstop⟩ := hcovers.exists_ends
  obtain ⟨hfront, -, hback⟩ := List.pairwise_append.1 hu.behind
  constructor
  · rintro t ht ⟨hle, -⟩
    have hlt := (hu.stands t (by simp [ht])).1
    have hbefore := (List.pairwise_append.1 hfront).2.2 t ht a (hx.subset ha)
    have hoffset : s.start = a.span.start := congrArg Position.offset hstart
    omega
  · rintro t ht ⟨-, hle⟩
    have hlt := (hu.stands t (by simp [ht])).1
    have hbehind := hback z (by simp [hx.subset hz]) t ht
    omega

/-- The tokens of a chunk lie within the span that encloses it, but for a semicolon, which belongs
to no span. -/
theorem Span.Encloses.contains (h : s.Encloses w) (hw : InOrder source w) {t : Token} (ht : t ∈ w)
    (hkind : t.kind ≠ .semicolon) : s.Contains t := by
  obtain ⟨x, hx, hcovers, hrest⟩ := h.exists_covers
  exact hcovers.le_of_mem (hw.sublist hx.sublist) ((hrest t ht).resolve_right hkind)

/-- Among tokens in order, the names of builtin commands within a span are those of the chunk `w`
that it encloses. -/
theorem Span.Encloses.builtinNames_eq (h : s.Encloses w) (hu : InOrder source u) (hw : w <:+: u) :
    builtinNames (u.filter fun t => s.Contains t) = builtinNames w := by
  obtain ⟨front, back, rfl⟩ := hw
  obtain ⟨hfront, hback⟩ := h.not_contains hu
  have hinner : InOrder source w := hu.sublist (List.infix_append front w back).sublist
  have hnone : front.filter (fun t => s.Contains t) = [] ∧
      back.filter (fun t => s.Contains t) = [] := by
    simpa [List.filter_eq_nil_iff] using ⟨hfront, hback⟩
  rw [List.filter_append, List.filter_append, hnone.1, hnone.2, List.nil_append, List.append_nil]
  refine builtinNames_filter fun t ht hkind => decide_eq_true (h.contains hinner ht ?_)
  simp [hkind]

/-- Where tokens start one behind the other, the first token that `s` contains is the one that
starts where `s` starts. -/
theorem Span.Contains.head?_filter {t : Token} (h : s.Contains t) (ht : t ∈ u)
    (hstart : t.span.start = s.start) (hu : u.Pairwise fun x z => x.span.start < z.span.start) :
    (u.filter fun x => s.Contains x).head? = some t := by
  obtain ⟨front, back, rfl⟩ := List.append_of_mem ht
  have hnone : front.filter (fun x => s.Contains x) = [] := by
    refine List.filter_eq_nil_iff.2 fun x hx => ?_
    have hlt := (List.pairwise_append.1 hu).2.2 x hx t (by simp)
    simp only [decide_eq_true_eq]
    rintro ⟨hle, -⟩
    omega
  rw [List.filter_append, hnone, List.nil_append]
  simp [h]

/-- The tokens that `tokenize` lists start one behind the other. -/
theorem pairwise_start_of_tokenize {ts : List Token} (h : tokenize source = .ok ts) :
    ts.Pairwise fun x z => x.span.start < z.span.start := by
  have hpair := (Cursor.pairwise_start_stream (.ofSource source)).2
  rw [tokenize, Cursor.toList_eq_stream] at h
  split at h
  · exact Except.ok.inj h ▸ hpair
  · simp at h

end

/-! ## The log of a source -/

/-- An item mirrors the tokens of a source within its span: the first of them is of the kind that
the item starts with, at the place of the item, and the names of builtin commands among them are
those of its calls, in order. -/
structure Item.Mirrors (i : Item) (ts : List Token) : Prop where
  opening : ∃ x, (ts.filter fun x => i.span.Contains x).head? = some x ∧ x.kind = i.opening ∧
    x.span.startPosition = i.span.startPosition
  names : builtinNames (ts.filter fun x => i.span.Contains x) = i.builtinCalls.map BuiltinCall.named

/-- An item that is read from a chunk `w` of the tokens of a source mirrors the tokens of that
source. -/
theorem Item.ReadFrom.mirrors {source : String} {ts w : List Token} {i : Item} (h : i.ReadFrom w)
    (hts : tokenize source = .ok ts)
    (hw : w <:+: ts.filter fun x => x.kind != .comment && x.kind != .eof) : i.Mirrors ts := by
  have hu := inOrder_of_tokenize hts
  constructor
  · obtain ⟨x, y, v, rfl, hkind, hplace, -⟩ := h.exists_opening
    have hcontains : i.span.Contains x :=
      h.chunk.encloses.contains (hu.sublist hw.sublist) List.mem_cons_self
        (hkind ▸ i.opening_ne_semicolon)
    have hmem : x ∈ ts := List.mem_of_mem_filter (hw.subset List.mem_cons_self)
    exact ⟨x, hcontains.head?_filter hmem (congrArg Position.offset hplace)
      (pairwise_start_of_tokenize hts), hkind, hplace⟩
  · rw [← h.chunk.names, ← h.chunk.encloses.builtinNames_eq hu hw, List.filter_comm]
    exact (builtinNames_filter significant_of_builtin).symm

/-- The log of an accepted source mirrors its tree.  It is `Document.log`: a record with the number
of bytes, the log of each item in order, and a record with the number of items.  The names of
builtin commands among the tokens are those of `builtinCalls` in the tree, each once and in the
order in which the calls stand in the source, and each item `Mirrors` the tokens within its own
span. -/
theorem log_mirrors_tree {source : String} {t : Document} (h : parse source = .ok t) :
    (parseEvents source).map Event.record = t.log source.utf8ByteSize ∧
      t.builtinCalls.Pairwise (fun c c' => c.span.start < c'.span.start) ∧
      ∃ ts, tokenize source = .ok ts ∧ builtinNames ts = t.builtinCalls.map BuiltinCall.named ∧
        ∀ i ∈ t.items, i.Mirrors ts := by
  obtain ⟨ts, hts, heach⟩ := exists_chunks_of_parse h
  have hnames := heach.names fun _ _ hi => hi.chunk.names
  have hall : builtinNames ts = t.builtinCalls.map BuiltinCall.named :=
    (builtinNames_filter significant_of_builtin).symm.trans hnames
  refine ⟨?_, ?_, ts, hts, hall, fun i hi => ?_⟩
  · rw [parseEvents_of_parse h]
    simp [Document.log, Event.record, List.map_flatMap, Item.record_events, sourceSize,
      Text.byteSize_toList]
  · have hpair := (inOrder_of_tokenize hts).pairwise_builtinNames
    rw [hnames] at hpair
    exact (List.pairwise_map.1 hpair).imp fun hlt => hlt
  · obtain ⟨w, hw, hi⟩ := heach.exists_stretch hi
    exact hi.mirrors hts hw

/-- Two modules behind a comment, the first with an annotation and with calls of builtin commands in
an environment and in a flow, the second with one in a function. -/
def loggedItems : String :=
  "# gx.cmd ()\n#[a] mod m \x7b env e \x7b gx.echo (); \x7d flow @f \x7b gx.cmd # c\n (); \x7d \x7d "
    ++ "; mod n \x7b fn h () \x7b g(); gx.echo (); \x7d \x7d"

theorem log_mirrors_tree_loggedItems :
    ∃ t, parse loggedItems = .ok t ∧ t.items.map (·.builtinCalls.length) = [2, 1] ∧
      (parseEvents loggedItems).map Event.record = t.log loggedItems.utf8ByteSize ∧
      ∃ ts, tokenize loggedItems = .ok ts ∧
        builtinNames ts = t.builtinCalls.map BuiltinCall.named ∧ ∀ i ∈ t.items, i.Mirrors ts := by
  have hok : (parse loggedItems).toOption.map (fun t => t.items.map (·.builtinCalls.length))
      = some [2, 1] := by
    decide +kernel
  cases h : parse loggedItems with
  | error e => simp [h, Except.toOption] at hok
  | ok t =>
    obtain ⟨hlog, -, hnames⟩ := log_mirrors_tree h
    exact ⟨t, rfl, by simpa [h, Except.toOption] using hok, hlog, hnames⟩

end Gxl
