import Gxl.Proofs.Document.RoundTrip
import Gxl.Proofs.Grammar.ReadFrom

/-!
# Faithful spans

The spans of a tree say where its nodes stand in the source (`spans_faithful`).  A node starts where
a token starts and ends where a token ends, at the line and the column of its start; the nodes below
it lie within it, one behind the other, and the text of a leaf is the one that its span cuts out of
the source.

All of it comes from two facts.  The nodes are read from the tokens of the source, each from a
stretch of them (`Rule.takes_document`), and the tokens stand in the source one behind the other,
each at its place (`InOrder`).
-/

namespace Gxl

/-! ## Tokens in order -/

/-- Tokens that stand in a source, one behind the other: each starts where one before it has ended
or further on, and stands in the source by itself (`Token.StandsBehind`). -/
structure InOrder (source : String) (u : List Token) : Prop where
  stands : ∀ t ∈ u, t.span.start < t.span.stop ∧ t.span.stop ≤ source.utf8ByteSize ∧
    ∃ front back, source.toList = front ++ back ∧ t.StandsBehind source front
  behind : u.Pairwise fun t z => t.span.stop ≤ z.span.start

/-- The tokens along a `Cursor.Run` from the start of a source are in order. -/
theorem Cursor.Run.inOrder {source : String} {ts : List Token} {d : Cursor}
    (h : Run (ofSource source) ts d) : InOrder source ts := by
  obtain ⟨-, hspans, hpair⟩ := h.spans
  obtain ⟨ps, rfl, hsource, hposition, hstands⟩ := h.standsBehind
  have hend : d.position.offset ≤ source.utf8ByteSize := by
    rw [hposition, (Position.marks_after_start _).offset, ← Text.byteSize_toList, hsource,
      Text.byteSize_append]
    exact Nat.le_add_right _ _
  refine ⟨fun t ht => ?_, hpair⟩
  obtain ⟨-, hlt, hle, -⟩ := hspans t ht
  refine ⟨hlt, Nat.le_trans hle hend, ?_⟩
  obtain ⟨p, hp, rfl⟩ := List.mem_map.1 ht
  obtain ⟨before, after, rfl⟩ := List.append_of_mem hp
  refine ⟨Piece.joined before ++ p.gap, p.token.text.toList ++ (Piece.joined after ++ d.rest), ?_,
    hstands before p after rfl⟩
  simp [hsource, Piece.text]

/-- Tokens left out of tokens in order leave them in order. -/
theorem InOrder.sublist {source : String} {u v : List Token} (h : InOrder source u)
    (hv : v.Sublist u) : InOrder source v :=
  ⟨fun t ht => h.stands t (hv.subset ht), h.behind.sublist hv⟩

/-- The tokens of a source, as `tokenize` lists them but for its comments, are in order. -/
theorem inOrder_of_tokenize {source : String} {ts : List Token} (h : tokenize source = .ok ts) :
    InOrder source (ts.filter fun t => t.kind != .comment && t.kind != .eof) := by
  rw [tokenize, Cursor.toList_eq_stream] at h
  obtain ⟨ts₀, d, hrun, ⟨x, d', -, hx, hstream⟩ | ⟨e, d', -, hstream⟩⟩ :=
    (Cursor.ofSource source).exists_run_end
  · rw [hstream] at h
    obtain rfl := Except.ok.inj h
    rw [List.filter_append]
    have hend : [x].filter (fun t => t.kind != .comment && t.kind != .eof) = [] := by simp [hx]
    rw [hend, List.append_nil]
    exact hrun.inOrder.sublist List.filter_sublist
  · rw [hstream] at h
    simp at h

/-! ## Spans over tokens in order -/

variable {source : String} {u : List Token} {s : Span}

/-- A span that covers tokens starts with the first of them and ends with the last
(`Span.Covers`). -/
theorem Span.Covers.exists_ends (h : s.Covers u) :
    (∃ t ∈ u, s.startPosition = t.span.startPosition) ∧ ∃ z ∈ u, s.stop = z.span.stop := by
  obtain ⟨t, ht, z, hz, rfl⟩ := h
  exact ⟨⟨t, List.mem_of_mem_head? ht, rfl⟩, z, List.mem_of_mem_getLast? hz, rfl⟩

/-- Every token of `u` lies within a span that covers `u`. -/
theorem Span.Covers.le_of_mem (h : s.Covers u) (hu : InOrder source u) {t : Token} (ht : t ∈ u) :
    s.start ≤ t.span.start ∧ t.span.stop ≤ s.stop := by
  obtain ⟨x, hx, z, hz, rfl⟩ := h
  constructor
  · show x.span.start ≤ t.span.start
    obtain ⟨v, rfl⟩ := List.head?_eq_some_iff.1 hx
    rcases List.mem_cons.1 ht with rfl | ht
    · exact Nat.le_refl _
    · have hlt := (hu.stands x (by simp)).1
      have hle := (List.pairwise_cons.1 hu.behind).1 t ht
      omega
  · show t.span.stop ≤ z.span.stop
    obtain ⟨v, rfl⟩ := List.getLast?_eq_some_iff.1 hz
    rcases List.mem_append.1 ht with ht | ht
    · have hlt := (hu.stands z (by simp)).1
      have hle := (List.pairwise_append.1 hu.behind).2.2 t ht z (by simp)
      omega
    · obtain rfl := List.mem_singleton.1 ht
      exact Nat.le_refl _

/-- A span that covers tokens in order has text in it. -/
theorem Span.Covers.start_lt_stop (h : s.Covers u) (hu : InOrder source u) :
    s.start < s.stop := by
  obtain ⟨-, z, hz, -⟩ := h.exists_ends
  have hlt := (hu.stands z hz).1
  have hle := h.le_of_mem hu hz
  omega

/-- Each of the spans in a row (`InRow`) starts and ends with tokens of `u`. -/
theorem InRow.exists_ends {ss : List Span} (h : InRow u ss) :
    ∀ s ∈ ss, (∃ t ∈ u, s.start = t.span.start) ∧ ∃ z ∈ u, s.stop = z.span.stop := by
  induction h with
  | nil u => simp
  | @cons skipped u rest s ss covers _ ih =>
    refine List.forall_mem_cons.2 ⟨?_, fun s' hs' => ?_⟩
    · obtain ⟨⟨t, ht, hstart⟩, z, hz, hstop⟩ := covers.exists_ends
      exact ⟨⟨t, by simp [ht], congrArg Position.offset hstart⟩, z, by simp [hz], hstop⟩
    · obtain ⟨⟨t, ht, hstart⟩, z, hz, hstop⟩ := ih s' hs'
      exact ⟨⟨t, by simp [ht], hstart⟩, z, by simp [hz], hstop⟩

/-- Spans in a row stand one behind the other, as the tokens that they cover are in order. -/
theorem InRow.pairwise {ss : List Span} (h : InRow u ss) (hu : InOrder source u) :
    ss.Pairwise fun s s' => s.start < s'.start ∧ s.stop ≤ s'.start := by
  induction h with
  | nil u => exact .nil
  | @cons skipped u rest s ss covers row ih =>
    have hsuffix : (u ++ rest).Sublist (skipped ++ (u ++ rest)) := List.sublist_append_right _ _
    have hu := hu.sublist hsuffix
    refine List.pairwise_cons.2 ⟨fun s' hs' => ?_, ih (hu.sublist (List.sublist_append_right _ _))⟩
    -- the last token of the first span stands before the first token of any other
    obtain ⟨-, z, hz, hstop⟩ := covers.exists_ends
    obtain ⟨⟨t, ht, hstart⟩, -⟩ := row.exists_ends s' hs'
    have hlt := covers.start_lt_stop (hu.sublist (List.sublist_append_left _ _))
    have hle := (List.pairwise_append.1 hu.behind).2.2 z hz t ht
    omega

/-! ## Nodes -/

/-- A node is faithful to a source: its span lies in the source, at the line and column of its
start; the nodes directly below it lie within it, one behind the other; and a leaf stands for the
text of its span.  Its line and column are at most one beyond its start, so in a source of fewer
than `2 ^ 32 - 1` bytes they fit into 32 bits. -/
structure Node.Faithful (source : String) (n : Node) : Prop where
  ordered : n.span.start ≤ n.span.stop
  bounded : n.span.stop ≤ source.utf8ByteSize
  marks : ∃ front back, source.toList = front ++ back ∧ n.span.startPosition.Marks front
  counters : n.span.line ≤ n.span.start + 1 ∧ n.span.column ≤ n.span.start + 1
  nested : ∀ s ∈ n.parts, n.span.start ≤ s.start ∧ s.stop ≤ n.span.stop
  increasing : n.parts.Pairwise fun s s' => s.start < s'.start ∧ s.stop ≤ s'.start
  text : ∀ text ∈ n.text, n.span.text? source = some text

/-- A node that is read from tokens of a source (`Node.ReadFrom`) is faithful to it. -/
theorem Node.ReadFrom.faithful {n : Node} (h : n.ReadFrom u) (hu : InOrder source u) :
    n.Faithful source := by
  obtain ⟨⟨t, ht, hstart⟩, z, hz, hstop⟩ := h.covers.exists_ends
  obtain ⟨-, -, front, back, hsource, hstands⟩ := hu.stands t ht
  have hmarks : n.span.startPosition.Marks front := hstart ▸ hstands.marks
  refine ⟨Nat.le_of_lt (h.covers.start_lt_stop hu), ?_, ⟨front, back, hsource, hmarks⟩, hmarks.le,
    ?_, h.parts.pairwise hu, ?_⟩
  · rw [hstop]
    exact (hu.stands z hz).2.1
  · intro s hs
    obtain ⟨⟨x, hx, hstart⟩, y, hy, hstop⟩ := h.parts.exists_ends s hs
    rw [hstart, hstop]
    exact ⟨(h.covers.le_of_mem hu hx).1, (h.covers.le_of_mem hu hy).2⟩
  · intro text htext
    obtain ⟨x, rfl, rfl⟩ := h.text text htext
    obtain ⟨-, -, front, back, -, hstands⟩ := hu.stands x (by simp)
    have hspan : n.span = x.span := by
      obtain ⟨x', hx', z', hz', hspan⟩ := h.covers
      obtain rfl : x = x' := Option.some.inj hx'
      obtain rfl : x = z' := Option.some.inj hz'
      exact hspan
    rw [hspan]
    exact hstands.covers

/-- The root of a document that is read from tokens of a source is `Faithful` to it, with the whole
source for its span. -/
theorem Document.faithful_root {d : Document} (hspan : d.span = ⟨0, source.utf8ByteSize, 1, 1⟩)
    (h : d.below.ReadFrom u) (hu : InOrder source u) : d.root.Faithful source := by
  have hroot : d.root.span = ⟨0, source.utf8ByteSize, 1, 1⟩ := hspan
  refine ⟨?_, ?_, ⟨[], source.toList, rfl, ?_⟩, ?_, ?_, h.roots.pairwise hu, ?_⟩
  · rw [hroot]
    exact Nat.zero_le _
  · exact Nat.le_of_eq (congrArg Span.stop hroot)
  · rw [hroot]
    exact ⟨rfl, rfl, rfl⟩
  · rw [hroot]
    exact ⟨Nat.le_refl _, Nat.le_refl _⟩
  · intro s hs
    obtain ⟨-, z, hz, hstop⟩ := h.roots.exists_ends s hs
    rw [hroot, hstop]
    exact ⟨Nat.zero_le _, (hu.stands z hz).2.1⟩
  · intro text htext
    exact absurd htext (Option.not_mem_none text)

/-- A document is read from all tokens of its source but for the comments: the form in which `parse`
meets `Forest.ReadFrom`. -/
theorem readFrom_of_parse {t : Document} (h : parse source = .ok t) :
    ∃ ts, tokenize source = .ok ts ∧ t.span = ⟨0, source.utf8ByteSize, 1, 1⟩ ∧
      t.below.ReadFrom (ts.filter fun x => x.kind != .comment && x.kind != .eof) := by
  have hbetween : (Reader.ofSource source).Between 0 [] (significantTokens source)
      (lexFault source) := ⟨Reader.holds_ofFeed (Cursor.gives_stream _), rfl⟩
  obtain ⟨w, rest, hsplit, -, hspan, hread, x, rest', rfl, hx⟩ :=
    Rule.takes_document (sourceSize source) _ _ 0 _ t hbetween (Prod.ext h rfl)
  obtain ⟨ts, hts, rfl⟩ := tokens_of_eof hsplit hx
  refine ⟨ts, hts, ?_, hread⟩
  rw [hspan, sourceSize, Text.byteSize_toList]

/-- The spans of a tree are `Faithful` to its source.  The root has the span of the whole source,
and every node, the root among them, lies in the source at the line and column of its start, which
are at most one beyond the start, has its children within it, one behind the other, and, if it is a
leaf, stands for the text of its span.  Every node but the root starts where a token that is no
comment starts, and ends where one ends. -/
theorem spans_faithful {source : String} {t : Document} (h : parse source = .ok t) :
    ∃ ts, tokenize source = .ok ts ∧ t.span = ⟨0, source.utf8ByteSize, 1, 1⟩ ∧
      t.root.Faithful source ∧
      ∀ n ∈ t.below.nodes, n.Faithful source ∧ n.span.start < n.span.stop ∧
        (∃ x ∈ ts, x.kind ≠ .comment ∧ x.kind ≠ .eof ∧
          n.span.startPosition = x.span.startPosition) ∧
        ∃ z ∈ ts, z.kind ≠ .comment ∧ z.kind ≠ .eof ∧ n.span.stop = z.span.stop := by
  obtain ⟨ts, hts, hspan, hread⟩ := readFrom_of_parse h
  have hu := inOrder_of_tokenize hts
  refine ⟨ts, hts, hspan, t.faithful_root hspan hread hu, fun n hn => ?_⟩
  obtain ⟨v, hv, hn⟩ := hread.nodes n hn
  have hmem : ∀ x ∈ v, x ∈ ts ∧ x.kind ≠ .comment ∧ x.kind ≠ .eof := by
    intro x hx
    simpa using hv.subset hx
  have hv := hu.sublist hv.sublist
  obtain ⟨⟨x, hx, hstart⟩, z, hz, hstop⟩ := hn.covers.exists_ends
  obtain ⟨hx, hxcomment, hxeof⟩ := hmem x hx
  obtain ⟨hz, hzcomment, hzeof⟩ := hmem z hz
  exact ⟨hn.faithful hv, hn.covers.start_lt_stop hv, ⟨x, hx, hxcomment, hxeof, hstart⟩,
    z, hz, hzcomment, hzeof, hstop⟩

/-- A module behind a comment, with an annotation, characters of two bytes, and the optional
semicolon, which belongs to no node. -/
def annotatedModule : String :=
  "# é\n#[a] mod m \x7b k = \"é\"; \x7d ;"

/-- The tree of `annotatedModule`. -/
def annotatedTree : Document :=
  ⟨[.module ⟨[⟨⟨"a", ⟨7, 8, 2, 3⟩⟩, [], ⟨5, 9, 2, 1⟩⟩], ⟨"m", ⟨14, 15, 2, 10⟩⟩, none,
    [.property ⟨⟨"k", ⟨18, 19, 2, 14⟩⟩, .string ⟨"é", ⟨22, 26, 2, 18⟩⟩, ⟨18, 27, 2, 14⟩⟩],
    ⟨5, 29, 2, 1⟩⟩], ⟨0, 31, 1, 1⟩⟩

/-- The tree of `annotatedModule`, spans and all. -/
theorem parse_annotatedModule : parse annotatedModule = .ok annotatedTree := by
  decide +kernel

theorem spans_faithful_annotatedModule :
    parse annotatedModule = .ok annotatedTree ∧ annotatedTree.root.Faithful annotatedModule ∧
      ∀ n ∈ annotatedTree.below.nodes, n.Faithful annotatedModule := by
  obtain ⟨ts, -, -, hroot, hnodes⟩ := spans_faithful parse_annotatedModule
  exact ⟨parse_annotatedModule, hroot, fun n hn => (hnodes n hn).1⟩

end Gxl
