import Gxl.Proofs.Document.Faithful
import Gxl.Proofs.Document.Strokes
import Gxl.Proofs.Error.Pointers
import Gxl.Proofs.Grammar.Indexed

/-!
# Nothing is refused

A source is cut at byte offsets wherever it is read: by the scanner, for the text of a token, for
the text of a node, and to take the quotes off a string literal.  An offset that lies inside a
character or past the end is refused, and so are two offsets in the wrong order, an index behind the
tokens that have been looked at, and a number that would become negative.

None of this happens, whatever the source (`nothing_refused`).  The scanner, the grammar and the
writer have been run with all of their cuts, indices and differences checked, and do what they do
unchecked.  What is left for this module is the cuts that others make with the spans and positions
that come out: a span of a node goes from the start of one token to the end of another, both of
which lie between two characters, and the position of an error marks a place of the source.
-/

namespace Gxl

variable {source : String}

/-! ## Spans between cuts -/

/-- What `slice?` cuts out is a middle part, between the two offsets. -/
theorem Text.eq_append_of_slice? {cs mid : List Char} {start stop : Nat}
    (h : slice? cs start stop = some mid) :
    ∃ front back, cs = front ++ mid ++ back ∧ byteSize front = start ∧
      byteSize (front ++ mid) = stop := by
  rw [slice?] at h
  split at h
  · rename_i hle
    obtain ⟨⟨front, rest⟩, hfront, hrest⟩ := Option.bind_eq_some_iff.1 h
    obtain ⟨⟨mid, back⟩, hmid, rfl⟩ := Option.map_eq_some_iff.1 hrest
    obtain ⟨rfl, hstart⟩ := eq_append_of_splitBytes? hfront
    obtain ⟨rfl, hsize⟩ := eq_append_of_splitBytes? hmid
    refine ⟨front, back, (List.append_assoc ..).symm, hstart, ?_⟩
    dsimp only
    rw [byteSize_append, hstart, hsize, Nat.add_sub_cancel' hle]
  · simp at h

/-- Between two places of a source in order there is a text for `Span.text?`. -/
theorem exists_text_of_ends {s : Span} {front back front' back' : List Char}
    (hstart : source.toList = front ++ back) (hstop : source.toList = front' ++ back')
    (hs : s.start = Text.byteSize front) (hs' : s.stop = Text.byteSize front')
    (hle : s.start ≤ s.stop) : ∃ text, s.text? source = some text := by
  obtain ⟨mid, rfl, -⟩ := Text.exists_append_of_byteSize_le (hstart.symm.trans hstop)
    (by omega)
  refine ⟨String.ofList mid, ?_⟩
  rw [Span.text?, hs, hs', hstop, Text.byteSize_append, Text.slice?_append, Option.map_some]

/-- A span that covers tokens in order cuts a text out of their source. -/
theorem Span.Covers.exists_text {s : Span} {u : List Token} (h : s.Covers u)
    (hu : InOrder source u) : ∃ text, s.text? source = some text := by
  obtain ⟨⟨t, ht, hstart⟩, z, hz, hstop⟩ := h.exists_ends
  obtain ⟨-, -, front, back, hsource, hstands⟩ := hu.stands t ht
  obtain ⟨-, -, _, _, -, hstands'⟩ := hu.stands z hz
  obtain ⟨mid, hmid, -⟩ := Option.map_eq_some_iff.1 hstands'.covers
  obtain ⟨front', back', hsource', -, hend⟩ := Text.eq_append_of_slice? hmid
  refine exists_text_of_ends hsource hsource' ?_ (hstop.trans hend.symm)
    (Nat.le_of_lt (h.start_lt_stop hu))
  exact (congrArg Position.offset hstart).trans hstands.marks.offset

/-- Every node of a tree cuts a text out of its source, by `spans_faithful`. -/
theorem exists_text_of_parse {t : Document} (h : parse source = .ok t) :
    ∀ n ∈ t.root :: t.below.nodes, ∃ text, n.span.text? source = some text := by
  obtain ⟨ts, hts, hspan, hread⟩ := readFrom_of_parse h
  have hu := inOrder_of_tokenize hts
  refine List.forall_mem_cons.2 ⟨?_, fun n hn => ?_⟩
  · have hroot : t.root.span = ⟨0, source.utf8ByteSize, 1, 1⟩ := hspan
    refine exists_text_of_ends (List.nil_append _).symm (List.append_nil _).symm ?_ ?_ ?_
    · rw [hroot]
      rfl
    · rw [hroot, Text.byteSize_toList]
    · rw [hroot]
      exact Nat.zero_le _
  · obtain ⟨v, hv, hn⟩ := hread.nodes n hn
    exact hn.covers.exists_text (hu.sublist hv.sublist)

/-! ## Tokens that are handed out -/

/-- The text of a string literal without its first and its last byte, cut as `slice?` cuts. -/
def Rule.unquote? (text : String) : Option String := do
  let stop ← Text.back? text.utf8ByteSize 1
  return String.ofList (← Text.slice? text.toList 1 stop)

/-- Between two quotes the bytes are cut where the characters are, so that `unquote?` is
`unquote`. -/
theorem Rule.unquote?_eq {text : String} {raw : List Char}
    (h : text.toList = '"' :: (raw ++ ['"'])) : unquote? text = some (unquote text) := by
  have hsize : text.utf8ByteSize = 1 + Text.byteSize raw + 1 := by
    rw [← Text.byteSize_toList, h, Text.byteSize_cons, Text.byteSize_append]
    exact (Nat.add_assoc ..).symm
  have hslice : Text.slice? text.toList 1 (1 + Text.byteSize raw) = some raw := by
    rw [h]
    exact Text.slice?_append ['"'] raw ['"']
  have hraw : text.toList.tail.dropLast = raw := by simp [h]
  rw [unquote?, hsize, Text.back?_add, Option.bind_eq_bind, Option.bind_some, hslice, unquote, hraw]
  rfl

namespace Cursor

/-- A cursor in a source (`Cursor.In`) stays in it, however often it is asked for a token. -/
theorem In.afterRequests {c : Cursor} (h : c.In source) (n : Nat) :
    (c.afterRequests n).In source := by
  induction n generalizing c with
  | zero => exact h
  | succ n ih => exact ih h.next

/-- A token that is handed out has the text of its span, and a string literal can be taken out of
its quotes by `unquote?`. -/
theorem In.cuts {c : Cursor} (h : c.In source) {t : Token} (ht : c.next.1 = .ok t) :
    t.span.text? source = some t.text ∧
      (t.kind = .str → Rule.unquote? t.text = some (Rule.unquote t.text)) := by
  have hnext : c.next = (.ok t, c.next.2) := Prod.ext ht rfl
  obtain ⟨gap, -, hrest, hposition, hspan, -⟩ := next_ok hnext
  refine ⟨?_, fun hkind => ?_⟩
  · rw [In, hrest] at h
    rw [hspan, hposition, Position.after_append, text?_after (textFrom?_after h),
      String.ofList_toList]
  · obtain ⟨_, -, hcuts, -⟩ := c.skipBlanks.cutsOff_of_read ht
    rw [hkind] at hcuts
    obtain ⟨raw, htext, -⟩ := hcuts
    exact Rule.unquote?_eq htext

end Cursor

/-! ## Reports -/

/-- The line of a source that an error lies on, and what stands before the caret below it, by
checked subtraction.  Lines and columns are counted from one, and the parts of a text from zero. -/
def Error.caret? (e : Error) (source : String) : Option (List Char × List Char) := do
  let above ← Text.back? e.position.line 1
  let before ← Text.back? e.position.column 1
  let line := ((Text.lines source.toList)[above]?).getD []
  return (line, (line.take before).map fun c => if c = '\t' then '\t' else ' ')

/-- For an error of the source, `caret?` finds the line and the padding that the report shows. -/
theorem Error.caret?_eq {e : Error} (h : e.IsOf source) :
    e.caret? source = some (e.sourceLine source, e.padding source) := by
  obtain ⟨front, back, -, hmarks, -⟩ := exists_place_of_error h
  have hline := hmarks.line
  have hcolumn := hmarks.column
  have habove : Text.back? e.position.line 1 = some (e.position.line - 1) := if_pos (by omega)
  have hbefore : Text.back? e.position.column 1 = some (e.position.column - 1) := if_pos (by omega)
  rw [caret?, habove, hbefore]
  rfl

/-- Nothing is refused, whatever the source.

* Asked for tokens as often as one likes, a pointer into the source cuts it at offsets and gives
  what the cursor gives.  Every token that is handed out has the text that its span cuts out, and a
  string literal is cut free of its quotes.
* The grammar gets at the tokens ahead by an index, which is in range once tokens have been looked
  at up to it, and builds what it builds.
* An error lies at a place of the source, on a line and in a column that are counted from one.
* Every node of a tree cuts a text out of the source.  Its items are written without a way up from
  the outermost level, and the writer is back there behind every one of them. -/
theorem nothing_refused (source : String) :
    (∀ n, Pointer.start.answers? source n = some ((Cursor.ofSource source).steps n)) ∧
    (∀ n t, .ok t ∈ (Cursor.ofSource source).steps n → t.span.text? source = some t.text ∧
      (t.kind = .str → Rule.unquote? t.text = some (Rule.unquote t.text))) ∧
    parse? source = some (parse source) ∧
    (∀ n (r r' : Reader Pointer), r.fill? source n = some (.ok (), r') → n < r'.ahead.length) ∧
    (∀ e : Error, e.IsOf source → (∃ rest, textFrom? source e.position.offset = some rest) ∧
      e.caret? source = some (e.sourceLine source, e.padding source)) ∧
    ∀ t, parse source = .ok t →
      (∀ n ∈ t.root :: t.below.nodes, ∃ text, n.span.text? source = some text) ∧
      ∀ indent, Page.blank.items? indent t.items = some ⟨t.print indent, 0⟩ ∧
        ∀ i ∈ t.items, ∀ out,
          Page.write? indent ⟨out, 0⟩ i.strokes = some ⟨out ++ i.print indent, 0⟩ := by
  have hin := Cursor.in_ofSource source
  refine ⟨Pointer.answers?_eq hin, ?_, parse?_eq source, ?_, ?_, ?_⟩
  · intro n t ht
    rw [Cursor.steps_eq_map] at ht
    obtain ⟨i, -, hi⟩ := List.mem_map.1 ht
    exact (hin.afterRequests i).cuts hi
  · intro n r r' hfill
    exact Reader.lt_of_fill? hfill
  · intro e he
    obtain ⟨front, back, hsource, hmarks, -⟩ := exists_place_of_error he
    exact ⟨⟨back, textFrom?_eq_some_iff.2 ⟨front, hsource, hmarks.offset.symm⟩⟩, e.caret?_eq he⟩
  · intro t ht
    refine ⟨exists_text_of_parse ht, fun indent => ⟨Page.items?_eq indent t, ?_⟩⟩
    intro i _ out
    exact Page.write?_item indent out i

end Gxl
