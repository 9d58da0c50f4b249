import Gxl.Proofs.Token.Run
import Mathlib.Data.List.Induction

/-!
# Nothing is lost

The tokens of a source and the blanks between them are the source: written one after the other they
give it back, up to the end of the text or to the fault that ends the reading (`stream_lossless`).
And every token says where it stands.  `Position.Marks` states what its three numbers have to be,
without regard to how a cursor counts: the bytes, the line feeds, and the characters since the last
line feed of the text before it.

A position counts no further than one beyond its offset, so the numbers of a source of fewer than
`2 ^ 32 - 1` bytes fit into 32 bits.
-/

namespace Gxl

/-! ## Positions -/

/-- The characters of `cs` behind its last line feed. -/
def Text.lastLine (cs : List Char) : List Char :=
  (cs.reverse.takeWhile (· != '\n')).reverse

/-- The position `p` is that of the end of the text `front`: its offset is the size of the text in
bytes, its line is one more than the number of line feeds, and its column one more than the number
of characters behind the last of these. -/
structure Position.Marks (p : Position) (front : List Char) : Prop where
  offset : p.offset = Text.byteSize front
  line : p.line = 1 + front.count '\n'
  column : p.column = 1 + (Text.lastLine front).length

namespace Text

/-- A text has no more characters than its `byteSize`. -/
theorem length_le_byteSize (cs : List Char) : cs.length ≤ byteSize cs := by
  induction cs with
  | nil => exact Nat.le_refl _
  | cons c cs ih =>
    have hpos := c.utf8Size_pos
    rw [List.length_cons, byteSize_cons]
    omega

/-- A line feed empties the `lastLine`, and any other character lengthens it by one. -/
theorem length_lastLine_concat (cs : List Char) (c : Char) :
    (lastLine (cs ++ [c])).length = if c = '\n' then 0 else (lastLine cs).length + 1 := by
  by_cases hc : c = '\n' <;> simp [lastLine, hc]

/-- The `lastLine` is no longer than the text. -/
theorem length_lastLine_le (cs : List Char) : (lastLine cs).length ≤ cs.length := by
  have hsub : cs.reverse.takeWhile (· != '\n') |>.Sublist cs.reverse := List.takeWhile_sublist _
  simpa [lastLine] using hsub.length_le

end Text

namespace Position

/-- Counting character by character from `start` gives a position that `Marks` the end of the
text. -/
theorem marks_after_start (front : List Char) : (start.after front).Marks front := by
  induction front using List.reverseRecOn with
  | nil => exact ⟨rfl, rfl, rfl⟩
  | append_singleton front c ih =>
    obtain ⟨hoffset, hline, hcolumn⟩ := ih
    rw [after_append, after_cons, after_nil]
    refine ⟨?_, ?_, ?_⟩
    · rw [offset_step, hoffset, Text.byteSize_append, Text.byteSize_cons, Text.byteSize_nil,
        Nat.add_zero]
    · by_cases hc : c = '\n'
      · simp only [step, hc, if_true, hline, List.count_append, List.count_singleton_self]
        omega
      · simp [step, hc, hline]
    · rw [Text.length_lastLine_concat]
      by_cases hc : c = '\n'
      · simp [step, hc]
      · simp only [step, hc, if_false, hcolumn]
        omega

/-- The line and the column of a position that `Marks` a text are at most one beyond its offset. -/
theorem Marks.le {p : Position} {front : List Char} (h : p.Marks front) :
    p.line ≤ p.offset + 1 ∧ p.column ≤ p.offset + 1 := by
  have hbytes := Text.length_le_byteSize front
  have hcount : front.count '\n' ≤ front.length := List.count_le_length
  have hlast := Text.length_lastLine_le front
  rw [h.line, h.column, h.offset]
  omega

end Position

/-! ## The pieces of a text -/

/-- A token and the blanks before it. -/
structure Piece where
  gap : List Char
  token : Token
  blank : ∀ c ∈ gap, Text.isBlank c = true

/-- What a piece takes of a text: its `blanks` and the text of its `token`. -/
def Piece.text (p : Piece) : List Char :=
  p.gap ++ p.token.text.toList

/-- The text that the pieces `ps` make up. -/
def Piece.joined (ps : List Piece) : List Char :=
  ps.flatMap Piece.text

@[simp] theorem Piece.joined_nil : Piece.joined [] = [] := rfl

@[simp] theorem Piece.joined_cons (p : Piece) (ps : List Piece) :
    Piece.joined (p :: ps) = p.text ++ Piece.joined ps := rfl

/-- Pieces one behind the other make up the texts that are `joined`. -/
@[simp] theorem Piece.joined_append (ps qs : List Piece) :
    Piece.joined (ps ++ qs) = Piece.joined ps ++ Piece.joined qs :=
  List.flatMap_append

namespace Cursor

/-- The text that a `Run` passes over is made up of its tokens and the blanks before them, and each
token stands behind the pieces and the blanks before it. -/
theorem Run.pieces {c d : Cursor} {ts : List Token} (h : Run c ts d) :
    ∃ ps : List Piece, ps.map Piece.token = ts ∧ c.rest = Piece.joined ps ++ d.rest ∧
      d.position = c.position.after (Piece.joined ps) ∧
      ∀ before p after, ps = before ++ p :: after →
        p.token.span = .between (c.position.after (Piece.joined before ++ p.gap))
          (c.position.after (Piece.joined before ++ p.text)).offset := by
  induction h with
  | nil c => exact ⟨[], rfl, rfl, rfl, by simp⟩
  | @cons c c' d t ts h ht _ ih =>
    obtain ⟨gap, hgap, hrest, hposition, hspan, -, -⟩ := next_ok h
    obtain ⟨ps, rfl, hrest', hposition', hplaced⟩ := ih
    refine ⟨⟨gap, t, hgap⟩ :: ps, rfl, ?_, ?_, ?_⟩
    · simp [hrest, hrest', Piece.text]
    · rw [hposition', hposition, ← Position.after_append]
      rfl
    · rintro (_ | ⟨q, before⟩) p after hsplit
      · obtain ⟨rfl, -⟩ := List.cons.inj hsplit
        rw [hspan, hposition]
        rfl
      · obtain ⟨rfl, rfl⟩ := List.cons.inj hsplit
        rw [hplaced before p after rfl, hposition, ← Position.after_append,
          ← Position.after_append]
        simp [Piece.text]

/-- The tokens of a `Run` stand one behind the other, and each takes up some of the text. -/
theorem Run.spans {c d : Cursor} {ts : List Token} (h : Run c ts d) :
    c.position.offset ≤ d.position.offset ∧
      (∀ t ∈ ts, c.position.offset ≤ t.span.start ∧ t.span.start < t.span.stop ∧
        t.span.stop ≤ d.position.offset ∧ t.text ≠ "") ∧
      ts.Pairwise (fun t u => t.span.stop ≤ u.span.start) := by
  induction h with
  | nil c => simp
  | @cons c c' d t ts h ht _ ih =>
    obtain ⟨gap, -, -, hposition, hspan, -, hne⟩ := next_ok h
    obtain ⟨hle, hspans, hpair⟩ := ih
    -- a token has a character, and a character has at least one byte
    have hsize : 0 < Text.byteSize t.text.toList := by
      have hlength := Text.length_le_byteSize t.text.toList
      have hpos := List.length_pos_iff.2 (mt String.toList_eq_nil_iff.1 (hne ht))
      omega
    have hoffset : c'.position.offset
        = c.position.offset + Text.byteSize gap + Text.byteSize t.text.toList := by
      rw [hposition, Position.offset_after, Text.byteSize_append, Nat.add_assoc]
    have hstart : t.span.start = c.position.offset + Text.byteSize gap := by
      rw [hspan]
      exact Position.offset_after _ _
    have hstop : t.span.stop = c'.position.offset := by
      rw [hspan]
      rfl
    refine ⟨by omega, ?_, List.pairwise_cons.2 ⟨?_, hpair⟩⟩
    · rintro u (_ | ⟨_, hu⟩)
      · exact ⟨by omega, by omega, by omega, hne ht⟩
      · obtain ⟨h₁, h₂, h₃, h₄⟩ := hspans u hu
        exact ⟨by omega, h₂, h₃, h₄⟩
    · intro u hu
      have hu := (hspans u hu).1
      omega

/-- Every token of a `stream` before a fault starts before the place of the fault. -/
theorem start_lt_of_fault {c : Cursor} {e : LexError} (h : c.stream.2 = some e) :
    ∀ t ∈ c.stream.1, t.span.start < e.position.offset := by
  intro t ht
  obtain ⟨ts, d, hrun, ⟨x, d', -, -, hstream⟩ | ⟨e', d', hnext, hstream⟩⟩ := c.exists_run_end
  · simp [hstream] at h
  · obtain rfl : e' = e := by simpa [hstream] using h
    rw [hstream] at ht
    obtain ⟨gap, rest, -, -, hposition, -⟩ := next_error hnext
    have hspan := hrun.spans.2.1 t ht
    rw [hposition, Position.offset_after]
    omega

end Cursor

/-! ## The pieces of a source -/

/-- The token `t` stands in `source` behind the text `front`: its position is that of the end of
`front`, and its span covers its own text. -/
structure Token.StandsBehind (t : Token) (source : String) (front : List Char) : Prop where
  marks : t.span.startPosition.Marks front
  stop : t.span.stop = t.span.start + Text.byteSize t.text.toList
  covers : t.span.text? source = some t.text

/-- How the reading of a source ends behind the tokens `ts`: with the end of the text, which is at
the end of the source, or with a fault, which is at the text `rest` that it is about. -/
inductive Ending (source : String) (ts : List Token) (front rest : List Char) :
    List Token × Option LexError → Prop where
  | eof {x : Token} (all : rest = []) (kind : x.kind = .eof)
      (marks : x.span.startPosition.Marks front) (start : x.span.start = source.utf8ByteSize)
      (stop : x.span.stop = source.utf8ByteSize) : Ending source ts front rest (ts ++ [x], none)
  | fault {e : LexError} (marks : e.position.Marks front) (cause : e.cause.StartsAt rest) :
      Ending source ts front rest (ts, some e)

/-- The places that the reading of a source tells: where the tokens of its `stream` start, and where
its fault is. -/
def places (source : String) : List Position :=
  (Cursor.ofSource source).stream.1.map (·.span.startPosition)
    ++ (Cursor.ofSource source).stream.2.toList.map LexError.position

/-- A token whose span reaches over its text satisfies `StandsBehind` for the text before that. -/
theorem Token.StandsBehind.of_span {source : String} {t : Token} {front back : List Char}
    (hsource : source.toList = front ++ t.text.toList ++ back)
    (hspan : t.span = .between (Position.start.after front)
      (Position.start.after (front ++ t.text.toList)).offset) : t.StandsBehind source front := by
  have hmarks := Position.marks_after_start front
  have hstop : (Position.start.after (front ++ t.text.toList)).offset
      = Text.byteSize front + Text.byteSize t.text.toList := by
    rw [(Position.marks_after_start _).offset, Text.byteSize_append]
  rw [Span.between, hmarks.offset, hstop] at hspan
  refine ⟨⟨?_, ?_, ?_⟩, ?_, ?_⟩
  · rw [hspan]
    rfl
  · rw [hspan]
    exact hmarks.line
  · rw [hspan]
    exact hmarks.column
  · rw [hspan]
  · rw [hspan, Span.text?, hsource, Text.slice?_append, Option.map_some, String.ofList_toList]

/-- The tokens of a `Run` through a source stand in it, each behind the pieces before its own. -/
theorem Cursor.Run.standsBehind {source : String} {ts : List Token} {d : Cursor}
    (h : Run (ofSource source) ts d) :
    ∃ ps : List Piece, ps.map Piece.token = ts ∧ source.toList = Piece.joined ps ++ d.rest ∧
      d.position = Position.start.after (Piece.joined ps) ∧
      ∀ before p after, ps = before ++ p :: after →
        p.token.StandsBehind source (Piece.joined before ++ p.gap) := by
  obtain ⟨ps, hts, hrest, hposition, hplaced⟩ := h.pieces
  refine ⟨ps, hts, hrest, hposition, fun before p after hsplit => ?_⟩
  have hspan := hplaced before p after hsplit
  have hsource : source.toList = Piece.joined before ++ p.gap ++ p.token.text.toList
      ++ (Piece.joined after ++ d.rest) := by
    have hrest : source.toList = Piece.joined ps ++ d.rest := hrest
    simp [hrest, hsplit, Piece.text]
  rw [Piece.text, ← List.append_assoc] at hspan
  exact .of_span hsource hspan

/-- A `Run` from the start of a source that meets the end of the text or a fault gives an
`Ending`. -/
theorem Ending.of_run {source : String} {ts : List Token} {d : Cursor} {front : List Char}
    (hsource : source.toList = front ++ d.rest)
    (hposition : d.position = Position.start.after front)
    (hend : (∃ x d', d.next = (.ok x, d') ∧ x.kind = .eof ∧
        (Cursor.ofSource source).stream = (ts ++ [x], none)) ∨
      ∃ e d', d.next = (.error e, d') ∧ (Cursor.ofSource source).stream = (ts, some e)) :
    ∃ last rest, d.rest = last ++ rest ∧ (∀ c ∈ last, Text.isBlank c = true) ∧
      Ending source ts (front ++ last) rest (Cursor.ofSource source).stream := by
  rcases hend with ⟨x, d', hnext, hx, hstream⟩ | ⟨e, d', hnext, hstream⟩
  · obtain ⟨gap, hgap, hrest, hend, hspan, heof, -⟩ := Cursor.next_ok hnext
    obtain ⟨htext, hnil⟩ := heof hx
    simp only [htext, hnil, String.toList_empty, List.append_nil] at hrest hend
    have hall : front ++ gap = source.toList := by rw [hsource, hrest]
    rw [hend, hposition, ← Position.after_append, hall] at hspan
    have hmarks := Position.marks_after_start source.toList
    have hsize : (Position.start.after source.toList).offset = source.utf8ByteSize := by
      rw [hmarks.offset, Text.byteSize_toList]
    refine ⟨gap, [], by simp [hrest], hgap, ?_⟩
    rw [hstream]
    refine .eof rfl hx ?_ ?_ ?_
    · rw [hall, hspan]
      exact hmarks
    · rw [hspan]
      exact hsize
    · rw [hspan]
      exact hsize
  · obtain ⟨gap, rest, hgap, hrest, hplace, hcause⟩ := Cursor.next_error hnext
    refine ⟨gap, rest, hrest, hgap, ?_⟩
    rw [hstream]
    refine .fault ?_ hcause
    rw [hplace, hposition, ← Position.after_append]
    exact Position.marks_after_start _

/-- Every one of the `places` of a source is that of the end of some text it starts with. -/
theorem marks_of_mem_places {source : String} {ps : List Piece} {last rest : List Char}
    {p : Position} (hsource : source.toList = Piece.joined ps ++ last ++ rest)
    (hending : Ending source (ps.map Piece.token) (Piece.joined ps ++ last) rest
      (Cursor.ofSource source).stream)
    (hstands : ∀ before p after, ps = before ++ p :: after →
      p.token.StandsBehind source (Piece.joined before ++ p.gap)) (hp : p ∈ places source) :
    ∃ front back, source.toList = front ++ back ∧ p.Marks front := by
  have htoken : ∀ t ∈ ps.map Piece.token, ∃ front back, source.toList = front ++ back ∧
      t.span.startPosition.Marks front := by
    intro t ht
    obtain ⟨q, hq, rfl⟩ := List.mem_map.1 ht
    obtain ⟨before, after, rfl⟩ := List.append_of_mem hq
    refine ⟨Piece.joined before ++ q.gap,
      q.token.text.toList ++ (Piece.joined after ++ (last ++ rest)), ?_, ?_⟩
    · simp [hsource, Piece.text]
    · exact (hstands before q after rfl).marks
  rw [places] at hp
  generalize (Cursor.ofSource source).stream = stream at hp hending
  cases hending with
  | @eof x all kind marks start stop =>
    have hmem : p ∈ (ps.map Piece.token ++ [x]).map (·.span.startPosition) := by simpa using hp
    obtain ⟨t, ht, rfl⟩ := List.mem_map.1 hmem
    rcases List.mem_append.1 ht with ht | ht
    · exact htoken t ht
    · obtain rfl := List.mem_singleton.1 ht
      exact ⟨_, rest, hsource, marks⟩
  | @fault e marks cause =>
    rcases List.mem_append.1 hp with hp | hp
    · obtain ⟨t, ht, rfl⟩ := List.mem_map.1 hp
      exact htoken t ht
    · obtain rfl : p = e.position := by simpa using hp
      exact ⟨_, rest, hsource, marks⟩

/-- Nothing of a source is lost.  Up to its `Ending`, it is made up of its tokens and of blanks
before, between and behind them.  The tokens have texts of their own and stand one behind the other,
each as `StandsBehind` has it; and of all its `places` none counts further than one beyond its
offset. -/
theorem stream_lossless (source : String) :
    ∃ (ps : List Piece) (last rest : List Char),
      source.toList = Piece.joined ps ++ last ++ rest ∧ (∀ c ∈ last, Text.isBlank c = true) ∧
      Ending source (ps.map Piece.token) (Piece.joined ps ++ last) rest
        (Cursor.ofSource source).stream ∧
      (∀ before p after, ps = before ++ p :: after →
        p.token.StandsBehind source (Piece.joined before ++ p.gap)) ∧
      (∀ p ∈ ps, p.token.kind ≠ .eof ∧ p.token.text ≠ "" ∧
        p.token.span.start < p.token.span.stop) ∧
      (ps.map Piece.token).Pairwise (fun t u => t.span.stop ≤ u.span.start) ∧
      ∀ p ∈ places source, (∃ front back, source.toList = front ++ back ∧ p.Marks front) ∧
        p.offset ≤ source.utf8ByteSize ∧ p.line ≤ p.offset + 1 ∧ p.column ≤ p.offset + 1 := by
  obtain ⟨ts, d, hrun, hend⟩ := (Cursor.ofSource source).exists_run_end
  obtain ⟨-, hspans, hpair⟩ := hrun.spans
  have hkinds := hrun.kind_ne_eof
  obtain ⟨ps, rfl, hrest, hposition, hstands⟩ := hrun.standsBehind
  obtain ⟨last, rest, hrest', hlast, hending⟩ := Ending.of_run hrest hposition hend
  rw [hrest', ← List.append_assoc] at hrest
  refine ⟨ps, last, rest, hrest, hlast, hending, hstands, ?_, hpair, ?_⟩
  · intro p hp
    have hmem : p.token ∈ ps.map Piece.token := List.mem_map_of_mem hp
    obtain ⟨-, hlt, -, hne⟩ := hspans _ hmem
    exact ⟨hkinds _ hmem, hne, hlt⟩
  · intro p hp
    obtain ⟨front, back, hsource, hmarks⟩ := marks_of_mem_places hrest hending hstands hp
    refine ⟨⟨front, back, hsource, hmarks⟩, ?_, hmarks.le⟩
    rw [hmarks.offset, ← Text.byteSize_toList, hsource, Text.byteSize_append]
    exact Nat.le_add_right _ _

end Gxl
