import Gxl.Proofs.Grammar.Moves
import Gxl.Proofs.Token.Offsets

/-!
# Rules over a pointer

A reader keeps the tokens that have been looked at in a list, and the grammar gets at them by their
index.  This module runs the rules of the grammar on a reader whose feed is a pointer into the
source, with both kinds of access checked: a token is read by cutting the source at offsets
(`Pointer.next?`), and a token that has been looked at is taken out of the list by an index that may
be out of range.

`Reader.fill?` reads on until there are more tokens than an index, so that the index is in range
(`Reader.lt_of_fill?`).  Hence nothing is refused: a rule does on a pointer what it does on the
cursor that stands there (`Rule.run?_eq`), also where it fails, and parsing a source by offsets
gives what parsing gives (`parse?_eq`).
-/

namespace Gxl

variable {source : String}

namespace Pointer

/-- A pointer that is answered stands in the source: it is that of a `Cursor` there. -/
theorem exists_cursor {s s' : Pointer} {a : Except LexError Token}
    (h : s.next? source = some (a, s')) :
    ∃ c c' : Cursor, c.In source ∧ c.pointer = s ∧ c'.pointer = s' ∧ c.next = (a, c') := by
  cases hrest : textFrom? source s.position.offset with
  | none =>
    have hpass : s.position.passWhile? source Text.isBlank = none := by
      rw [Position.passWhile?_unfold, Position.bump?, Position.char?, hrest]
      rfl
    rw [next?, hpass] at h
    cases h
  | some rest =>
    have hin : Cursor.In source ⟨rest, s.position, s.afterDot⟩ := hrest
    have hnext := next?_eq hin
    obtain ⟨rfl, rfl⟩ := Prod.mk.inj (Option.some.inj (h.symm.trans hnext))
    exact ⟨_, _, hin, rfl, rfl, rfl⟩

/-- A token brings a pointer forward, within the source, unless it is the end of the text. -/
theorem lt_of_next? {s s' : Pointer} {t : Token} (h : s.next? source = some (.ok t, s'))
    (ht : t.kind ≠ .eof) :
    s.position.offset < s'.position.offset ∧ s'.position.offset ≤ source.utf8ByteSize := by
  obtain ⟨c, c', hin, rfl, rfl, hnext⟩ := exists_cursor h
  have hstart := Cursor.start_of_next hnext
  have hin' := hin.next
  rw [hnext] at hin'
  obtain ⟨front, hsource, hsize⟩ := textFrom?_eq_some_iff.1 hin'
  refine ⟨Nat.lt_of_le_of_lt hstart.1 (hstart.2 ht), ?_⟩
  rw [← Text.byteSize_toList, hsource, Text.byteSize_append]
  exact hsize ▸ Nat.le_add_right _ _

end Pointer

namespace Reader

/-! ## Looking ahead -/

/-- Reads on until more than `n` tokens have been looked at.  Comments are passed over. -/
def fill? (source : String) (n : Nat) (r : Reader Pointer) :
    Option (Except Error Unit × Reader Pointer) :=
  if r.ahead.length ≤ n then
    match h : r.feed.next? source with
    | none => none
    | some (.error e, s) => some (.error (.lex e), { r with feed := s })
    | some (.ok t, s) =>
      if ht : t.kind = .comment then
        have := Pointer.lt_of_next? h (by simp [ht])
        fill? source n { r with feed := s }
      else
        fill? source n
          { r with feed := s, ahead := r.ahead ++ [t], events := r.events ++ Event.ofToken t }
  else
    some (.ok (), r)
termination_by (n + 1 - r.ahead.length, source.utf8ByteSize - r.feed.position.offset)
decreasing_by
  · exact .right _ (by omega)
  · exact .left _ _ (by simp only [List.length_append, List.length_singleton]; omega)

/-- Looks at the token of the index `n`, counted from the next. -/
def peekNth? (source : String) (n : Nat) (r : Reader Pointer) :
    Option (Except Error Token × Reader Pointer) := do
  match ← r.fill? source n with
  | (.error e, r') => return (.error e, r')
  | (.ok _, r') => return (.ok (← r'.ahead[n]?), r')

/-- Takes the next token, which `fill?` has read.  The end of the text stays. -/
def advance? (source : String) (r : Reader Pointer) :
    Option (Except Error Token × Reader Pointer) := do
  match ← r.peekNth? source 0 with
  | (.error e, r') => return (.error e, r')
  | (.ok t, r') =>
    return (.ok t,
      { r' with
        ahead := if t.kind = .eof then r'.ahead else r'.ahead.tail
        lastEnd := t.span.stop })

variable {n : Nat}

/-- Where tokens enough have been looked at, nothing is read. -/
theorem fill?_of_lt {r : Reader Pointer} (h : n < r.ahead.length) :
    r.fill? source n = some (.ok (), r) := by
  rw [fill?, if_neg (Nat.not_le.2 h)]

/-- Where they have not, one more is asked for. -/
theorem fill?_of_le {r : Reader Pointer} (h : r.ahead.length ≤ n) :
    r.fill? source n = (r.feed.next? source).bind fun answer =>
      match answer with
      | (.error e, s) => some (.error (.lex e), { r with feed := s })
      | (.ok t, s) =>
        if t.kind = .comment then fill? source n { r with feed := s }
        else fill? source n
          { r with feed := s, ahead := r.ahead ++ [t], events := r.events ++ Event.ofToken t } := by
  rw [fill?, if_pos h]
  split <;> simp_all

/-- An index up to which `fill?` has read is in range. -/
theorem lt_of_fill? {r r' : Reader Pointer} (h : r.fill? source n = some (.ok (), r')) :
    n < r'.ahead.length := by
  fun_induction fill? source n r with
  | case1 => simp at h
  | case2 => simp at h
  | case3 r hle t s hnext ht _ ih => exact ih h
  | case4 r hle t s hnext ht ih => exact ih h
  | case5 r hlt =>
    obtain rfl : r = r' := by simpa using h
    exact Nat.not_le.1 hlt

/-! ## Readers of a source -/

/-- A reader with its cursor as a `Pointer`. -/
def pointed (r : Reader Cursor) : Reader Pointer :=
  ⟨r.feed.pointer, r.ahead, r.lastEnd, r.events⟩

/-- A move leaves the feed in its source (`Cursor.In`). -/
theorem Move.in_source {r s : Reader Cursor} (h : Move r s) (hr : r.feed.In source) :
    s.feed.In source := by
  have hnext := hr.next
  cases h with
  | skip h ht => rwa [h] at hnext
  | fault h => rwa [h] at hnext
  | look h ht room => rwa [h] at hnext
  | take h => exact hr
  | note e => exact hr

/-- As long as there are too few tokens, one more is fetched: `fill?` goes on behind `fetch`. -/
theorem fill?_fetch {r : Reader Cursor} (hr : r.feed.In source) (hle : r.ahead.length ≤ n) :
    r.pointed.fill? source n =
      match r.fetch with
      | (.error e, r') => some (.error e, r'.pointed)
      | (.ok _, r') => r'.pointed.fill? source n := by
  have hanswer := Pointer.next?_eq hr
  rw [fill?_of_le (r := r.pointed) hle]
  -- one case for a fault, one for a comment that is passed over, one for a token
  fun_induction fetchStates r with
  | case1 r e c hnext =>
    have hfeed : Feed.next r.feed = (.error e, c) := Cursor.nextSignificant_of_error hnext
    rw [hnext] at hanswer
    rw [pointed, hanswer, fetch, hfeed]
    rfl
  | case2 r t c hnext ht _ ih =>
    have hfeed : Feed.next r.feed = Feed.next c := Cursor.nextSignificant_of_comment hnext ht
    have hfetch : r.fetch = fetch { r with feed := c } := by simp only [fetch, hfeed]
    rw [hnext] at hanswer
    have hin := hr.next
    rw [hnext] at hin
    rw [pointed, hanswer, hfetch, ← ih hin hle (Pointer.next?_eq hin)]
    simp only [Option.bind_some, if_pos ht]
    exact fill?_of_le hle
  | case3 r t c hnext ht =>
    have hfeed : Feed.next r.feed = (.ok t, c) := Cursor.nextSignificant_of_token hnext ht
    rw [hnext] at hanswer
    rw [pointed, hanswer, fetch, hfeed]
    simp only [Option.bind_some, if_neg ht]
    rfl

/-- A walk of moves leaves the feed in its source. -/
theorem Walk.in_source {r s : Reader Cursor} {states : List (Reader Cursor)} (h : Walk r states s)
    (hr : r.feed.In source) : s.feed.In source :=
  (h.preserves (I := fun s => s.feed.In source) (fun _ _ hmove => hmove.in_source) hr).2

/-- A token that has been looked at is found at its index. -/
theorem peekNth?_of_getElem? {r : Reader Pointer} {t : Token} (h : r.ahead[n]? = some t) :
    r.peekNth? source n = some (.ok t, r) := by
  obtain ⟨hlt, -⟩ := List.getElem?_eq_some_iff.1 h
  simp [peekNth?, fill?_of_lt hlt, h]

/-- Where the index is that of the first token not yet looked at, `peekNth?` is `fetch`. -/
theorem peekNth?_fetch {r : Reader Cursor} (hr : r.feed.In source) (hle : r.ahead.length ≤ n) :
    r.pointed.peekNth? source n =
      match r.fetch with
      | (.error e, r') => some (.error e, r'.pointed)
      | (.ok _, r') => r'.pointed.peekNth? source n := by
  rw [peekNth?, fill?_fetch hr hle]
  rcases r.fetch with ⟨e | t, r'⟩ <;> rfl

/-- Looking at the index `0` is `peek`. -/
theorem peekNth?_zero {r : Reader Cursor} (hr : r.feed.In source) :
    r.pointed.peekNth? source 0 = some (r.peek.1, r.peek.2.pointed) := by
  rcases hahead : r.ahead with _ | ⟨t, ts⟩
  · rw [peekNth?_fetch hr (by simp [hahead])]
    simp only [peek, hahead]
    rcases hfetch : r.fetch with ⟨e | t, r'⟩
    · rfl
    · have hbehind := ahead_of_fetch hfetch
      exact peekNth?_of_getElem? (by simp [pointed, hbehind, hahead])
  · rw [peekNth?_of_getElem? (r := r.pointed) (t := t) (by simp [pointed, hahead])]
    simp only [peek, hahead]

/-- Looking at the index `1` is `peekSecond`. -/
theorem peekNth?_one {r : Reader Cursor} (hr : r.feed.In source) :
    r.pointed.peekNth? source 1 = some (r.peekSecond.1, r.peekSecond.2.pointed) := by
  rcases hahead : r.ahead with _ | ⟨t, _ | ⟨u, ts⟩⟩
  · have hin := (r.walk_fetch (by simp [hahead])).in_source hr
    rw [peekNth?_fetch hr (by simp [hahead])]
    simp only [peekSecond, hahead]
    rcases hfetch : r.fetch with ⟨e | t, r'⟩
    · rfl
    · rw [hfetch] at hin
      have hbehind := ahead_of_fetch hfetch
      dsimp only
      rw [peekNth?_fetch hin (by simp [hbehind, hahead])]
      rcases hfetch' : r'.fetch with ⟨e | u, r''⟩
      · rfl
      · have hbehind' := ahead_of_fetch hfetch'
        exact peekNth?_of_getElem? (by simp [pointed, hbehind', hbehind, hahead])
  · rw [peekNth?_fetch hr (by simp [hahead])]
    simp only [peekSecond, hahead]
    rcases hfetch : r.fetch with ⟨e | u, r'⟩
    · rfl
    · have hbehind := ahead_of_fetch hfetch
      exact peekNth?_of_getElem? (by simp [pointed, hbehind, hahead])
  · rw [peekNth?_of_getElem? (r := r.pointed) (t := u) (by simp [pointed, hahead])]
    simp only [peekSecond, hahead]

/-- Taking the next token by `advance?` is `advance`. -/
theorem advance?_eq {r : Reader Cursor} (hr : r.feed.In source) :
    r.pointed.advance? source = some (r.advance.1, r.advance.2.pointed) := by
  rw [advance?, peekNth?_zero hr, advance]
  rcases r.peek with ⟨e | t, r'⟩ <;> rfl

/-- A bound on the number of tokens still to be taken before the end of the text, from the
characters that are left and the tokens of `ahead`. -/
def left (source : String) (r : Reader Pointer) : Nat :=
  ((textFrom? source r.feed.position.offset).map List.length).getD 0
    + r.ahead.countP (·.kind != .eof)

/-- For a reader of a cursor it is the `size` of the reader. -/
theorem left_pointed {r : Reader Cursor} (hr : r.feed.In source) :
    r.pointed.left source = r.size := by
  have hrest : textFrom? source r.pointed.feed.position.offset = some r.feed.rest := hr
  rw [left, hrest]
  rfl

end Reader

namespace Rule

/-! ## Running a rule -/

variable {α : Type}

/-- Repeats a step on a reader until it declines, fails, or takes no token, as `Rule.loop` does. -/
def loop? (source : String)
    (step : Reader Pointer → Option (Except Error (Option α) × Reader Pointer))
    (r : Reader Pointer) : Option (Except Error (List α) × Reader Pointer) :=
  match step r with
  | none => none
  | some (.error e, r') => some (.error e, r')
  | some (.ok none, r') => some (.ok [], r')
  | some (.ok (some a), r') =>
    if r'.left source < r.left source then
      match loop? source step r' with
      | none => none
      | some (.error e, r'') => some (.error e, r'')
      | some (.ok as, r'') => some (.ok (a :: as), r'')
    else
      some (.ok [a], r')
termination_by r.left source

/-- Runs a rule on a reader whose feed is a `Pointer` into a source: what it builds or why it
failed, and the reader behind it. -/
def run? (source : String) {α : Type} :
    Rule α → Reader Pointer → Option (Except Error α × Reader Pointer)
  | ret a, r => some (.ok a, r)
  | seq first next, r =>
    match first.run? source r with
    | none => none
    | some (.error e, r') => some (.error e, r')
    | some (.ok a, r') => (next a).run? source r'
  | peek, r => r.peekNth? source 0
  | peekSecond, r => r.peekNth? source 1
  | advance, r => r.advance? source
  | lastEnd, r => some (.ok r.lastEnd, r)
  | note e, r => some (.ok (), { r with events := r.events ++ [e] })
  | fail expected, r =>
    match r.peekNth? source 0 with
    | none => none
    | some (.error e, r') => some (.error e, r')
    | some (.ok t, r') => some (.error (.parse (.ofToken t expected)), r')
  | many step, r => loop? source (step.run? source) r

/-- Repeating a step on pointers is repeating it on cursors, if the step does the same on both. -/
theorem loop?_eq {step : Rule (Option α)}
    (hstep : ∀ {r : Reader Cursor}, r.feed.In source →
      step.run? source r.pointed = some ((step.run r).1, (step.run r).2.pointed))
    {r : Reader Cursor} (hr : r.feed.In source) :
    loop? source (step.run? source) r.pointed
      = some ((loop step.run r).1, (loop step.run r).2.pointed) := by
  -- both loops go on as long as the same measure gets smaller
  induction hsize : r.size using Nat.strongRecOn generalizing r with
  | ind n ih =>
    subst hsize
    have hin := (step.walk_states r).in_source hr
    rw [loop?, loop, hstep hr]
    rcases hrun : step.run r with ⟨e | _ | a, r'⟩
    · rfl
    · rfl
    · rw [hrun] at hin
      dsimp only
      rw [Reader.left_pointed hin, Reader.left_pointed hr]
      split
      · rename_i hlt
        rw [ih r'.size hlt hin rfl]
        rcases loop step.run r' with ⟨e | as, r''⟩ <;> rfl
      · rfl

/-- A rule does on a pointer what it does on the cursor that stands there, and nothing that it gets
at is refused: `run?` is `run`. -/
theorem run?_eq (x : Rule α) {r : Reader Cursor} (hr : r.feed.In source) :
    x.run? source r.pointed = some ((x.run r).1, (x.run r).2.pointed) := by
  induction x generalizing r with
  | ret a => rfl
  | seq first next ihfirst ihnext =>
    have hin := (first.walk_states r).in_source hr
    rw [run?, run, ihfirst hr]
    rcases hrun : first.run r with ⟨e | a, r'⟩
    · rfl
    · rw [hrun] at hin
      exact ihnext a hin
  | peek => exact Reader.peekNth?_zero hr
  | peekSecond => exact Reader.peekNth?_one hr
  | advance => exact Reader.advance?_eq hr
  | lastEnd => rfl
  | note e => rfl
  | fail expected =>
    rw [run?, run, Reader.peekNth?_zero hr]
    rcases r.peek with ⟨e | t, r'⟩ <;> rfl
  | many step ih => exact loop?_eq ih hr

end Rule

/-- The tree of a source text, or its first fault, read by offsets as `run?` reads. -/
def parse? (source : String) : Option (Except Error Document) :=
  ((Rule.document (sourceSize source)).run? source ⟨.start, [], 0, []⟩).map Prod.fst

/-- Read by offsets, a source gives what `parse` gives. -/
theorem parse?_eq (source : String) : parse? source = some (parse source) := by
  have hrun := (Rule.document (sourceSize source)).run?_eq (r := .ofSource source)
    (Cursor.in_ofSource source)
  exact congrArg (Option.map Prod.fst) hrun

end Gxl
