import Gxl.Proofs.Token.Languages

/-!
# Progress

A cursor that is asked on and on comes to an end.  Every token but the end of the text brings it
forward, and what it answers behind its tokens is one of three things for ever: the end of the text,
the character that starts no token, or, behind the fault of a string that is not closed, the end of
the text again (`Tail`).  Which tokens these are and which of the three follows is settled by the
source (`requests_settle`).

So the two loops that read on until something turns up end after a number of rounds that the text
bounds: `toListWithin` and `opensWithin` count the rounds, and give what `toList` and `opensCall`
give.
-/

namespace Gxl

/-! ## The test for a call, round by round -/

namespace Lexeme

/-- Whether an opening parenthesis comes next, found in at most a number of rounds.  A round passes
over blanks, and then over a comment up to the line feed that ends it. -/
def opensWithin : Nat → List Char → Option Bool
  | 0, _ => none
  | n + 1, cs =>
    let rest := cs.dropWhile Text.isBlank
    if rest.head? = some '#' ∧ rest.tail.head? ≠ some '[' then
      if '\n' ∈ rest then
        (Text.splitBytes? (Text.byteSize (rest.takeWhile (· != '\n'))) rest).bind fun (_, line) =>
          opensWithin n line
      else
        opensWithin n []
    else
      some (rest.head? == some '(')

/-- Dropping the blanks before a text does not change what `opensCall` says. -/
theorem opensCall_dropWhile (cs : List Char) :
    opensCall false (cs.dropWhile Text.isBlank) = opensCall false cs := by
  induction cs with
  | nil => rfl
  | cons c cs ih =>
    by_cases hc : Text.isBlank c = true
    · rw [List.dropWhile_cons_of_pos hc, ih, opensCall_blank hc]
    · rw [List.dropWhile_cons_of_neg hc]

/-- A round of `opensWithin` that finds a comment goes on behind it. -/
theorem opensWithin_comment {cs body line : List Char} (n : Nat)
    (hcs : cs.dropWhile Text.isBlank = '#' :: (body ++ line)) (hbody : ∀ c ∈ body, c ≠ '\n')
    (hline : ∀ c ∈ line.head?, c = '\n') (hopen : (body ++ line).head? ≠ some '[') :
    opensWithin (n + 1) cs = opensWithin n line := by
  have htake : ('#' :: (body ++ line)).takeWhile (· != '\n') = '#' :: body := by
    have hpass : ∀ c ∈ '#' :: body, (c != '\n') = true := by simpa using hbody
    exact (takeWhile_dropWhile_append (· != '\n') line hpass fun c hc => by simp [hline c hc]).1
  simp only [opensWithin, hcs, List.head?_cons, List.tail_cons, true_and, if_pos hopen, htake]
  cases line with
  | nil =>
    have hnone : '\n' ∉ '#' :: (body ++ []) := by
      simpa using fun hmem => hbody _ hmem rfl
    rw [if_neg hnone]
  | cons c line =>
    obtain rfl : c = '\n' := hline c rfl
    have hcut := Text.splitBytes?_append ('#' :: body) ('\n' :: line)
    rw [List.cons_append] at hcut
    rw [if_pos (by simp), hcut, Option.bind_some]

/-- One round for every character and one more are enough for `opensWithin` to give what `opensCall`
does. -/
theorem opensWithin_eq {n : Nat} {cs : List Char} (h : cs.length < n) :
    opensWithin n cs = some (opensCall false cs) := by
  induction n generalizing cs with
  | zero => exact absurd h (Nat.not_lt_zero _)
  | succ n ih =>
    have hshort : (cs.dropWhile Text.isBlank).length ≤ cs.length :=
      (List.dropWhile_sublist _).length_le
    have hblank := head_dropWhile Text.isBlank cs
    rw [← opensCall_dropWhile]
    cases hrest : cs.dropWhile Text.isBlank with
    | nil => simp [opensWithin, hrest, opensCall]
    | cons c tail =>
      rw [hrest] at hshort hblank
      have hc : Text.isBlank c = false := hblank c rfl
      by_cases hhash : c = '#'
      · subst hhash
        by_cases hopen : tail.head? = some '['
        · obtain ⟨tail, rfl⟩ := List.head?_eq_some_iff.1 hopen
          simp [opensWithin, hrest, opensCall, hc]
        · -- the comment takes its line, and the rest of the text is shorter
          obtain ⟨body, line, rfl, hbody, hline⟩ : ∃ body line, tail = body ++ line ∧
              (∀ c ∈ body, c ≠ '\n') ∧ ∀ c ∈ line.head?, c = '\n' := by
            refine ⟨tail.takeWhile (· != '\n'), tail.dropWhile (· != '\n'),
              List.takeWhile_append_dropWhile.symm, ?_, ?_⟩
            · simpa using List.all_eq_true.1 (List.all_takeWhile (p := (· != '\n')) (l := tail))
            · simpa using head_dropWhile (· != '\n') tail
          have hlt : line.length < n := by
            simp only [List.length_cons, List.length_append] at hshort
            omega
          rw [opensWithin_comment n hrest hbody hline hopen, ih hlt, opensCall_hash hbody hopen,
            opensCall_end_of_line hline]
      · simp [opensWithin, hrest, opensCall, hc, hhash]

end Lexeme

/-! ## Tails of answers -/

/-- How a cursor answers to `next` from some request on, for ever. -/
inductive Tail where
  /-- With the end of the text. -/
  | ended (eof : Token)
  /-- With one and the same fault. -/
  | stuck (fault : LexError)
  /-- With a fault once, and then with the end of the text. -/
  | unclosed (fault : LexError) (eof : Token)
  deriving DecidableEq

namespace Tail

/-- The answer of a tail to a request, counted from the first that is not answered by a token. -/
def answer : Tail → Nat → Except LexError Token
  | ended eof, _ => .ok eof
  | stuck fault, _ => .error fault
  | unclosed fault _, 0 => .error fault
  | unclosed _ eof, _ + 1 => .ok eof

/-- What the answers are about, in a text of the size `bytes`: the token of the end of the text is
at its end, a fault that stays is that of a character, and one that does not is that of a string. -/
def IsOf (bytes : Nat) : Tail → Prop
  | ended eof => eof.kind = .eof ∧ eof.span.start = bytes ∧ eof.span.stop = bytes
  | stuck fault => ∃ ch, fault.cause = .unexpectedChar ch
  | unclosed fault eof =>
    fault.cause = .unterminatedString ∧
      eof.kind = .eof ∧ eof.span.start = bytes ∧ eof.span.stop = bytes

/-- No tail that `IsOf` a text starts with a token other than the end of the text. -/
theorem IsOf.answer_zero_ne {bytes : Nat} {tail : Tail} (h : tail.IsOf bytes) {t : Token}
    (ht : t.kind ≠ .eof) : tail.answer 0 ≠ .ok t := by
  cases tail with
  | ended eof =>
    rintro ⟨⟩
    exact ht h.1
  | stuck | unclosed => exact fun hok => by cases hok

/-- The answers of a `Tail` tell which it is. -/
theorem answer_injective : Function.Injective answer := by
  intro tail tail' h
  have hfirst := congrFun h 0
  have hsecond := congrFun h 1
  cases tail <;> cases tail' <;> simp_all [answer]

end Tail

/-- The answers to requests, one after the other: the tokens `ts`, and then those of `tail`. -/
def answersOf (ts : List Token) (tail : Tail) (i : Nat) : Except LexError Token :=
  match ts[i]? with
  | some t => .ok t
  | none => tail.answer (i - ts.length)

@[simp] theorem answersOf_cons_zero (t : Token) (ts : List Token) (tail : Tail) :
    answersOf (t :: ts) tail 0 = .ok t := rfl

@[simp] theorem answersOf_cons_succ (t : Token) (ts : List Token) (tail : Tail) (i : Nat) :
    answersOf (t :: ts) tail (i + 1) = answersOf ts tail i := by
  simp [answersOf]

/-- The function `answersOf` tells the tokens and the tail, if none of the tokens is the end of the
text. -/
theorem eq_of_answersOf {bytes : Nat} {ts ts' : List Token} {tail tail' : Tail}
    (hts : ∀ t ∈ ts, t.kind ≠ .eof) (hts' : ∀ t ∈ ts', t.kind ≠ .eof) (h : tail.IsOf bytes)
    (h' : tail'.IsOf bytes) (heq : ∀ i, answersOf ts tail i = answersOf ts' tail' i) :
    ts = ts' ∧ tail = tail' := by
  induction ts generalizing ts' with
  | nil =>
    cases ts' with
    | nil => exact ⟨rfl, Tail.answer_injective (funext heq)⟩
    | cons t' ts' => exact absurd (heq 0) (h.answer_zero_ne (hts' t' (by simp)))
  | cons t ts ih =>
    cases ts' with
    | nil => exact absurd (heq 0).symm (h'.answer_zero_ne (hts t (by simp)))
    | cons t' ts' =>
      obtain rfl : t = t' := Except.ok.inj (heq 0)
      obtain ⟨rfl, rfl⟩ := ih (List.forall_mem_cons.1 hts).2 (List.forall_mem_cons.1 hts').2
        fun i => by simpa using heq (i + 1)
      exact ⟨rfl, rfl⟩

/-! ## Reading to the end, request by request -/

namespace Cursor

/-- All tokens from a cursor on, as `toList` gives them, read with at most a number of requests. -/
def toListWithin : Nat → Cursor → Option (Except LexError (List Token))
  | 0, _ => none
  | n + 1, c =>
    match c.next with
    | (.error e, _) => some (.error e)
    | (.ok t, c') =>
      if t.kind = .eof then some (.ok [t]) else (toListWithin n c').map (·.map (t :: ·))

/-- One request for every character and one more are enough for `toListWithin` to give what `toList`
does. -/
theorem toListWithin_eq {n : Nat} {c : Cursor} (h : c.rest.length < n) :
    c.toListWithin n = some c.toList := by
  induction n generalizing c with
  | zero => exact absurd h (Nat.not_lt_zero _)
  | succ n ih =>
    rw [toListWithin, toList_eq_stream]
    rcases hnext : c.next with ⟨e | t, c'⟩
    · rw [stream_of_error hnext]
    · by_cases ht : t.kind = .eof
      · rw [stream_of_eof hnext ht]
        exact if_pos ht
      · have hlt := rest_lt_of_next hnext ht
        rw [stream_of_token hnext ht]
        simp only [if_neg ht, ih (by omega : c'.rest.length < n), Option.map_some,
          toList_eq_stream c']
        cases c'.stream.2 <;> rfl

/-- There are texts that need as many. -/
example : (ofSource ";;").toListWithin 2 = none := by decide +kernel

/-! ## The answers to all requests -/

/-- What `steps` hands out are the answers of the cursors `afterRequests`. -/
theorem steps_eq_map (c : Cursor) (n : Nat) :
    c.steps n = (List.range n).map fun i => (c.afterRequests i).next.1 := by
  induction n generalizing c with
  | zero => rfl
  | succ n ih =>
    rw [steps, ih, List.range_succ_eq_map, List.map_cons, List.map_map]
    rfl

/-- What `next` hands out again is the answer to every request. -/
theorem answer_of_again {c c' : Cursor} {a : Except LexError Token} (h : c.next = (a, c'))
    (again : c'.next = (a, c')) (i : Nat) : (c.afterRequests i).next.1 = a := by
  induction i generalizing c with
  | zero => rw [afterRequests, h]
  | succ i ih =>
    rw [afterRequests, h]
    exact ih again

/-- Behind a `Run`, requests are answered as by the cursor that the run leads to. -/
theorem Run.answersOf {c d : Cursor} {ts : List Token} (h : Run c ts d) {tail : Tail}
    (hd : ∀ i, (d.afterRequests i).next.1 = tail.answer i) (i : Nat) :
    (c.afterRequests i).next.1 = Gxl.answersOf ts tail i := by
  induction h generalizing i with
  | nil c => exact hd i
  | @cons c c' d t ts hnext _ _ ih =>
    cases i with
    | zero => rw [afterRequests, hnext, answersOf_cons_zero]
    | succ i =>
      rw [afterRequests, hnext, answersOf_cons_succ]
      exact ih hd i

/-- A token of the kind `eof` stands where the text ends, and is empty. -/
theorem span_of_next_eof {c c' : Cursor} {x : Token} (h : c.next = (.ok x, c'))
    (hx : x.kind = .eof) :
    x.span.start = c.position.offset + Text.byteSize c.rest ∧
      x.span.stop = c.position.offset + Text.byteSize c.rest := by
  obtain ⟨gap, -, hrest, hposition, hspan, heof, -⟩ := next_ok h
  obtain ⟨htext, hnil⟩ := heof hx
  rw [htext, hnil] at hrest
  rw [htext] at hposition
  rw [hspan, hposition, hrest]
  simp [Span.between, Position.offset_after]

/-- Where a cursor finds no token, it answers with a `Tail` that `IsOf` its text. -/
theorem exists_tail {d : Cursor}
    (h : (∃ x d', d.next = (.ok x, d') ∧ x.kind = .eof) ∨ ∃ e d', d.next = (.error e, d')) :
    ∃ tail : Tail, tail.IsOf (d.position.offset + Text.byteSize d.rest) ∧
      ∀ i, (d.afterRequests i).next.1 = tail.answer i := by
  rcases h with ⟨x, d', hnext, hx⟩ | ⟨e, d', hnext⟩
  · exact ⟨.ended x, ⟨hx, span_of_next_eof hnext hx⟩,
      answer_of_again hnext (next_of_next_eof hnext hx)⟩
  · rcases error_cases hnext with ⟨hcause, again⟩ | ⟨hcause, hrest, hposition⟩
    · exact ⟨.stuck e, hcause, answer_of_again hnext again⟩
    · have heof := next_of_rest_nil hrest
      have hspan := span_of_next_eof heof rfl
      have hend : d'.position.offset + Text.byteSize d'.rest
          = d.position.offset + Text.byteSize d.rest := by
        rw [hrest, hposition, Text.byteSize_nil, Nat.add_zero]
      rw [hend] at hspan
      refine ⟨.unclosed e _, ⟨hcause, rfl, hspan⟩, fun i => ?_⟩
      cases i with
      | zero => rw [afterRequests, hnext, Tail.answer]
      | succ i =>
        rw [afterRequests, hnext, Tail.answer]
        exact answer_of_again heof (next_of_next_eof heof rfl) i

end Cursor

/-- Asking a cursor for the `next` token on and on brings it to an end.  Each token but the end of
the text takes the cursor further in its source.  The answers are some tokens, none of them the end
of the text, and then a `Tail`: the end of the text for ever, with nothing behind it; the same
character that starts no token, at the same place for ever; or the fault of a string that is not
closed, and behind it the end of the text for ever.  So all tokens of a source are read with no more
requests than it has bytes and one more, and the test `opensCall` ends on every text, with no more
rounds than the text has characters and one more. -/
theorem requests_settle (source : String) :
    let c : Cursor := .ofSource source
    (∀ n t d, (c.afterRequests n).next = (.ok t, d) → t.kind ≠ .eof →
      (c.afterRequests n).position.offset < d.position.offset) ∧
    (∃! answers : List Token × Tail, (∀ t ∈ answers.1, t.kind ≠ .eof) ∧
      answers.2.IsOf source.utf8ByteSize ∧
      ∀ n, c.steps n = (List.range n).map (answersOf answers.1 answers.2)) ∧
    c.toListWithin (source.utf8ByteSize + 1) = some (tokenize source) ∧
    ∀ cs, Lexeme.opensWithin (cs.length + 1) cs = some (Lexeme.opensCall false cs) := by
  intro c
  refine ⟨fun n t d hnext ht => ?_, ?_, ?_, fun cs => Lexeme.opensWithin_eq (Nat.lt_succ_self _)⟩
  · have hstart := Cursor.start_of_next hnext
    exact Nat.lt_of_le_of_lt hstart.1 (hstart.2 ht)
  · obtain ⟨ts, d, hrun, hend⟩ := c.exists_run_end
    obtain ⟨ps, -, hrest, hposition, -⟩ := hrun.pieces
    have hsize : d.position.offset + Text.byteSize d.rest = source.utf8ByteSize := by
      have hsource : source.toList = Piece.joined ps ++ d.rest := hrest
      rw [hposition, Position.offset_after, Nat.add_assoc, ← Text.byteSize_append, ← hsource,
        Text.byteSize_toList]
      exact Nat.zero_add _
    obtain ⟨tail, htail, hanswer⟩ := d.exists_tail (hend.imp
      (fun ⟨x, d', hnext, hx, _⟩ => ⟨x, d', hnext, hx⟩) fun ⟨e, d', hnext, _⟩ => ⟨e, d', hnext⟩)
    rw [hsize] at htail
    have hsteps : ∀ n, c.steps n = (List.range n).map (answersOf ts tail) := fun n => by
      rw [c.steps_eq_map]
      exact List.map_congr_left fun i _ => hrun.answersOf hanswer i
    refine ⟨(ts, tail), ⟨hrun.kind_ne_eof, htail, hsteps⟩, ?_⟩
    rintro ⟨ts', tail'⟩ ⟨hts', htail', hsteps'⟩
    have heq : ∀ i, answersOf ts' tail' i = answersOf ts tail i := fun i => by
      have hmap := (hsteps' (i + 1)).symm.trans (hsteps (i + 1))
      exact List.map_inj_left.1 hmap i (List.mem_range.2 (Nat.lt_succ_self i))
    obtain ⟨rfl, rfl⟩ := eq_of_answersOf hts' hrun.kind_ne_eof htail' htail heq
    rfl
  · refine Cursor.toListWithin_eq (Nat.lt_succ_of_le ?_)
    rw [← Text.byteSize_toList]
    exact Text.length_le_byteSize source.toList

end Gxl
