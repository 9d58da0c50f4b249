import Gxl.Proofs.Grammar.Acceptance
import Gxl.Proofs.Grammar.Moves
import Gxl.Proofs.Grammar.Seams

/-!
# Reading documents one after the other

A reader can be asked for a document again and again, also when it has failed.  It goes on from
wherever it stopped, so no token is read twice and none is left out (`restarts_take_once`).

The results settle.  A reader is `Stalled` when asking it for a document brings it no further: at
the end of the text, at a token that starts no item, or at a character that starts no token.  Any
other reader takes a token, or loses the rest of its text to a string that is not closed, and both
can happen only so often (`Reader.pending`).
-/

namespace Gxl

namespace Cursor

variable {c c' : Cursor} {t : Token} {e : LexError}

/-! ## What a cursor still gives -/

/-- A cursor at a fault has no `significant` tokens. -/
theorem significant_of_error (h : c.next = (.error e, c')) : c.significant = [] := by
  simp [significant, stream_of_error h]

/-- A cursor at the end of the text has the end for its only `significant` token. -/
theorem significant_of_eof (h : c.next = (.ok t, c')) (ht : t.kind = .eof) :
    c.significant = [t] := by
  simp [significant, stream_of_eof h ht, ht]

/-- A comment is not among the `significant` tokens: they are those behind it. -/
theorem significant_of_comment (h : c.next = (.ok t, c')) (ht : t.kind = .comment) :
    c.significant = c'.significant := by
  simp [significant, stream_of_token h (by simp [ht]), ht]

/-- Any other token is the first of the `significant` ones. -/
theorem significant_of_token (h : c.next = (.ok t, c')) (hcomment : t.kind ≠ .comment)
    (heof : t.kind ≠ .eof) : c.significant = t :: c'.significant := by
  simp [significant, stream_of_token h heof, hcomment]

/-- Whether a string that is not closed is still to be met: the `stream` ends with that fault. -/
def isUnclosed (c : Cursor) : Bool :=
  c.stream.2.any (·.cause == .unterminatedString)

/-- Reading a token leaves it open whether an unclosed string is to be met. -/
theorem isUnclosed_of_token (h : c.next = (.ok t, c')) : c'.isUnclosed = c.isUnclosed := by
  by_cases ht : t.kind = .eof
  · rw [isUnclosed, isUnclosed, stream_of_eof h ht, stream_of_eof (next_of_next_eof h ht) ht]
  · rw [isUnclosed, isUnclosed, stream_of_token h ht]

/-- At the end of the text no unclosed string is to be met. -/
theorem isUnclosed_of_rest_nil (h : c.rest = []) : c.isUnclosed = false := by
  rw [isUnclosed, stream_of_eof (next_of_rest_nil h) rfl]
  rfl

/-- Nor does a fault that is met again and again say anything new about unclosed strings. -/
theorem isUnclosed_of_again (h : c.next = (.error e, c')) (again : c'.next = (.error e, c')) :
    c'.isUnclosed = c.isUnclosed := by
  rw [isUnclosed, isUnclosed, stream_of_error h, stream_of_error again]

/-- A fault is met again and again, or it is that of a string that is not closed, which takes the
rest of the text with it, so that `isUnclosed` is false from there on. -/
theorem next_behind_error (h : c.next = (.error e, c')) :
    c'.next = (.error e, c') ∨ (c.isUnclosed = true ∧ c'.isUnclosed = false) := by
  refine (error_cases h).imp And.right fun ⟨hcause, hrest, _⟩ => ⟨?_, isUnclosed_of_rest_nil hrest⟩
  simp [isUnclosed, stream_of_error h, hcause]

/-- The same for `nextSignificant`, which skips comments before it meets the fault. -/
theorem nextSignificant_behind_error (h : c.nextSignificant = (.error e, c')) :
    c'.nextSignificant = (.error e, c') ∨ (c.isUnclosed = true ∧ c'.isUnclosed = false) := by
  -- the comments before the fault are passed over, one by one
  fun_induction nextSignificant c with
  | case1 c e' c₁ hnext =>
    obtain ⟨rfl, rfl⟩ : e' = e ∧ c₁ = c' := by simpa using h
    exact (next_behind_error hnext).imp_left nextSignificant_of_error
  | case2 c t c₁ hnext ht _ ih =>
    rw [← isUnclosed_of_token hnext]
    exact ih h
  | case3 c t c₁ hnext ht => simp at h

end Cursor

namespace Reader

variable {r r' s t : Reader Cursor} {states : List (Reader Cursor)} {bytes : Nat}

/-! ## Readers in use -/

/-- A reader as it is after some use: the tokens that it has looked at are genuine, and behind them
the end of the text may stand, perhaps more than once. -/
def Sound (r : Reader Cursor) : Prop :=
  ∃ seen ends, r.ahead = seen ++ ends ∧ (∀ t ∈ seen, t.symbol.genuine = true) ∧
    ∀ t ∈ ends, t.kind = .eof ∧ r.feed.significant = [t]

/-- A reader at the start of a source is sound. -/
theorem sound_ofSource (source : String) : (ofSource source).Sound :=
  ⟨[], [], rfl, by simp, by simp⟩

/-- A sound reader holds some tokens and perhaps a fault (`Reader.Holds`). -/
theorem Sound.holds (h : r.Sound) : ∃ ts fault, r.Holds ts fault := by
  obtain ⟨seen, ends, hahead, hseen, hends⟩ := h
  exact ⟨_, _, seen, ends, _, hahead, rfl, hseen, hends, r.feed.gives_stream⟩

/-- A move of a reader keeps it sound. -/
theorem Move.sound (h : Move r s) (hr : r.Sound) : s.Sound := by
  obtain ⟨seen, ends, hahead, hseen, hends⟩ := hr
  cases h with
  | skip h ht => exact ⟨seen, ends, hahead, hseen, Cursor.significant_of_comment h ht ▸ hends⟩
  | fault h =>
    -- where a fault is met, the end of the text has not been looked at
    rw [Cursor.significant_of_error h] at hends
    obtain rfl : ends = [] := List.eq_nil_iff_forall_not_mem.2 fun t ht => by simpa using hends t ht
    exact ⟨seen, [], hahead, hseen, by simp⟩
  | @look c t h ht room =>
    by_cases heof : t.kind = .eof
    · rw [Cursor.significant_of_eof h heof] at hends
      refine ⟨seen, ends ++ [t], by simp [hahead], hseen, ?_⟩
      show ∀ u ∈ ends ++ [t], u.kind = .eof ∧ c.significant = [u]
      rw [Cursor.significant_of_eof (Cursor.next_of_next_eof h heof) heof]
      exact List.forall_mem_append.2 ⟨hends, by simp [heof]⟩
    · rw [Cursor.significant_of_token h ht heof] at hends
      obtain rfl : ends = [] := by
        refine List.eq_nil_iff_forall_not_mem.2 fun u hu => ?_
        obtain ⟨hkind, htu⟩ := hends u hu
        exact heof ((List.cons.inj htu).1 ▸ hkind)
      refine ⟨seen ++ [t], [], by simp [hahead], List.forall_mem_append.2 ⟨hseen, ?_⟩, by simp⟩
      simpa using Cursor.genuine_of_read h heof ht
  | @take x ts h =>
    by_cases hx : x.kind = .eof
    · exact ⟨seen, ends, by simpa [drop, hx] using hahead, hseen, hends⟩
    · cases seen with
      | nil => exact absurd (hends x (by rw [← List.nil_append ends, ← hahead, h]; simp)).1 hx
      | cons y seen =>
        refine ⟨seen, ends, by simp [drop, hx, hahead], ?_, hends⟩
        exact (List.forall_mem_cons.1 hseen).2
  | note e => exact ⟨seen, ends, hahead, hseen, hends⟩

/-- Whatever rule is run, the reader that it leaves is sound, since a run is a row of moves. -/
theorem sound_of_run {α : Type} (x : Rule α) (h : r.Sound) : (x.run r).2.Sound :=
  ((x.walk_states r).preserves (fun _ _ => Move.sound) h).2

/-! ## What is still to be done -/

/-- A bound on how often reading a document can bring a reader further: the tokens before the end of
the text, and a string that is not closed. -/
def pending (r : Reader Cursor) : Nat :=
  r.toCome.countP (·.kind != .eof) + r.feed.isUnclosed.toNat

/-- No move brings back a string that is not closed. -/
theorem Move.isUnclosed (h : Move r s) (hs : s.feed.isUnclosed = true) :
    r.feed.isUnclosed = true := by
  cases h with
  | skip h _ => rwa [← Cursor.isUnclosed_of_token h]
  | look h _ _ => rwa [← Cursor.isUnclosed_of_token h]
  | fault h =>
    rcases Cursor.next_behind_error h with again | ⟨htrue, -⟩
    · rwa [← Cursor.isUnclosed_of_again h again]
    · exact htrue
  | take | note => exact hs

/-- No move adds to what is `pending`. -/
theorem Move.pending_le (h : Move r s) : s.pending ≤ r.pending := by
  refine Nat.add_le_add h.suffix.sublist.countP_le ?_
  cases hs : s.feed.isUnclosed with
  | false => exact Nat.zero_le _
  | true => rw [h.isUnclosed hs]

/-- A token that is taken is not to come any more: `drop` makes `pending` smaller. -/
theorem pending_drop_lt {x : Token} {ts : List Token} (h : r.ahead = x :: ts)
    (hx : x.kind ≠ .eof) : (r.drop x).pending < r.pending := by
  have hdrop := toCome_drop h
  rw [if_neg hx] at hdrop
  have hfeed : (r.drop x).feed = r.feed := rfl
  rw [pending, pending, hdrop, hfeed, List.countP_cons_of_pos (by simpa using hx)]
  omega

/-- Along a row of moves, `pending` gets no larger. -/
theorem Reaches.pending_le (h : Reaches r t) : t.pending ≤ r.pending := by
  obtain ⟨states, hwalk⟩ := h
  exact (hwalk.preserves (I := fun s => s.pending ≤ r.pending)
    (fun _ _ hmove hr => hmove.pending_le.trans hr) le_rfl).2

end Reader

/-- Whether an item may start with a token: `#[`, or one of the words `mod` and `extern`. -/
def Token.opensItem (t : Token) : Bool :=
  t.kind == .annotOpen || t.isWord "mod" || t.isWord "extern"

namespace Rule

open Reader (Reaches)

variable {r r' : Reader Cursor} {x : Token} {ts : List Token} {e : Error}

/-! ## The first token of a document -/

/-- With tokens ahead, `peek` answers the first of them and changes nothing. -/
theorem run_peek_of_ahead (h : r.ahead = x :: ts) : peek.run r = (.ok x, r) := by
  rw [run, Reader.peek, h]

/-- With tokens ahead, `advance` takes the first of them. -/
theorem run_advance_of_ahead (h : r.ahead = x :: ts) : advance.run r = (.ok x, r.drop x) := by
  rw [run, Reader.advance, Reader.peek, h]

/-- A `note` before a rule is a step of the reader alone. -/
theorem run_note_bind {α : Type} (event : Event) (next : Unit → Rule α) :
    (note event >>= next).run r = (next ()).run (r.note event) := rfl

/-- What `atKind` answers, by the token that `peek` finds. -/
theorem run_atKind_of_peek (hpeek : r.peek = (.ok x, r')) (kind : Kind) :
    (atKind kind).run r = (.ok (x.kind == kind), r') := by
  have hrun : peek.run r = (.ok x, r') := hpeek
  exact run_bind_of_ok hrun

/-- What `atWord` answers of the first token ahead. -/
theorem run_atWord_of_ahead (h : r.ahead = x :: ts) (word : String) :
    (atWord word).run r = (.ok (x.isWord word), r) :=
  run_bind_of_ok (run_peek_of_ahead h)

/-- The word that is expected is taken if it comes next. -/
theorem run_expectWord_of_ahead {word : String} (h : r.ahead = x :: ts)
    (hx : x.isWord word = true) : (expectWord word).run r = (.ok x, r.drop x) := by
  rw [expectWord, run_bind_of_ok (run_atWord_of_ahead h word), if_pos hx, run_advance_of_ahead h]

/-- A token is taken by `eat` of its own kind. -/
theorem run_eat_of_ahead (h : r.ahead = x :: ts) :
    (eat x.kind).run r = (.ok (some x), r.drop x) := by
  have hat := run_atKind_of_peek (run_peek_of_ahead h) x.kind
  rw [eat, run_bind_of_ok hat, if_pos (by simp), run_bind_of_ok (run_advance_of_ahead h), run_pure]

/-- The first token of an item, if it `opensItem`, is taken by `item`. -/
theorem reaches_item (h : r.ahead = x :: ts) (hx : x.opensItem = true) :
    Reaches ((r.note (.item x.span.line x.span.column x.kind)).drop x) (item.run r).2 := by
  have hs : (r.note (.item x.span.line x.span.column x.kind)).ahead = x :: ts := h
  rw [item, run_bind_of_ok (run_peek_of_ahead h), run_note_bind]
  generalize r.note (.item x.span.line x.span.column x.kind) = s at hs ⊢
  split
  · rename_i hkind
    have heat := run_eat_of_ahead hs
    rw [beq_iff_eq.1 hkind] at heat
    refine .trans ?_ (reaches_behind annots _ s)
    refine .trans ?_ (reaches_many _ s)
    refine .trans ?_ (reaches_behind (eat .annotOpen) _ s)
    rw [heat]
    exact .refl _
  · rename_i hkind
    rw [run_bind_of_ok (run_atWord_of_ahead hs "mod")]
    by_cases hmod : x.isWord "mod" = true
    · rw [if_pos hmod]
      refine .trans ?_ (reaches_behind (module [] x.span) _ s)
      refine .trans ?_ (reaches_behind (discard (expectWord "mod")) _ s)
      refine .trans ?_ (reaches_behind (expectWord "mod") _ s)
      rw [run_expectWord_of_ahead hs hmod]
      exact .refl _
    · have hexternal : x.isWord "extern" = true := by simpa [Token.opensItem, hkind, hmod] using hx
      rw [if_neg hmod, run_bind_of_ok (run_atWord_of_ahead hs "extern"), if_pos hexternal]
      refine .trans ?_ (reaches_behind external _ s)
      refine .trans ?_ (reaches_behind (expectWord "extern") _ s)
      rw [run_expectWord_of_ahead hs hexternal]
      exact .refl _

/-- A token that no item starts with is reported, and stays: the reader has only noted where the
item would be. -/
theorem run_item_of_stray (h : r.ahead = x :: ts) (hx : x.opensItem = false) :
    item.run r = (.error (.parse (.ofToken x [.keyword "mod", .keyword "extern"])),
      r.note (.item x.span.line x.span.column x.kind)) := by
  obtain ⟨⟨hkind, hmod⟩, hexternal⟩ : ((x.kind == .annotOpen) = false ∧ x.isWord "mod" = false) ∧
      x.isWord "extern" = false := by
    simpa only [Token.opensItem, Bool.or_eq_false_iff] using hx
  have hs : (r.note (.item x.span.line x.span.column x.kind)).ahead = x :: ts := h
  rw [item, run_bind_of_ok (run_peek_of_ahead h), run_note_bind, if_neg (by simp [hkind]),
    run_bind_of_ok (run_atWord_of_ahead hs "mod"), if_neg (by simp [hmod]),
    run_bind_of_ok (run_atWord_of_ahead hs "extern"), if_neg (by simp [hexternal]), run,
    Reader.peek, hs]

/-! ## The first item of a document -/

variable {bytes : Nat}

/-- At the end of the text, reading a document gives the empty one. -/
theorem run_document_of_eof (hpeek : r.peek = (.ok x, r')) (hx : x.kind = .eof) :
    (document bytes).run r = (.ok ⟨[], ⟨0, bytes, 1, 1⟩⟩, r') := by
  rw [run_document, run_bind_of_ok (run_items_of_eof hpeek hx), run_pure]

/-- Where looking at the next token meets a fault, that is what reading a document answers. -/
theorem run_document_of_fault (hpeek : r.peek = (.error e, r')) :
    (document bytes).run r = (.error e, r') := by
  have hat : (atKind .eof).run r = (.error e, r') := run_bind_of_error hpeek
  have hitems : items.run r = (.error e, r') := by
    rw [items, run, loop, run_bind_of_error hat]
  exact run_bind_of_error hitems

/-- A fault of the first item is what reading a document answers. -/
theorem run_document_of_item {r₁ : Reader Cursor} (hpeek : r.peek = (.ok x, r₁))
    (hx : x.kind ≠ .eof) (hitem : item.run r₁ = (.error e, r')) :
    (document bytes).run r = (.error e, r') := by
  have hat := run_atKind_of_peek hpeek .eof
  have hitems : items.run r = (.error e, r') := by
    rw [items, run, loop, run_bind_of_ok hat, if_neg (by simp [hx]), run_bind_of_error hitem]
  exact run_bind_of_error hitems

/-- Where a document does not end at once, it goes on behind its first item. -/
theorem reaches_document (bytes : Nat) {r₁ : Reader Cursor} (hpeek : r.peek = (.ok x, r₁))
    (hx : x.kind ≠ .eof) : Reaches (item.run r₁).2 ((document bytes).run r).2 := by
  have hat := run_atKind_of_peek hpeek .eof
  refine .trans ?_ (reaches_behind items _ r)
  refine .trans ?_ (reaches_many _ r)
  rw [run_bind_of_ok hat, if_neg (by simp [hx])]
  exact reaches_behind item _ r₁

end Rule

namespace Reader

variable {r r' : Reader Cursor} {bytes : Nat} {answer : Except Error Document}

/-! ## Readers that get no further -/

/-- A reader that reading a document brings no further, and the answer that it gives: it is at the
end of the text, at a token that no item starts with, or at a fault that is met again. -/
inductive Stalled (bytes : Nat) (r : Reader Cursor) : Except Error Document → Prop where
  /-- At the end of the text. -/
  | ended {x : Token} (h : r.Holds [x] none) (hx : x.kind = .eof) :
      Stalled bytes r (.ok ⟨[], ⟨0, bytes, 1, 1⟩⟩)
  /-- At a token that starts no item. -/
  | stray {x : Token} {ts : List Token} {fault : Option LexError} (h : r.Holds (x :: ts) fault)
      (heof : x.kind ≠ .eof) (hopens : x.opensItem = false) :
      Stalled bytes r (.error (.parse (.ofToken x [.keyword "mod", .keyword "extern"])))
  /-- At a character that starts no token. -/
  | faulty {e : LexError} {c : Cursor} (hahead : r.ahead = [])
      (h : r.feed.nextSignificant = (.error e, c)) (again : c.nextSignificant = (.error e, c)) :
      Stalled bytes r (.error (.lex e))

/-- Where no token has been looked at, a fault is met by `peek`. -/
theorem peek_of_fault {e : LexError} {c : Cursor} (hahead : r.ahead = [])
    (h : r.feed.nextSignificant = (.error e, c)) :
    r.peek = (.error (.lex e), { r with feed := c }) := by
  have hnext : Feed.next r.feed = (.error e, c) := h
  simp only [peek, fetch, hahead, hnext]

/-- A stalled reader answers, and is stalled again with the same answer. -/
theorem Stalled.run (h : Stalled bytes r answer) :
    ∃ r', (Rule.document bytes).run r = (answer, r') ∧ Stalled bytes r' answer := by
  cases h with
  | @ended x h hx =>
    obtain ⟨r', hpeek, hr', -⟩ := peek_of_cons h
    exact ⟨r', Rule.run_document_of_eof hpeek hx, .ended hr' hx⟩
  | @stray x ts fault h heof hopens =>
    obtain ⟨r', hpeek, hr', -⟩ := peek_of_cons h
    obtain ⟨ahead, hahead⟩ := exists_ahead_of_peek hpeek
    have hitem := Rule.run_item_of_stray hahead hopens
    exact ⟨_, Rule.run_document_of_item hpeek heof hitem, .stray (hr'.note _) heof hopens⟩
  | faulty hahead h again =>
    exact ⟨_, Rule.run_document_of_fault (peek_of_fault hahead h), .faulty hahead again again⟩

/-- A stalled reader gives the same answer ever after, by induction on the number of `documents`. -/
theorem Stalled.eq_of_mem (h : Stalled bytes r answer) (n : Nat) :
    ∀ result ∈ r.documents bytes n, result = answer := by
  induction n generalizing r with
  | zero => simp [documents]
  | succ n ih =>
    obtain ⟨r', hrun, hr'⟩ := h.run
    rw [documents, hrun]
    exact List.forall_mem_cons.2 ⟨rfl, ih hr'⟩

/-- A document that is accepted leaves the reader `Stalled` at the end of the text. -/
theorem Sound.stalled_of_ok {d : Document} (h : r.Sound)
    (hrun : (Rule.document bytes).run r = (.ok d, r')) :
    Stalled bytes r' (.ok ⟨[], ⟨0, bytes, 1, 1⟩⟩) := by
  obtain ⟨ts, fault, hr⟩ := h.holds
  have hout := (Rule.parses_document (P := fun _ => True) bytes).outcome hr trivial
  rw [hrun] at hout
  cases hout with
  | @built _ _ _ w rest _ holds _ _ _ follows _ =>
    obtain ⟨s, -, hkind, hstarts⟩ := follows
    cases rest with
    | nil => exact absurd hstarts Rule.not_starts_nil
    | cons x rest =>
      obtain rfl := Rule.starts_cons.1 hstarts
      obtain ⟨-, rfl, rfl, -⟩ := holds.eof_cases hkind
      exact .ended holds hkind

/-- Where a fault comes next, the reader is `Stalled`, or the fault is that of a string that is not
closed, and is not met again. -/
theorem stalled_or_lt_of_nil {fault : Option LexError} (hr : r.Holds [] fault) (bytes : Nat) :
    (∃ answer, Stalled bytes r answer) ∨
      ((Rule.document bytes).run r).2.pending < r.pending := by
  obtain ⟨seen, ends, given, hsplit, hnil, -, hends, hgives⟩ := hr
  obtain ⟨rfl, rfl⟩ := List.append_eq_nil_iff.1 hnil.symm
  obtain rfl : ends = [] := List.eq_nil_iff_forall_not_mem.2 fun t ht => by simpa using hends t ht
  have hahead : r.ahead = [] := hsplit
  cases hgives with
  | @fault _ c e h =>
    rcases Cursor.nextSignificant_behind_error h with again | ⟨htrue, hfalse⟩
    · exact .inl ⟨_, .faulty hahead h again⟩
    · right
      have hpeek := peek_of_fault hahead h
      have hsuffix := r.walk_peek.suffix.2
      rw [hpeek] at hsuffix
      rw [Rule.run_document_of_fault hpeek]
      refine Nat.add_lt_add_of_le_of_lt hsuffix.sublist.countP_le ?_
      simp [htrue, hfalse]

/-- Where an item may start (`opensItem`), its first token is taken, and `pending` is smaller. -/
theorem lt_of_opensItem {x : Token} {ts : List Token} {fault : Option LexError}
    (hr : r.Holds (x :: ts) fault) (heof : x.kind ≠ .eof) (hopens : x.opensItem = true)
    (bytes : Nat) : ((Rule.document bytes).run r).2.pending < r.pending := by
  obtain ⟨r', hpeek, -⟩ := peek_of_cons hr
  obtain ⟨ahead, hahead⟩ := exists_ahead_of_peek hpeek
  have hlook : Reaches r r.peek.2 := ⟨_, r.walk_peek⟩
  rw [hpeek] at hlook
  have hrest := (Rule.reaches_item hahead hopens).trans (Rule.reaches_document bytes hpeek heof)
  calc ((Rule.document bytes).run r).2.pending
      ≤ ((r'.note (.item x.span.line x.span.column x.kind)).drop x).pending := hrest.pending_le
    _ < (r'.note (.item x.span.line x.span.column x.kind)).pending := pending_drop_lt hahead heof
    _ ≤ r.pending := hlook.pending_le

/-- Reading a document finds a sound reader `Stalled`, or brings it further. -/
theorem Sound.stalled_or_lt (h : r.Sound) (bytes : Nat) :
    (∃ answer, Stalled bytes r answer) ∨
      ((Rule.document bytes).run r).2.pending < r.pending := by
  obtain ⟨ts, fault, hr⟩ := h.holds
  cases ts with
  | nil => exact stalled_or_lt_of_nil hr bytes
  | cons x ts =>
    by_cases heof : x.kind = .eof
    · obtain ⟨-, rfl, rfl, -⟩ := hr.eof_cases heof
      exact .inl ⟨_, .ended hr heof⟩
    cases hopens : x.opensItem with
    | false => exact .inl ⟨_, .stray hr heof hopens⟩
    | true => exact .inr (lt_of_opensItem hr heof hopens bytes)

/-- The answers settle: behind the first `pending` of them they are all the same. -/
theorem Sound.exists_answer (h : r.Sound) (bytes : Nat) :
    ∃ answer, ∀ n, ∀ result ∈ (r.documents bytes n).drop r.pending, result = answer := by
  induction hpending : r.pending using Nat.strongRecOn generalizing r with
  | ind size ih =>
    subst hpending
    rcases h.stalled_or_lt bytes with ⟨answer, hstalled⟩ | hlt
    · exact ⟨answer, fun n result hmem => hstalled.eq_of_mem n result (List.mem_of_mem_drop hmem)⟩
    · obtain ⟨answer, hanswer⟩ := ih _ hlt (sound_of_run (Rule.document bytes) h) rfl
      refine ⟨answer, fun n result hmem => ?_⟩
      cases n with
      | zero => simp [documents] at hmem
      | succ n =>
        refine hanswer n result ?_
        have hlater := List.drop_subset_drop_left (r.documents bytes (n + 1)) hlt hmem
        rwa [documents, List.drop_succ_cons] at hlater

/-- Behind a document that is accepted there are only empty ones, as the reader is `Stalled`
there. -/
theorem Sound.pairwise_documents (h : r.Sound) (bytes n : Nat) :
    (r.documents bytes n).Pairwise fun result later =>
      ∀ d, result = .ok d → later = .ok ⟨[], ⟨0, bytes, 1, 1⟩⟩ := by
  induction n generalizing r with
  | zero => exact .nil
  | succ n ih =>
    refine List.pairwise_cons.2 ⟨?_, ih (sound_of_run _ h)⟩
    intro later hlater d hd
    have hstalled := h.stalled_of_ok (Prod.ext hd rfl : (Rule.document bytes).run r = (.ok d, _))
    exact hstalled.eq_of_mem n later hlater

/-! ## All states -/

/-- The states that a reader goes through while it is asked for `n` documents, the states inside
each reading included. -/
def history (bytes : Nat) : Nat → Reader Cursor → List (Reader Cursor)
  | 0, _ => []
  | n + 1, r =>
    (Rule.document bytes).states r ++ history bytes n ((Rule.document bytes).run r).2

/-- The states of the `history` are a `Walk` of single moves. -/
theorem exists_walk_history (r : Reader Cursor) (bytes n : Nat) :
    ∃ s, Walk r (r.history bytes n) s := by
  induction n generalizing r with
  | zero => exact ⟨r, .nil r⟩
  | succ n ih =>
    obtain ⟨s, hs⟩ := ih ((Rule.document bytes).run r).2
    exact ⟨s, ((Rule.document bytes).walk_states r).append hs⟩

end Reader

/-- At the start of a source, `pending` is at most the number of tokens before the end of the text,
and one more. -/
theorem Reader.pending_ofSource_le (source : String) :
    (ofSource source).pending ≤ (Cursor.ofSource source).delivered.countP (·.kind != .eof) + 1 := by
  rw [pending, ofSource, toCome_ofFeed]
  exact Nat.add_le_add_left (Bool.toNat_le _) _

/-- A reader that is asked for `documents` again and again takes every token of its source once and
in order, whatever it answers.  In every state that it goes through, the tokens to come are a final
part of those that the source delivers, and no more than two of them have been looked at.  They only
get fewer: from one state to the next they stay, or the first of them is gone.  Behind a document
that is accepted there are only empty ones.  And the answers settle: they are the same from there on
when there have been as many as there are tokens before the end of the text, and one more. -/
theorem restarts_take_once (source : String) (n : Nat) :
    let r : Reader Cursor := .ofSource source
    let bytes := sourceSize source
    let tokens := (Cursor.ofSource source).delivered
    (∀ s ∈ r :: r.history bytes n, s.toCome <:+ tokens ∧ s.ahead.length ≤ 2) ∧
    ((r :: r.history bytes n).Pairwise fun s s' => s'.toCome <:+ s.toCome) ∧
    ((r :: r.history bytes n).IsChain fun s s' =>
      s.toCome = s'.toCome ∨ ∃ x, s.toCome = x :: s'.toCome) ∧
    ((r.documents bytes n).Pairwise fun result later =>
      ∀ d, result = .ok d → later = .ok ⟨[], ⟨0, bytes, 1, 1⟩⟩) ∧
    ∃ answer, ∀ m, ∀ result ∈ (r.documents bytes m).drop (tokens.countP (·.kind != .eof) + 1),
      result = answer := by
  intro r bytes tokens
  have hstart : r.toCome = tokens := Reader.toCome_ofFeed _
  have hahead : r.ahead.length ≤ 2 := Nat.zero_le 2
  have hsound : r.Sound := Reader.sound_ofSource source
  obtain ⟨last, hwalk⟩ := r.exists_walk_history bytes n
  refine ⟨?_, hwalk.pairwise, hwalk.isChain, hsound.pairwise_documents bytes n, ?_⟩
  · rw [← hstart]
    refine List.forall_mem_cons.2 ⟨⟨List.suffix_refl _, hahead⟩, fun s hs => ?_⟩
    exact ⟨hwalk.suffix.1 s hs, hwalk.short hahead s hs⟩
  · obtain ⟨answer, hanswer⟩ := hsound.exists_answer bytes
    refine ⟨answer, fun m result hmem => hanswer m result ?_⟩
    exact List.drop_subset_drop_left _ (Reader.pending_ofSource_le source) hmem

end Gxl
