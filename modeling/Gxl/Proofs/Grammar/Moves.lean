import Gxl.Grammar.Document
import Gxl.Proofs.Token.Run
import Mathlib.Data.List.Chain

/-!
# The states of a reader

A rule changes its reader step by step, and a rule that fails leaves the reader in the middle of its
work.  This module names all the states on the way.  `Reader.Move` says what one step may do: the
feed passes over a comment, meets a fault, or hands out a token; the first token is taken; an event
is noted.  `Rule.states` lists the states that a run goes through, and they are joined by moves from
the state before the run to the state behind it (`Rule.walk_states`).

So a fact about all states, also those inside a run that fails, is a fact about one move.  A reader
still has some tokens to come (`Reader.toCome`), counted as the cursor would hand them out if it
were asked on and on (`Cursor.delivered`).  A move takes the first of them or none
(`Move.toCome`), and never looks at more than two (`Walk.short`).
-/

namespace Gxl

/-! ## The tokens that a cursor still hands out -/

/-- Tokens up to and with the first end of the text, a token of the kind `eof`. -/
def upToEof : List Token → List Token
  | [] => []
  | t :: ts => if t.kind = .eof then [t] else t :: upToEof ts

/-- The end of the text is the last of the tokens that count. -/
theorem upToEof_cons_of_eof {t : Token} (ht : t.kind = .eof) (ts : List Token) :
    upToEof (t :: ts) = [t] :=
  if_pos ht

/-- Any other token counts, with those behind it. -/
theorem upToEof_cons_of_ne {t : Token} (ht : t.kind ≠ .eof) (ts : List Token) :
    upToEof (t :: ts) = t :: upToEof ts :=
  if_neg ht

/-- What `upToEof` leaves is left as it is. -/
theorem upToEof_upToEof (ts : List Token) : upToEof (upToEof ts) = upToEof ts := by
  induction ts with
  | nil => rfl
  | cons t ts ih =>
    by_cases ht : t.kind = .eof
    · rw [upToEof_cons_of_eof ht, upToEof_cons_of_eof ht]
    · rw [upToEof_cons_of_ne ht, upToEof_cons_of_ne ht, ih]

/-- Behind the end of the text nothing counts for `upToEof`. -/
theorem upToEof_append_eof {t : Token} (ht : t.kind = .eof) (front back : List Token) :
    upToEof (front ++ t :: back) = upToEof (front ++ [t]) := by
  induction front with
  | nil => simp [upToEof, ht]
  | cons u front ih => simp [upToEof, ih]

namespace Cursor

/-- The tokens among the answers to `n` requests, comments and errors left out. -/
def handed (n : Nat) (c : Cursor) : List Token :=
  ((c.steps n).filterMap Except.toOption).filter (·.kind != .comment)

/-- The tokens that a cursor hands out if it is asked on and on, comments and errors left out, up to
and with the end of the text.  Every request takes some of the text, but for the one that meets a
fault and the one that finds the end, so these requests are enough (`upToEof_handed`). -/
def delivered (c : Cursor) : List Token :=
  upToEof (c.handed (c.rest.length + 2))

variable {c c' : Cursor} {t : Token} {e : LexError}

/-- An error among the answers is left out. -/
theorem handed_of_error (h : c.next = (.error e, c')) (n : Nat) :
    c.handed (n + 1) = c'.handed n := by
  rw [handed, steps, h, List.filterMap_cons_none rfl, handed]

/-- A comment among the answers is left out. -/
theorem handed_of_comment (h : c.next = (.ok t, c')) (ht : t.kind = .comment) (n : Nat) :
    c.handed (n + 1) = c'.handed n := by
  simp [handed, steps, h, ht, Except.toOption]

/-- Any other token is handed out first. -/
theorem handed_of_token (h : c.next = (.ok t, c')) (ht : t.kind ≠ .comment) (n : Nat) :
    c.handed (n + 1) = t :: c'.handed n := by
  simp [handed, steps, h, ht, Except.toOption]

/-- A cursor that meets the same fault again and again hands out nothing: `handed` is empty. -/
theorem handed_of_stuck (h : c.next = (.error e, c)) (n : Nat) : c.handed n = [] := by
  induction n with
  | zero => rfl
  | succ n ih => rw [handed_of_error h, ih]

/-- However often a cursor is asked, if often enough: the tokens up to the end of the text are the
same. -/
theorem upToEof_handed_eq {n m : Nat} (hn : c.rest.length + 2 ≤ n) (hm : c.rest.length + 2 ≤ m) :
    upToEof (c.handed n) = upToEof (c.handed m) := by
  -- the induction is on the text that is left; a fault ends it
  induction hsize : c.rest.length using Nat.strongRecOn generalizing c n m with
  | ind size ih =>
    subst hsize
    obtain ⟨n, rfl⟩ : ∃ k, n = k + 1 := ⟨n - 1, by omega⟩
    obtain ⟨m, rfl⟩ : ∃ k, m = k + 1 := ⟨m - 1, by omega⟩
    rcases hnext : c.next with ⟨e | t, c'⟩
    · rw [handed_of_error hnext, handed_of_error hnext]
      rcases behind_error hnext with again | ⟨hrest, -⟩
      · rw [handed_of_stuck again, handed_of_stuck again]
      · obtain ⟨n, rfl⟩ : ∃ k, n = k + 1 := ⟨n - 1, by omega⟩
        obtain ⟨m, rfl⟩ : ∃ k, m = k + 1 := ⟨m - 1, by omega⟩
        have heof := next_of_rest_nil hrest
        rw [handed_of_token heof (by simp), handed_of_token heof (by simp),
          upToEof_cons_of_eof rfl, upToEof_cons_of_eof rfl]
    · by_cases ht : t.kind = .eof
      · rw [handed_of_token hnext (by simp [ht]), handed_of_token hnext (by simp [ht]),
          upToEof_cons_of_eof ht, upToEof_cons_of_eof ht]
      · have hlt := rest_lt_of_next hnext ht
        have hrest : upToEof (c'.handed n) = upToEof (c'.handed m) :=
          ih c'.rest.length hlt (by omega) (by omega) rfl
        by_cases hc : t.kind = .comment
        · rw [handed_of_comment hnext hc, handed_of_comment hnext hc, hrest]
        · rw [handed_of_token hnext hc, handed_of_token hnext hc, upToEof_cons_of_ne ht,
            upToEof_cons_of_ne ht, hrest]

/-- Asking more often brings no other tokens to light than those `delivered`. -/
theorem upToEof_handed {n : Nat} (hn : c.rest.length + 2 ≤ n) :
    upToEof (c.handed n) = c.delivered :=
  upToEof_handed_eq hn (Nat.le_refl _)

/-- A fault does not count among the tokens `delivered`. -/
theorem delivered_of_error (h : c.next = (.error e, c')) : c.delivered = c'.delivered := by
  rw [← upToEof_handed (c := c) (n := c.rest.length + c'.rest.length + 3) (by omega),
    handed_of_error h, upToEof_handed (by omega)]

/-- Nor does a comment. -/
theorem delivered_of_comment (h : c.next = (.ok t, c')) (ht : t.kind = .comment) :
    c.delivered = c'.delivered := by
  rw [← upToEof_handed (c := c) (n := c.rest.length + c'.rest.length + 3) (by omega),
    handed_of_comment h ht, upToEof_handed (by omega)]

/-- At the end of the text, that is the only token delivered. -/
theorem delivered_of_eof (h : c.next = (.ok t, c')) (ht : t.kind = .eof) :
    c.delivered = [t] := by
  rw [delivered, handed_of_token h (by simp [ht]), upToEof_cons_of_eof ht]

/-- Any other token is the first one delivered. -/
theorem delivered_of_token (h : c.next = (.ok t, c')) (hcomment : t.kind ≠ .comment)
    (heof : t.kind ≠ .eof) : c.delivered = t :: c'.delivered := by
  rw [← upToEof_handed (c := c) (n := c.rest.length + c'.rest.length + 3) (by omega),
    handed_of_token h hcomment, upToEof_cons_of_ne heof, upToEof_handed (by omega)]

/-! ## The next token that is no comment -/

/-- Skipping comments, an error is met at once. -/
theorem nextSignificant_of_error (h : c.next = (.error e, c')) :
    c.nextSignificant = (.error e, c') := by
  rw [nextSignificant]
  split <;> simp_all

/-- Skipping comments goes on behind a comment. -/
theorem nextSignificant_of_comment (h : c.next = (.ok t, c')) (ht : t.kind = .comment) :
    c.nextSignificant = c'.nextSignificant := by
  rw [nextSignificant]
  split <;> simp_all

/-- Skipping comments ends at any other token. -/
theorem nextSignificant_of_token (h : c.next = (.ok t, c')) (ht : t.kind ≠ .comment) :
    c.nextSignificant = (.ok t, c') := by
  rw [nextSignificant]
  split <;> simp_all

end Cursor

namespace Reader

/-! ## Moves -/

/-- One change of a reader, of its feed, its tokens `ahead` or its events. -/
inductive Move : Reader Cursor → Reader Cursor → Prop where
  /-- The feed passes over a comment. -/
  | skip {r : Reader Cursor} {c : Cursor} {t : Token} (h : r.feed.next = (.ok t, c))
      (ht : t.kind = .comment) : Move r { r with feed := c }
  /-- The feed meets a fault. -/
  | fault {r : Reader Cursor} {c : Cursor} {e : LexError} (h : r.feed.next = (.error e, c)) :
      Move r { r with feed := c }
  /-- The feed hands out a token, which is looked at and not yet taken.  At most one other token has
  been looked at before. -/
  | look {r : Reader Cursor} {c : Cursor} {t : Token} (h : r.feed.next = (.ok t, c))
      (ht : t.kind ≠ .comment) (room : r.ahead.length < 2) :
      Move r { r with
        feed := c, ahead := r.ahead ++ [t], events := r.events ++ Event.ofToken t }
  /-- The first of the tokens that have been looked at is taken. -/
  | take {r : Reader Cursor} {t : Token} {ts : List Token} (h : r.ahead = t :: ts) :
      Move r (r.drop t)
  /-- An event is noted. -/
  | note (r : Reader Cursor) (e : Event) : Move r (r.note e)

/-- Moves one after the other, with the states that they lead to: the last of these is the second
reader. -/
inductive Walk : Reader Cursor → List (Reader Cursor) → Reader Cursor → Prop where
  | nil (r : Reader Cursor) : Walk r [] r
  | cons {r s t : Reader Cursor} {states : List (Reader Cursor)} (h : Move r s)
      (hs : Walk s states t) : Walk r (s :: states) t

variable {r s t : Reader Cursor} {states states' : List (Reader Cursor)}

/-- A single move is a walk. -/
theorem Move.walk (h : Move r s) : Walk r [s] s :=
  .cons h (.nil s)

/-- Two walks make one, if the second starts where the first ends. -/
theorem Walk.append (h : Walk r states s) (h' : Walk s states' t) :
    Walk r (states ++ states') t := by
  induction h with
  | nil => exact h'
  | cons h _ ih => exact .cons h (ih h')

/-- A `Walk` leads from one reader to another. -/
def Reaches (r s : Reader Cursor) : Prop :=
  ∃ states, Walk r states s

/-- No move at all reaches the same reader. -/
theorem Reaches.refl (r : Reader Cursor) : Reaches r r :=
  ⟨[], .nil r⟩

/-- What is reached in two parts is reached. -/
theorem Reaches.trans (h : Reaches r s) (h' : Reaches s t) : Reaches r t := by
  obtain ⟨states, hwalk⟩ := h
  obtain ⟨states', hwalk'⟩ := h'
  exact ⟨states ++ states', hwalk.append hwalk'⟩

/-- What every `Move` keeps, a walk keeps. -/
theorem Walk.preserves {I : Reader Cursor → Prop} (hmove : ∀ r s, Move r s → I r → I s)
    (h : Walk r states t) (hr : I r) : (∀ s ∈ states, I s) ∧ I t := by
  induction h with
  | nil => exact ⟨by simp, hr⟩
  | @cons r s t states h _ ih =>
    have hs := hmove r s h hr
    exact ⟨List.forall_mem_cons.2 ⟨hs, (ih hs).1⟩, (ih hs).2⟩

/-! ## The tokens to come -/

/-- The tokens that a reader has not taken: those that it has looked at, and those that its feed
still delivers, up to and with the end of the text (`upToEof`). -/
def toCome (r : Reader Cursor) : List Token :=
  upToEof (r.ahead ++ r.feed.delivered)

/-- At its start, a reader has all tokens to come that its cursor has `delivered`. -/
theorem toCome_ofFeed (c : Cursor) : (ofFeed c).toCome = c.delivered :=
  upToEof_upToEof _

/-- Taking a token with `drop` takes the first of those to come, unless it is the end of the
text. -/
theorem toCome_drop {x : Token} {ts : List Token} (h : r.ahead = x :: ts) :
    r.toCome = if x.kind = .eof then (r.drop x).toCome else x :: (r.drop x).toCome := by
  by_cases hx : x.kind = .eof
  · simp [toCome, drop, hx]
  · simp [toCome, drop, hx, h, upToEof]

/-- A move takes the first of the tokens to come (`Reader.toCome`), or none of them. -/
theorem Move.toCome (h : Move r s) : r.toCome = s.toCome ∨ ∃ x, r.toCome = x :: s.toCome := by
  cases h with
  | skip h ht => exact .inl (by simp [Reader.toCome, Cursor.delivered_of_comment h ht])
  | fault h => exact .inl (by simp [Reader.toCome, Cursor.delivered_of_error h])
  | @look c t h ht room =>
    left
    by_cases heof : t.kind = .eof
    · -- the end of the text is handed out again, behind the first
      have again := Cursor.next_of_next_eof h heof
      simp only [Reader.toCome, Cursor.delivered_of_eof h heof, Cursor.delivered_of_eof again heof,
        List.append_assoc, List.singleton_append]
      exact (upToEof_append_eof heof r.ahead [t]).symm
    · simp [Reader.toCome, Cursor.delivered_of_token h ht heof]
  | @take x ts h =>
    have hdrop := toCome_drop h
    split at hdrop
    · exact .inl hdrop
    · exact .inr ⟨x, hdrop⟩
  | note e => exact .inl rfl

/-- The tokens to come only get fewer, from the front: those behind a move are a suffix. -/
theorem Move.suffix (h : Move r s) : s.toCome <:+ r.toCome := by
  rcases h.toCome with hsame | ⟨x, hx⟩
  · exact hsame ▸ List.suffix_refl _
  · exact hx ▸ List.suffix_cons x _

/-- Along a walk the tokens to come are a suffix of those before it. -/
theorem Walk.suffix (h : Walk r states t) :
    (∀ s ∈ states, s.toCome <:+ r.toCome) ∧ t.toCome <:+ r.toCome :=
  h.preserves (I := fun s => s.toCome <:+ r.toCome) (fun _ _ hmove hr => hmove.suffix.trans hr)
    (List.suffix_refl _)

/-- Along a walk, the tokens to come of a later state are a suffix of those of every state before
it. -/
theorem Walk.pairwise (h : Walk r states t) :
    (r :: states).Pairwise fun s s' => s'.toCome <:+ s.toCome := by
  induction h with
  | nil => simp
  | @cons r s t states h hs ih =>
    have hall := (Walk.cons h hs).suffix.1
    exact List.pairwise_cons.2 ⟨hall, ih⟩

/-- From state to state at most one token is taken, by `Move.toCome`. -/
theorem Walk.isChain (h : Walk r states t) :
    (r :: states).IsChain fun s s' => s.toCome = s'.toCome ∨ ∃ x, s.toCome = x :: s'.toCome := by
  induction h with
  | nil => exact .singleton _
  | cons h _ ih => exact .cons_cons h.toCome ih

/-- No more than two tokens are looked at ahead: only `Move.look` adds one, and has `room` for
it. -/
theorem Walk.short (h : Walk r states t) (hr : r.ahead.length ≤ 2) :
    ∀ s ∈ states, s.ahead.length ≤ 2 := by
  refine (h.preserves (I := fun s => s.ahead.length ≤ 2) ?_ hr).1
  intro r s hmove hr
  cases hmove with
  | skip | fault | note => exact hr
  | look h ht room =>
    simp only [List.length_append, List.length_singleton]
    omega
  | @take x ts h =>
    simp only [drop]
    split
    · exact hr
    · simp only [List.length_tail]
      omega

/-! ## The states of looking and taking -/

/-- The states that a reader goes through when it fetches a token: one for every comment that is
passed over, and one for the token or the fault (`fetch`). -/
def fetchStates (r : Reader Cursor) : List (Reader Cursor) :=
  match h : r.feed.next with
  | (.error _, c) => [{ r with feed := c }]
  | (.ok t, c) =>
    if ht : t.kind = .comment then
      have := Cursor.rest_lt_of_next h (by simp [ht])
      { r with feed := c } :: fetchStates { r with feed := c }
    else
      [{ r with feed := c, ahead := r.ahead ++ [t], events := r.events ++ Event.ofToken t }]
termination_by r.feed.rest.length

/-- The states of looking at the next token with `peek`: none if it has been looked at. -/
def peekStates (r : Reader Cursor) : List (Reader Cursor) :=
  match r.ahead with
  | [] => r.fetchStates
  | _ :: _ => []

/-- The states of looking at the token after the next with `peekSecond`. -/
def peekSecondStates (r : Reader Cursor) : List (Reader Cursor) :=
  match r.ahead with
  | [] =>
    r.fetchStates ++
      match r.fetch with
      | (.error _, _) => []
      | (.ok _, r') => r'.fetchStates
  | [_] => r.fetchStates
  | _ :: _ :: _ => []

/-- The states of taking the next token with `advance`: those of `peek`, and one more. -/
def advanceStates (r : Reader Cursor) : List (Reader Cursor) :=
  r.peekStates ++
    match r.peek with
    | (.error _, _) => []
    | (.ok t, r') => [r'.drop t]

/-- Fetching a token walks through its states, by induction on the text that is left. -/
theorem walk_fetch (r : Reader Cursor) (room : r.ahead.length < 2) :
    Walk r r.fetchStates r.fetch.2 := by
  fun_induction fetchStates r with
  | case1 r e c h =>
    have hnext : Feed.next r.feed = (.error e, c) := Cursor.nextSignificant_of_error h
    rw [fetch, hnext]
    exact (Move.fault h).walk
  | case2 r t c h ht _ ih =>
    have hnext : Feed.next r.feed = Feed.next c := Cursor.nextSignificant_of_comment h ht
    have hfetch : r.fetch = fetch { r with feed := c } := by simp only [fetch, hnext]
    rw [hfetch]
    exact .cons (.skip h ht) (ih room)
  | case3 r t c h ht =>
    have hnext : Feed.next r.feed = (.ok t, c) := Cursor.nextSignificant_of_token h ht
    rw [fetch, hnext]
    exact (Move.look h ht room).walk

/-- Looking at the next token walks through its states. -/
theorem walk_peek (r : Reader Cursor) : Walk r r.peekStates r.peek.2 := by
  rcases hahead : r.ahead with _ | ⟨t, ts⟩
  · simp only [peekStates, peek, hahead]
    exact r.walk_fetch (by simp [hahead])
  · simp only [peekStates, peek, hahead]
    exact .nil r

/-- Looking at the token after the next walks through its states. -/
theorem walk_peekSecond (r : Reader Cursor) : Walk r r.peekSecondStates r.peekSecond.2 := by
  rcases hahead : r.ahead with _ | ⟨t, _ | ⟨u, ts⟩⟩
  · simp only [peekSecondStates, peekSecond, hahead]
    have hfirst := r.walk_fetch (by simp [hahead])
    rcases hfetch : r.fetch with ⟨e | x, r'⟩ <;> rw [hfetch] at hfirst
    · simpa using hfirst
    · have hbehind := ahead_of_fetch hfetch
      exact hfirst.append (r'.walk_fetch (by simp [hbehind, hahead]))
  · simp only [peekSecondStates, peekSecond, hahead]
    exact r.walk_fetch (by simp [hahead])
  · simp only [peekSecondStates, peekSecond, hahead]
    exact .nil r

/-- The token that is looked at with `peek` is the first of those `ahead`. -/
theorem exists_ahead_of_peek {r r' : Reader Cursor} {x : Token} (h : r.peek = (.ok x, r')) :
    ∃ ts, r'.ahead = x :: ts := by
  rw [peek] at h
  split at h
  · rename_i hahead
    rw [fetch] at h
    split at h
    · simp at h
    · obtain ⟨hx, rfl⟩ := Prod.mk.inj h
      obtain rfl := Except.ok.inj hx
      exact ⟨[], by simp [hahead]⟩
  · rename_i hahead
    obtain ⟨hx, rfl⟩ := Prod.mk.inj h
    obtain rfl := Except.ok.inj hx
    exact ⟨_, hahead⟩

/-- Taking a token walks through its states. -/
theorem walk_advance (r : Reader Cursor) : Walk r r.advanceStates r.advance.2 := by
  rw [advanceStates, advance]
  have hlook := r.walk_peek
  rcases hpeek : r.peek with ⟨e | x, r'⟩ <;> rw [hpeek] at hlook
  · simpa using hlook
  · obtain ⟨ts, hts⟩ := exists_ahead_of_peek hpeek
    exact hlook.append (Move.take hts).walk

end Reader

namespace Rule

open Reader (Walk Reaches)

/-! ## The states of a run -/

/-- The states of repeating a step, given the run `step` of the step and its `states`. -/
def loopStates {α : Type} (step : Reader Cursor → Except Error (Option α) × Reader Cursor)
    (states : Reader Cursor → List (Reader Cursor)) (r : Reader Cursor) : List (Reader Cursor) :=
  states r ++
    match step r with
    | (.error _, _) => []
    | (.ok none, _) => []
    | (.ok (some _), r') => if r'.size < r.size then loopStates step states r' else []
termination_by r.size

/-- The states that a reader goes through while a rule is run on it, in order, up to the state that
it is left in, one case for each constructor of `Rule`.  The state that it starts from is not among
them. -/
def states {α : Type} : Rule α → Reader Cursor → List (Reader Cursor)
  | ret _, _ => []
  | seq first next, r =>
    first.states r ++
      match first.run r with
      | (.error _, _) => []
      | (.ok a, r') => (next a).states r'
  | peek, r => r.peekStates
  | peekSecond, r => r.peekSecondStates
  | advance, r => r.advanceStates
  | lastEnd, _ => []
  | note e, r => [r.note e]
  | fail _, r => r.peekStates
  | many step, r => loopStates step.run step.states r

/-- Repeating a step walks through its states, if every step does. -/
theorem walk_loop {α : Type} {step : Reader Cursor → Except Error (Option α) × Reader Cursor}
    {states : Reader Cursor → List (Reader Cursor)}
    (hstep : ∀ r, Walk r (states r) (step r).2) (r : Reader Cursor) :
    Walk r (loopStates step states r) (loop step r).2 := by
  induction hsize : r.size using Nat.strongRecOn generalizing r with
  | ind n ih =>
    subst hsize
    have hfirst := hstep r
    rw [loopStates, loop]
    rcases hr : step r with ⟨e | _ | a, r'⟩ <;> rw [hr] at hfirst
    · simpa using hfirst
    · simpa using hfirst
    · refine hfirst.append ?_
      dsimp only
      split
      · rename_i hlt
        have hrest := ih r'.size hlt r' rfl
        rcases hloop : loop step r' with ⟨e | as, r''⟩ <;> rw [hloop] at hrest <;> exact hrest
      · exact .nil r'

/-- The states of a run are joined by moves (`Walk`), from the state before it to the state behind
it. -/
theorem walk_states {α : Type} (x : Rule α) (r : Reader Cursor) :
    Walk r (x.states r) (x.run r).2 := by
  induction x generalizing r with
  | ret a => exact .nil r
  | seq first next ihfirst ihnext =>
    have hfirst := ihfirst r
    rw [states, run]
    rcases hr : first.run r with ⟨e | a, r'⟩ <;> rw [hr] at hfirst
    · simpa using hfirst
    · exact hfirst.append (ihnext a r')
  | peek => exact r.walk_peek
  | peekSecond => exact r.walk_peekSecond
  | advance => exact r.walk_advance
  | lastEnd => exact .nil r
  | note e => exact (Reader.Move.note r e).walk
  | fail expected =>
    have hlook := r.walk_peek
    rw [states, run]
    rcases hr : r.peek with ⟨e | t, r'⟩ <;> rw [hr] at hlook <;> exact hlook
  | many step ih => exact walk_loop ih r

/-- What comes behind a rule goes on from the state that the rule leaves: `next` only moves the
reader further. -/
theorem reaches_behind {α β : Type} (first : Rule α) (next : α → Rule β) (r : Reader Cursor) :
    Reaches (first.run r).2 ((first >>= next).run r).2 := by
  rw [run_bind]
  rcases first.run r with ⟨e | a, r'⟩
  · exact .refl r'
  · exact ⟨_, (next a).walk_states r'⟩

/-- Repeating a step with `many` goes on from the state that the step leaves. -/
theorem reaches_many {α : Type} (step : Rule (Option α)) (r : Reader Cursor) :
    Reaches (step.run r).2 ((many step).run r).2 := by
  rw [run, loop]
  rcases step.run r with ⟨e | _ | a, r'⟩
  · exact .refl r'
  · exact .refl r'
  · dsimp only
    split
    · have hrest := (many step).walk_states r'
      rw [run] at hrest
      rcases hloop : loop step.run r' with ⟨e | as, r''⟩ <;> rw [hloop] at hrest <;>
        exact ⟨_, hrest⟩
    · exact .refl r'

end Rule

end Gxl
