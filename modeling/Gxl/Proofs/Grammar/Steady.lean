import Gxl.Proofs.Grammar.Combine

/-!
# Rules on two readers

A rule can be run on any feed.  What it builds, or where it fails, is decided by the tokens that the
feed gives and by nothing else of the feed: two readers that hold the same tokens (`Alike`) end
alike (`Steady.agree`).

There is one thing that differs between feeds.  A step is repeated as long as it makes the reader
smaller, and how much smaller it makes it is up to the feed: a cursor that passes over a comment has
less text to read, though no token has been taken.  So rules are asked to be `Steady`: whatever they
repeat takes a token each time, and then every feed repeats it.
-/

namespace Gxl

namespace Reader

variable {σ τ : Type} [Feed σ] [Feed τ]

/-! ## The end of the text -/

/-- Once the end of the text comes first, it is all that is left: of the tokens `ahead` and of the
feed. -/
theorem Holds.eof_cases {r : Reader σ} {x : Token} {ts : List Token} {fault : Option LexError}
    (h : r.Holds (x :: ts) fault) (hx : x.kind = .eof) :
    (∀ t ∈ r.ahead, t = x) ∧ ts = [] ∧ fault = none ∧ Feed.Gives r.feed [x] none := by
  obtain ⟨seen, ends, given, hahead, hts, hseen, hends, hgives⟩ := h
  cases seen with
  | cons s seen =>
    obtain ⟨rfl, -⟩ := List.cons.inj hts
    exact absurd hx (kind_ne_eof_of_genuine (hseen x (by simp)))
  | nil =>
    rw [List.nil_append] at hahead hts
    subst hts
    cases hgives with
    | eof hnext again ht hsize =>
      refine ⟨?_, rfl, rfl, .eof hnext again ht hsize⟩
      intro t ht'
      rw [hahead] at ht'
      exact (List.cons.inj (hends t ht').2).1.symm
    | token _ hgenuine _ _ => exact absurd hx (kind_ne_eof_of_genuine hgenuine)

/-- At the end of the text `fetch` finds the end of the text, and the reader holds it still. -/
theorem fetch_of_eof {r : Reader σ} {x : Token} {fault : Option LexError}
    (h : r.Holds [x] fault) (hx : x.kind = .eof) :
    ∃ r', r.fetch = (.ok x, r') ∧ r'.Holds [x] fault ∧ r'.size ≤ r.size := by
  obtain ⟨hahead, -, rfl, hgives⟩ := h.eof_cases hx
  cases hgives with
  | @eof _ s' _ hnext again ht hsize =>
    refine ⟨_, by rw [fetch, hnext], ⟨[], _, [x], rfl, rfl, by simp, ?_,
      .eof again again ht (Nat.le_refl _)⟩, ?_⟩
    · intro t ht'
      rcases List.mem_append.1 ht' with ht' | ht'
      · rw [hahead t ht']
        exact ⟨hx, rfl⟩
      · rw [List.mem_singleton.1 ht']
        exact ⟨hx, rfl⟩
    · simp only [size, List.countP_append]
      simpa [hx] using hsize
  | token _ hgenuine _ _ => exact absurd hx (kind_ne_eof_of_genuine hgenuine)

/-- The token after the end of the text is the end of the text, for `peekSecond` too. -/
theorem peekSecond_of_eof {r : Reader σ} {x : Token} {fault : Option LexError}
    (h : r.Holds [x] fault) (hx : x.kind = .eof) :
    ∃ r', r.peekSecond = (.ok x, r') ∧ r'.Holds [x] fault ∧ r'.size ≤ r.size := by
  obtain ⟨hahead, -⟩ := h.eof_cases hx
  rcases hr : r.ahead with _ | ⟨t, _ | ⟨u, ahead⟩⟩
  · obtain ⟨r₁, hfetch₁, hr₁, hsize₁⟩ := fetch_of_eof h hx
    obtain ⟨r₂, hfetch₂, hr₂, hsize₂⟩ := fetch_of_eof hr₁ hx
    exact ⟨r₂, by simp only [peekSecond, hr, hfetch₁, hfetch₂], hr₂, Nat.le_trans hsize₂ hsize₁⟩
  · obtain ⟨r₁, hfetch₁, hr₁, hsize₁⟩ := fetch_of_eof h hx
    exact ⟨r₁, by simp only [peekSecond, hr, hfetch₁], hr₁, hsize₁⟩
  · obtain rfl : u = x := hahead u (by simp [hr])
    exact ⟨r, by simp only [peekSecond, hr], h, (Nat.le_refl _)⟩

/-! ## Where the last token ended -/

/-- Fetching a token takes none, so `lastEnd` is as it was. -/
theorem lastEnd_fetch (r : Reader σ) : r.fetch.2.lastEnd = r.lastEnd := by
  rw [fetch]
  split <;> rfl

/-- Looking at a token with `peek` takes none. -/
theorem lastEnd_peek (r : Reader σ) : r.peek.2.lastEnd = r.lastEnd := by
  rw [peek]
  split
  · exact r.lastEnd_fetch
  · rfl

/-- Nor does looking at the second. -/
theorem lastEnd_peekSecond (r : Reader σ) : r.peekSecond.2.lastEnd = r.lastEnd := by
  rw [peekSecond]
  split
  · have hfetch := r.lastEnd_fetch
    split
    · rename_i e r' hr
      rwa [hr] at hfetch
    · rename_i t r' hr
      rw [hr] at hfetch
      rw [lastEnd_fetch, hfetch]
  · exact r.lastEnd_fetch
  · rfl

/-- Taking a token with `advance` puts the reader behind it. -/
theorem lastEnd_of_advance {r r' : Reader σ} {t : Token} (h : r.advance = (.ok t, r')) :
    r'.lastEnd = t.span.stop := by
  rw [advance] at h
  split at h
  · simp at h
  · obtain ⟨rfl, rfl⟩ : _ = t ∧ _ = r' := by simpa using h
    rfl

/-! ## Readers that are alike -/

/-- Two readers that hold the same tokens (`Holds`) and stand behind the same place. -/
structure Alike (r : Reader σ) (s : Reader τ) : Prop where
  holds : ∃ ts fault, r.Holds ts fault ∧ s.Holds ts fault
  lastEnd : r.lastEnd = s.lastEnd

/-- Two runs that end alike: both fail in the same way, or both build the same on readers that are
`Alike`, neither of which has got larger. -/
inductive Agree {α : Type} (r : Reader σ) (s : Reader τ) :
    Except Error α × Reader σ → Except Error α × Reader τ → Prop where
  | error {e : Error} {r' : Reader σ} {s' : Reader τ} : Agree r s (.error e, r') (.error e, s')
  | ok {a : α} {r' : Reader σ} {s' : Reader τ} (alike : Alike r' s') (left : r'.size ≤ r.size)
      (right : s'.size ≤ s.size) : Agree r s (.ok a, r') (.ok a, s')

/-- Runs from smaller readers are runs from larger ones, as `Agree` only bounds the size. -/
theorem Agree.within {α : Type} {r r' : Reader σ} {s s' : Reader τ}
    {o₁ : Except Error α × Reader σ} {o₂ : Except Error α × Reader τ} (h : Agree r' s' o₁ o₂)
    (hr : r'.size ≤ r.size) (hs : s'.size ≤ s.size) : Agree r s o₁ o₂ := by
  cases h with
  | error => exact .error
  | ok alike left right => exact .ok alike (Nat.le_trans left hr) (Nat.le_trans right hs)

/-- Runs that `Agree` have the same result. -/
theorem Agree.result_eq {α : Type} {r : Reader σ} {s : Reader τ} {o₁ : Except Error α × Reader σ}
    {o₂ : Except Error α × Reader τ} (h : Agree r s o₁ o₂) : o₁.1 = o₂.1 := by
  cases h with
  | error => rfl
  | ok => rfl

/-- A reader that holds tokens is `Alike` itself. -/
theorem Holds.alike {r : Reader σ} {ts : List Token} {fault : Option LexError}
    (h : r.Holds ts fault) : Alike r r :=
  ⟨⟨ts, fault, h, h⟩, rfl⟩

/-- Two runs that both meet the fault end alike, so they `Agree`. -/
theorem Agree.of_fault {r : Reader σ} {s : Reader τ} {fault : Option LexError}
    {o₁ : Except Error Token × Reader σ} {o₂ : Except Error Token × Reader τ}
    (h₁ : ∃ e r', fault = some e ∧ o₁ = (.error (.lex e), r'))
    (h₂ : ∃ e s', fault = some e ∧ o₂ = (.error (.lex e), s')) : Agree r s o₁ o₂ := by
  obtain ⟨e, r', rfl, rfl⟩ := h₁
  obtain ⟨e', s', he, rfl⟩ := h₂
  obtain rfl := Option.some.inj he
  exact .error

/-- Two runs that both show the same token `x` end alike, if they hold the same tokens then. -/
theorem Agree.of_token {r : Reader σ} {s : Reader τ} {x : Token} {ts : List Token}
    {fault : Option LexError} {o₁ : Except Error Token × Reader σ}
    {o₂ : Except Error Token × Reader τ}
    (h₁ : ∃ r', o₁ = (.ok x, r') ∧ r'.Holds ts fault ∧ r'.size ≤ r.size)
    (h₂ : ∃ s', o₂ = (.ok x, s') ∧ s'.Holds ts fault ∧ s'.size ≤ s.size)
    (hlast : o₁.2.lastEnd = o₂.2.lastEnd) : Agree r s o₁ o₂ := by
  obtain ⟨r', rfl, hr, hn⟩ := h₁
  obtain ⟨s', rfl, hs, hm⟩ := h₂
  exact .ok ⟨⟨ts, fault, hr, hs⟩, hlast⟩ hn hm

/-! ## One look or one token -/

/-- Where there is no token to look at, there is none after it either, and `peekSecond` meets the
fault. -/
theorem peekSecond_of_nil {r : Reader σ} {fault : Option LexError} (h : r.Holds [] fault) :
    ∃ e r', fault = some e ∧ r.peekSecond = (.error (.lex e), r') := by
  obtain ⟨e, r', hfault, hpeek⟩ := peek_of_nil h
  refine ⟨e, r', hfault, ?_⟩
  rw [peek] at hpeek
  split at hpeek
  · rename_i hahead
    simp only [peekSecond, hahead, hpeek]
  · simp at hpeek

/-- Behind the last token `peekSecond` meets the fault. -/
theorem peekSecond_of_singleton {r : Reader σ} {x : Token} {fault : Option LexError}
    (h : r.Holds [x] fault) (hx : x.symbol.genuine = true) :
    ∃ e r', fault = some e ∧ r.peekSecond = (.error (.lex e), r') := by
  rcases peekSecond_of_holds h hx with ⟨e, r', -, hfault, hpeek⟩ | ⟨y, ts, r', hts, -⟩
  · exact ⟨e, r', hfault, hpeek⟩
  · simp at hts

/-- Where there are two tokens, `peekSecond` shows the second. -/
theorem peekSecond_of_cons {r : Reader σ} {x y : Token} {ts : List Token}
    {fault : Option LexError} (h : r.Holds (x :: y :: ts) fault) (hx : x.symbol.genuine = true) :
    ∃ r', r.peekSecond = (.ok y, r') ∧ r'.Holds (x :: y :: ts) fault ∧ r'.size ≤ r.size := by
  rcases peekSecond_of_holds h hx with ⟨e, r', hts, -⟩ | ⟨z, ts', r', hts, hpeek, hr', hsize⟩
  · simp at hts
  · obtain ⟨rfl, -⟩ := List.cons.inj hts
    exact ⟨r', hpeek, hr', hsize⟩

/-- Where there is no token to take, `advance` meets the fault. -/
theorem advance_of_nil {r : Reader σ} {fault : Option LexError} (h : r.Holds [] fault) :
    ∃ e r', fault = some e ∧ r.advance = (.error (.lex e), r') := by
  obtain ⟨e, r', hfault, hpeek⟩ := peek_of_nil h
  exact ⟨e, r', hfault, by rw [advance, hpeek]⟩

/-- Where there is one, `advance` takes it. -/
theorem advance_of_cons {r : Reader σ} {x : Token} {ts : List Token} {fault : Option LexError}
    (h : r.Holds (x :: ts) fault) (hx : x.symbol.genuine = true) :
    ∃ r', r.advance = (.ok x, r') ∧ r'.Holds ts fault ∧ r'.size ≤ r.size := by
  obtain ⟨r', hadvance, hr', hsize⟩ := advance_of_holds h hx
  exact ⟨r', hadvance, hr', Nat.le_of_lt hsize⟩

/-- Taking the end of the text leaves it where it is, since `advance` never drops it. -/
theorem advance_of_eof {r : Reader σ} {x : Token} {fault : Option LexError}
    (h : r.Holds [x] fault) (hx : x.kind = .eof) :
    ∃ r', r.advance = (.ok x, r') ∧ r'.Holds [x] fault ∧ r'.size ≤ r.size := by
  obtain ⟨r', hpeek, hr', hsize⟩ := peek_of_cons h
  refine ⟨r'.drop x, by rw [advance, hpeek], ?_, ?_⟩
  · simpa [Holds, drop, hx] using hr'
  · simpa [size, drop, hx] using hsize

variable {r : Reader σ} {s : Reader τ}

/-- Readers that are `Alike` show the same next token. -/
theorem Alike.peek (h : Alike r s) : Agree r s r.peek s.peek := by
  obtain ⟨⟨ts, fault, hr, hs⟩, hlast⟩ := h
  cases ts with
  | nil => exact .of_fault (peek_of_nil hr) (peek_of_nil hs)
  | cons x ts =>
    refine .of_token (peek_of_cons hr) (peek_of_cons hs) ?_
    rw [lastEnd_peek, lastEnd_peek, hlast]

/-- Readers that are `Alike` show the same token after the next. -/
theorem Alike.peekSecond (h : Alike r s) : Agree r s r.peekSecond s.peekSecond := by
  obtain ⟨⟨ts, fault, hr, hs⟩, hlast⟩ := h
  have hlast : r.peekSecond.2.lastEnd = s.peekSecond.2.lastEnd := by
    rw [lastEnd_peekSecond, lastEnd_peekSecond, hlast]
  cases ts with
  | nil => exact .of_fault (peekSecond_of_nil hr) (peekSecond_of_nil hs)
  | cons x ts =>
    rcases genuine_or_eof_of_holds hr x (by simp) with hx | hx
    · cases ts with
      | nil => exact .of_fault (peekSecond_of_singleton hr hx) (peekSecond_of_singleton hs hx)
      | cons y ts => exact .of_token (peekSecond_of_cons hr hx) (peekSecond_of_cons hs hx) hlast
    · obtain ⟨-, rfl, -⟩ := hr.eof_cases hx
      exact .of_token (peekSecond_of_eof hr hx) (peekSecond_of_eof hs hx) hlast

/-- Readers that are `Alike` give the same token away. -/
theorem Alike.advance (h : Alike r s) : Agree r s r.advance s.advance := by
  obtain ⟨⟨ts, fault, hr, hs⟩, -⟩ := h
  cases ts with
  | nil => exact .of_fault (advance_of_nil hr) (advance_of_nil hs)
  | cons x ts =>
    -- the place behind the token is the same on both sides, whatever it was before
    have hlast : ∀ {ts' : List Token},
        (∃ r', r.advance = (.ok x, r') ∧ r'.Holds ts' fault ∧ r'.size ≤ r.size) →
        (∃ s', s.advance = (.ok x, s') ∧ s'.Holds ts' fault ∧ s'.size ≤ s.size) →
        r.advance.2.lastEnd = s.advance.2.lastEnd := by
      rintro ts' ⟨r', hr', -⟩ ⟨s', hs', -⟩
      rw [hr', hs', lastEnd_of_advance hr', lastEnd_of_advance hs']
    rcases genuine_or_eof_of_holds hr x (by simp) with hx | hx
    · have hr' := advance_of_cons hr hx
      have hs' := advance_of_cons hs hx
      exact .of_token hr' hs' (hlast hr' hs')
    · obtain ⟨-, rfl, -⟩ := hr.eof_cases hx
      have hr' := advance_of_eof hr hx
      have hs' := advance_of_eof hs hx
      exact .of_token hr' hs' (hlast hr' hs')

end Reader

namespace Rule

open Reader

variable {σ τ : Type} [Feed σ] [Feed τ] {r : Reader σ} {s : Reader τ} {α β : Type}

/-! ## Rules that take a token each time -/

/-- Every time the step goes on, it has taken a token, whatever the feed: the reader has got
smaller. -/
def Strides (step : Rule (Option α)) : Prop :=
  ∀ (σ : Type) [Feed σ] (r r' : Reader σ) (ts : List Token) (fault : Option LexError) (a : α),
    r.Holds ts fault → step.run r = (.ok (some a), r') → r'.size < r.size

/-- Whatever the rule repeats takes a token each time (`Strides`). -/
def Steady : {α : Type} → Rule α → Prop
  | _, seq first next => first.Steady ∧ ∀ a, (next a).Steady
  | _, many step => step.Steady ∧ step.Strides
  | _, _ => True

@[simp] theorem steady_pure (a : α) : (pure a : Rule α).Steady := trivial

/-- Rules one behind the other are steady if each of them is. -/
@[simp] theorem steady_bind {x : Rule α} {k : α → Rule β} :
    (x >>= k).Steady ↔ x.Steady ∧ ∀ a, (k a).Steady := Iff.rfl

@[simp] theorem steady_peek : peek.Steady := trivial

@[simp] theorem steady_peekSecond : peekSecond.Steady := trivial

@[simp] theorem steady_advance : advance.Steady := trivial

@[simp] theorem steady_lastEnd : lastEnd.Steady := trivial

@[simp] theorem steady_note (e : Event) : (note e).Steady := trivial

@[simp] theorem steady_fail (expected : List Expected) : (fail expected : Rule α).Steady := trivial

/-- Repeating a step that `Strides` agrees, if the step does. -/
theorem agree_loop {step : Rule (Option α)} (hstrides : step.Strides)
    (hstep : ∀ {r : Reader σ} {s : Reader τ}, Alike r s → Agree r s (step.run r) (step.run s))
    (h : Alike r s) : Agree r s (loop step.run r) (loop step.run s) := by
  -- the induction is on the size of the first reader; `hstrides` takes the second one along
  induction hn : r.size using Nat.strongRecOn generalizing r s with
  | ind n ih =>
    subst hn
    obtain ⟨ts, fault, hr, hs⟩ := h.holds
    have hagree := hstep h
    rw [loop, loop]
    rcases hleft : step.run r with ⟨e | o, r'⟩ <;>
      rcases hright : step.run s with ⟨e' | o', s'⟩ <;> rw [hleft, hright] at hagree <;>
      cases hagree
    · exact .error
    · rename_i left right alike
      cases o with
      | none => exact .ok alike left right
      | some a =>
        have hlt := hstrides σ r r' ts fault a hr hleft
        simp only [hlt, hstrides τ s s' ts fault a hs hright, if_true]
        have hrest := (ih r'.size hlt alike rfl).within left right
        generalize loop step.run r' = o₁ at hrest
        generalize loop step.run s' = o₂ at hrest
        cases hrest with
        | error => exact .error
        | ok alike' left' right' => exact .ok alike' left' right'

/-- A steady rule ends alike on readers that are `Alike`, by induction on the rule. -/
theorem Steady.agree {x : Rule α} (hx : x.Steady) (h : Alike r s) :
    Agree r s (x.run r) (x.run s) := by
  induction x generalizing r s with
  | ret a => exact .ok h (Nat.le_refl _) (Nat.le_refl _)
  | seq first next ihfirst ihnext =>
    have hagree := ihfirst hx.1 h
    rw [run, run]
    generalize first.run r = o₁ at hagree
    generalize first.run s = o₂ at hagree
    cases hagree with
    | error => exact .error
    | @ok a _ _ alike left right => exact (ihnext a (hx.2 a) alike).within left right
  | peek => exact h.peek
  | peekSecond => exact h.peekSecond
  | advance => exact h.advance
  | lastEnd =>
    rw [run, run, h.lastEnd]
    exact .ok h (Nat.le_refl _) (Nat.le_refl _)
  | note e =>
    obtain ⟨ts, fault, hr, hs⟩ := h.holds
    exact .ok ⟨⟨ts, fault, hr.note e, hs.note e⟩, h.lastEnd⟩ (Nat.le_refl _) (Nat.le_refl _)
  | fail expected =>
    have hagree := h.peek
    rw [run, run]
    generalize r.peek = o₁ at hagree
    generalize s.peek = o₂ at hagree
    cases hagree with
    | error => exact .error
    | ok => exact .error
  | many step ih => exact agree_loop hx.2 (ih hx.1) h

/-- A steady rule makes no reader larger: it agrees with itself. -/
theorem Steady.size_le {x : Rule α} (hx : x.Steady) {ts : List Token} {fault : Option LexError}
    (h : r.Holds ts fault) {a : α} {r' : Reader σ} (hrun : x.run r = (.ok a, r')) :
    r'.size ≤ r.size := by
  have hagree := hx.agree h.alike
  rw [hrun] at hagree
  cases hagree with
  | ok _ left _ => exact left

/-! ## Steps that take a token -/

/-- A step that starts with a sign takes the sign, so it `Strides`. -/
theorem strides_eat {sign : Kind} {k : Option Token → Rule (Option α)} (hsign : sign ≠ .eof)
    (hsome : ∀ t, (k (some t)).Steady) (hnone : k none = pure none) : (eat sign >>= k).Strides := by
  intro σ _ r r' ts fault a hr hrun
  rw [Parses.run_eat_bind, run_bind, run] at hrun
  cases ts with
  | nil =>
    obtain ⟨e, r₁, -, hpeek⟩ := peek_of_nil hr
    rw [hpeek] at hrun
    simp at hrun
  | cons t ts =>
    obtain ⟨r₁, hpeek, hr₁, hsize₁⟩ := peek_of_cons hr
    rw [hpeek] at hrun
    by_cases hkind : t.kind = sign
    · have ht : t.symbol.genuine = true :=
        (genuine_or_eof_of_holds hr t (by simp)).resolve_right (hkind ▸ hsign)
      obtain ⟨r₂, hadvance, hr₂, hsize₂⟩ := advance_of_holds hr₁ ht
      simp only [hkind, if_true, run_bind, run, hadvance] at hrun
      have hsize := (hsome t).size_le hr₂ hrun
      omega
    · simp only [hkind, if_false, hnone, run_pure, Prod.mk.injEq, Except.ok.injEq] at hrun
      simp at hrun

/-- A step that reads an entry, as its `Parses` says, takes the tokens of the entry. -/
theorem Strides.of_parses {step : Rule (Option α)} {Den : β → α → Prop} {y : β → Phrase}
    {F : Option β → Phrase → Prop} {E : Phrase → Remark → Prop}
    (h : Parses (fun _ => True) step (Option.Rel Den) (fun b w => w = b.elim [] y) F E)
    (hy : ∀ b, y b ≠ []) : step.Strides := by
  intro σ _ r r' ts fault a hr hrun
  have hout := h.outcome hr trivial
  rw [hrun] at hout
  cases hout with
  | @built _ _ b w rest split holds size denotes derives follows only =>
    cases denotes with
    | @some b _ hden =>
      have hpos : 0 < w.length := by
        apply List.length_pos_iff.2
        rintro rfl
        exact hy b derives.symm
      omega

/-! ## The rules that the grammar is built from -/

@[simp] theorem steady_atKind (kind : Kind) : (atKind kind).Steady := by simp [atKind]

@[simp] theorem steady_atWord (word : String) : (atWord word).Steady := by simp [atWord]

/-- Both cases of a choice have to be steady. -/
@[simp] theorem steady_ite {c : Prop} [Decidable c] {x y : Rule α} (hx : x.Steady)
    (hy : y.Steady) : (if c then x else y).Steady := by
  split
  · exact hx
  · exact hy

@[simp] theorem steady_eat (kind : Kind) : (eat kind).Steady := by simp [eat]

@[simp] theorem steady_expect (kind : Kind) : (expect kind).Steady := by
  simp only [expect, steady_bind, steady_eat, true_and]
  rintro (_ | t) <;> simp

@[simp] theorem steady_expectWord (word : String) : (expectWord word).Steady := by
  simp [expectWord]

@[simp] theorem steady_discard {x : Rule α} : (discard x : Rule Unit).Steady ↔ x.Steady :=
  steady_bind.trans (and_iff_left fun _ => trivial)

@[simp] theorem steady_spanFrom (start : Span) : (spanFrom start).Steady := by simp [spanFrom]

@[simp] theorem steady_closing (start : Span) : (closing start).Steady := by simp [closing]

/-- Items behind signs are steady: every round takes a sign. -/
theorem steady_eachAfter {sign : Kind} {item : Rule α} (hsign : sign ≠ .eof) (h : item.Steady) :
    (eachAfter sign item).Steady := by
  refine ⟨?_, strides_eat hsign (fun t => ?_) rfl⟩
  · rw [steady_bind]
    refine ⟨steady_eat sign, ?_⟩
    rintro (_ | t) <;> simp [h]
  · simp [h]

/-- Items with commas between are steady: every round but the first takes a comma. -/
theorem steady_commaList {item : Rule α} (h : item.Steady) : (commaList item).Steady := by
  simp [commaList, h, steady_eachAfter]

end Rule

end Gxl
