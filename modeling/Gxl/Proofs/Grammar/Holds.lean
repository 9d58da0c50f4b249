import Gxl.Grammar.Rule
import Gxl.Proofs.Token.Stream

/-!
# What a reader holds

A reader holds the tokens that it has looked at and those that its feed still gives.  Looking ahead
moves tokens from one to the other and changes nothing of what is held (`peek_of_holds`,
`peekSecond_of_holds`); taking a token takes the first (`advance_of_holds`).

The end of the text is a token of its own here, the last one, and is never taken.  It may have been
looked at more than once, and then stands among the tokens ahead more than once.
-/

namespace Gxl.Reader

variable {σ : Type} [Feed σ]

/-- The tokens that a reader holds, from the next one on: those of `ahead` and those that its feed
gives, with the fault that ends them if the end of the text does not. -/
def Holds (r : Reader σ) (ts : List Token) (fault : Option LexError) : Prop :=
  ∃ seen ends given, r.ahead = seen ++ ends ∧ ts = seen ++ given ∧
    (∀ t ∈ seen, t.symbol.genuine = true) ∧ (∀ t ∈ ends, t.kind = .eof ∧ given = [t]) ∧
    Feed.Gives r.feed given fault

/-- At its start a reader holds what its feed gives (`Feed.Gives`). -/
theorem holds_ofFeed {s : σ} {ts : List Token} {fault : Option LexError}
    (h : Feed.Gives s ts fault) : (ofFeed s).Holds ts fault :=
  ⟨[], [], ts, rfl, rfl, by simp, by simp, h⟩

/-- The reader holds the same tokens whatever it has noted by `note`. -/
theorem Holds.note {r : Reader σ} {ts : List Token} {fault : Option LexError}
    (h : r.Holds ts fault) (e : Event) : (r.note e).Holds ts fault :=
  h

/-- A feed gives one thing only: `Feed.Gives` determines the tokens. -/
theorem eq_of_gives {s : σ} {ts ts' : List Token} {fault fault' : Option LexError}
    (h : Feed.Gives s ts fault) (h' : Feed.Gives s ts' fault') : ts = ts' := by
  induction h generalizing ts' with
  | fault h =>
    cases h' with
    | fault => rfl
    | eof h₁ => simp [h] at h₁
    | token h₁ => simp [h] at h₁
  | eof h _ ht _ =>
    cases h' with
    | fault h₁ => simp [h] at h₁
    | eof h₁ => simp_all
    | token h₁ hgenuine =>
      obtain ⟨rfl, rfl⟩ : _ = _ ∧ _ = _ := by simpa [h] using h₁
      exact absurd ht (kind_ne_eof_of_genuine hgenuine)
  | token h hgenuine _ _ ih =>
    cases h' with
    | fault h₁ => simp [h] at h₁
    | eof h₁ _ ht =>
      obtain ⟨rfl, rfl⟩ : _ = _ ∧ _ = _ := by simpa [h] using h₁
      exact absurd ht (kind_ne_eof_of_genuine hgenuine)
    | token h₁ _ _ hs =>
      obtain ⟨rfl, rfl⟩ : _ = _ ∧ _ = _ := by simpa [h] using h₁
      rw [ih hs]

/-- The tokens looked at are parted in one way only into `genuine` ones and ends of the text. -/
theorem eq_of_seen {seen seen' ends ends' : List Token} (h : seen ++ ends = seen' ++ ends')
    (hseen : ∀ t ∈ seen, t.symbol.genuine = true) (hseen' : ∀ t ∈ seen', t.symbol.genuine = true)
    (hends : ∀ t ∈ ends, t.kind = .eof) (hends' : ∀ t ∈ ends', t.kind = .eof) : seen = seen' := by
  rcases List.append_eq_append_iff.1 h with ⟨_ | ⟨t, ts⟩, rfl, rfl⟩ | ⟨_ | ⟨t, ts⟩, rfl, rfl⟩
  · simp
  · exact absurd (hends t (by simp)) (kind_ne_eof_of_genuine (hseen' t (by simp)))
  · simp
  · exact absurd (hends' t (by simp)) (kind_ne_eof_of_genuine (hseen t (by simp)))

/-- A reader holds one thing only: `Holds` determines the tokens. -/
theorem Holds.unique {r : Reader σ} {ts ts' : List Token} {fault fault' : Option LexError}
    (h : r.Holds ts fault) (h' : r.Holds ts' fault') : ts = ts' := by
  obtain ⟨seen, ends, given, hahead, rfl, hseen, hends, hgives⟩ := h
  obtain ⟨seen', ends', given', hahead', rfl, hseen', hends', hgives'⟩ := h'
  rw [eq_of_gives hgives hgives', eq_of_seen (hahead.symm.trans hahead') hseen hseen'
    (fun t ht => (hends t ht).1) fun t ht => (hends' t ht).1]

/-- What a feed gives is `genuine`, up to the end of the text. -/
theorem genuine_or_eof_of_gives {s : σ} {ts : List Token} {fault : Option LexError}
    (h : Feed.Gives s ts fault) : ∀ t ∈ ts, t.symbol.genuine = true ∨ t.kind = .eof := by
  induction h with
  | fault _ => simp
  | eof _ _ ht _ => simpa using .inr ht
  | token _ ht _ _ ih =>
    rintro u (_ | ⟨_, hu⟩)
    · exact .inl ht
    · exact ih u hu

/-- The tokens that a reader holds are `genuine`, up to the end of the text. -/
theorem genuine_or_eof_of_holds {r : Reader σ} {ts : List Token} {fault : Option LexError}
    (h : r.Holds ts fault) : ∀ t ∈ ts, t.symbol.genuine = true ∨ t.kind = .eof := by
  obtain ⟨seen, ends, given, _, rfl, hseen, _, hgives⟩ := h
  intro t ht
  rcases List.mem_append.1 ht with ht | ht
  · exact .inl (hseen t ht)
  · exact genuine_or_eof_of_gives hgives t ht

/-- A token is fetched behind those looked at, or the fault is met: what `fetch` does. -/
theorem fetch_of_gives {r : Reader σ} {given : List Token} {fault : Option LexError}
    (hseen : ∀ t ∈ r.ahead, t.symbol.genuine = true) (hgives : Feed.Gives r.feed given fault) :
    (∃ e r', given = [] ∧ fault = some e ∧ r.fetch = (.error (.lex e), r')) ∨
      ∃ x ts r', given = x :: ts ∧ r.fetch = (.ok x, r') ∧ r'.ahead = r.ahead ++ [x] ∧
        r'.Holds (r.ahead ++ given) fault ∧ r'.size ≤ r.size := by
  cases hgives with
  | fault h => exact .inl ⟨_, _, rfl, rfl, by rw [fetch, h]⟩
  | @eof _ s' x h again hx hsize =>
    -- the feed hands out the end of the text again, so it is looked at and still given
    refine .inr ⟨x, [], _, rfl, by rw [fetch, h], rfl, ?_, ?_⟩
    · refine ⟨r.ahead, [x], [x], rfl, rfl, hseen, ?_, .eof again again hx (Nat.le_refl _)⟩
      simp [hx]
    · simp [size, hx, hsize]
  | @token _ s' x ts _ h hx hsize hrest =>
    refine .inr ⟨x, ts, _, rfl, by rw [fetch, h], rfl, ?_, ?_⟩
    · refine ⟨r.ahead ++ [x], [], ts, by simp, by simp, ?_, by simp, hrest⟩
      intro t ht
      rcases List.mem_append.1 ht with ht | ht
      · exact hseen t ht
      · rw [List.mem_singleton.1 ht]
        exact hx
    · have hcount : [x].countP (·.kind != .eof) = 1 := by
        simp [kind_ne_eof_of_genuine hx]
      simp only [size, List.countP_append, hcount]
      omega

/-- The first of the tokens looked at is the first of all that a reader holds. -/
theorem exists_cons_of_ahead {x : Token} {ahead seen ends given : List Token}
    (hahead : x :: ahead = seen ++ ends) (hends : ∀ t ∈ ends, t.kind = .eof ∧ given = [t]) :
    ∃ ts, seen ++ given = x :: ts := by
  cases seen with
  | nil =>
    obtain rfl : x :: ahead = ends := hahead
    exact ⟨[], (hends x (by simp)).2⟩
  | cons s seen =>
    obtain ⟨rfl, -⟩ : x = s ∧ ahead = seen ++ ends := by simpa using hahead
    exact ⟨seen ++ given, rfl⟩

/-- Looking at the next token with `peek` shows the first token held, or the fault when none is. -/
theorem peek_of_holds {r : Reader σ} {ts : List Token} {fault : Option LexError}
    (h : r.Holds ts fault) :
    (∃ e r', ts = [] ∧ fault = some e ∧ r.peek = (.error (.lex e), r')) ∨
      ∃ x ts' r', ts = x :: ts' ∧ r.peek = (.ok x, r') ∧ r'.ahead.head? = some x ∧
        r'.Holds ts fault ∧ r'.size ≤ r.size := by
  obtain ⟨seen, ends, given, hahead, rfl, hseen, hends, hgives⟩ := id h
  rcases hr : r.ahead with _ | ⟨x, xs⟩
  · obtain ⟨rfl, rfl⟩ : seen = [] ∧ ends = [] := by simpa [hr] using hahead
    rcases fetch_of_gives (r := r) (by simp [hr]) hgives with
      ⟨e, r', rfl, hf, hfetch⟩ | ⟨x, ts', r', rfl, hfetch, hx, hholds, hsize⟩
    · exact .inl ⟨e, r', rfl, hf, by rw [peek, hr]; exact hfetch⟩
    · refine .inr ⟨x, ts', r', rfl, by rw [peek, hr]; exact hfetch, by simp [hx, hr], ?_, hsize⟩
      simpa [hr] using hholds
  · have hpeek : r.peek = (.ok x, r) := by rw [peek, hr]
    obtain ⟨ts', hts⟩ := exists_cons_of_ahead (hr ▸ hahead) hends
    exact .inr ⟨x, ts', r, hts, hpeek, by simp [hr], h, Nat.le_refl _⟩

/-- Where there is no token to look at, `peek` meets the fault. -/
theorem peek_of_nil {r : Reader σ} {fault : Option LexError} (h : r.Holds [] fault) :
    ∃ e r', fault = some e ∧ r.peek = (.error (.lex e), r') := by
  rcases peek_of_holds h with ⟨e, r', -, hfault, hpeek⟩ | ⟨x, ts, r', hts, -⟩
  · exact ⟨e, r', hfault, hpeek⟩
  · simp at hts

/-- Where there is a token to look at, `peek` shows it. -/
theorem peek_of_cons {r : Reader σ} {x : Token} {ts : List Token} {fault : Option LexError}
    (h : r.Holds (x :: ts) fault) :
    ∃ r', r.peek = (.ok x, r') ∧ r'.Holds (x :: ts) fault ∧ r'.size ≤ r.size := by
  rcases peek_of_holds h with ⟨e, r', hts, -⟩ | ⟨y, ts', r', hts, hpeek, -, hr', hsize⟩
  · simp at hts
  · obtain ⟨rfl, -⟩ := List.cons.inj hts
    exact ⟨r', hpeek, hr', hsize⟩

/-- A token that has been looked at and is not the end of the text is the first one held; the rest
of `ahead` is in front of the rest. -/
theorem holds_cons {r : Reader σ} {x t : Token} {ts ahead : List Token} {fault : Option LexError}
    (h : r.Holds (x :: ts) fault) (hx : x.symbol.genuine = true) (hahead : r.ahead = t :: ahead) :
    t = x ∧ ∃ seen ends given, ahead = seen ++ ends ∧ ts = seen ++ given ∧
      (∀ t ∈ seen, t.symbol.genuine = true) ∧ (∀ t ∈ ends, t.kind = .eof ∧ given = [t]) ∧
      Feed.Gives r.feed given fault := by
  obtain ⟨seen, ends, given, hsplit, hts, hseen, hends, hgives⟩ := h
  rw [hahead] at hsplit
  cases seen with
  | nil =>
    -- only the end of the text would be left, and the first token is not that
    obtain rfl : t :: ahead = ends := hsplit
    obtain ⟨heof, rfl⟩ := hends t (by simp)
    obtain rfl : x = t := by simpa using congrArg List.head? hts
    exact absurd heof (kind_ne_eof_of_genuine hx)
  | cons s seen =>
    obtain ⟨rfl, rfl⟩ : t = s ∧ ahead = seen ++ ends := by simpa using hsplit
    obtain ⟨rfl, rfl⟩ : x = t ∧ ts = seen ++ given := by simpa using hts
    exact ⟨rfl, seen, ends, given, rfl, rfl, fun t ht => hseen t (by simp [ht]), hends, hgives⟩

/-- Taking the next token with `advance` takes the first token held, unless that is the end of the
text. -/
theorem advance_of_holds {r : Reader σ} {x : Token} {ts : List Token} {fault : Option LexError}
    (h : r.Holds (x :: ts) fault) (hx : x.symbol.genuine = true) :
    ∃ r', r.advance = (.ok x, r') ∧ r'.Holds ts fault ∧ r'.size + 1 ≤ r.size := by
  have hkind := kind_ne_eof_of_genuine hx
  rcases peek_of_holds h with ⟨e, r', hts, _⟩ | ⟨y, ts', r', hts, hpeek, hhead, hholds, hsize⟩
  · simp at hts
  obtain ⟨rfl, rfl⟩ : x = y ∧ ts = ts' := by simpa using hts
  obtain ⟨t, ahead, hahead⟩ : ∃ t ahead, r'.ahead = t :: ahead := by
    cases hr : r'.ahead with
    | nil => simp [hr] at hhead
    | cons t ahead => exact ⟨t, ahead, rfl⟩
  obtain ⟨rfl, seen, ends, given, hrest, rfl, hseen, hends, hgives⟩ := holds_cons hholds hx hahead
  refine ⟨r'.drop t, by rw [advance, hpeek], ⟨seen, ends, given, ?_, rfl, hseen, hends, hgives⟩, ?_⟩
  · simp [drop, hkind, hahead, hrest]
  · have hdrop : (r'.drop t).size + 1 = r'.size := by
      simp only [drop, size, hkind, hahead, if_false, List.tail_cons]
      rw [List.countP_cons_of_pos (by simp [hkind])]
      omega
    omega

/-- When only the first token has been looked at, `fetch` shows the second. -/
theorem fetch_second {r : Reader σ} {x : Token} {ts : List Token} {fault : Option LexError}
    (h : r.Holds (x :: ts) fault) (hx : x.symbol.genuine = true) (hahead : r.ahead = [x]) :
    (∃ e r', ts = [] ∧ fault = some e ∧ r.fetch = (.error (.lex e), r')) ∨
      ∃ y ts' r', ts = y :: ts' ∧ r.fetch = (.ok y, r') ∧
        r'.Holds (x :: ts) fault ∧ r'.size ≤ r.size := by
  obtain ⟨-, seen, ends, given, hnil, rfl, -, -, hgives⟩ := holds_cons h hx hahead
  obtain ⟨rfl, rfl⟩ : seen = [] ∧ ends = [] := by simpa using hnil.symm
  rcases fetch_of_gives (r := r) (by simpa [hahead] using hx) hgives with
    herror | ⟨y, ts', r', hgiven, hfetch, -, hholds, hsize⟩
  · exact .inl herror
  · exact .inr ⟨y, ts', r', hgiven, hfetch, by simpa [hahead] using hholds, hsize⟩

/-- Looking at the token after the next with `peekSecond` shows the second token held, or the fault
when there is no second. -/
theorem peekSecond_of_holds {r : Reader σ} {x : Token} {ts : List Token} {fault : Option LexError}
    (h : r.Holds (x :: ts) fault) (hx : x.symbol.genuine = true) :
    (∃ e r', ts = [] ∧ fault = some e ∧ r.peekSecond = (.error (.lex e), r')) ∨
      ∃ y ts' r', ts = y :: ts' ∧ r.peekSecond = (.ok y, r') ∧
        r'.Holds (x :: ts) fault ∧ r'.size ≤ r.size := by
  rcases hr : r.ahead with _ | ⟨t, _ | ⟨u, ahead⟩⟩
  · -- nothing has been looked at: both tokens are fetched
    obtain ⟨seen, ends, given, hahead, hts, -, -, hgives⟩ := id h
    obtain ⟨rfl, rfl⟩ : seen = [] ∧ ends = [] := by simpa [hr] using hahead
    obtain rfl : x :: ts = given := hts
    rcases fetch_of_gives (r := r) (by simp [hr]) hgives with
      ⟨e, r', hnil, -⟩ | ⟨y, ts', r₁, hxy, hfetch, hahead₁, hholds, hsize₁⟩
    · simp at hnil
    obtain ⟨rfl, rfl⟩ : x = y ∧ ts = ts' := by simpa using hxy
    rw [hr, List.nil_append] at hahead₁ hholds
    have hsecond : r.peekSecond = r₁.fetch := by
      simp only [peekSecond, hr, hfetch]
    rw [hsecond]
    rcases fetch_second hholds hx hahead₁ with herror | ⟨z, ts'', r', hz, hfetch', hholds', hsize'⟩
    · exact .inl herror
    · exact .inr ⟨z, ts'', r', hz, hfetch', hholds', Nat.le_trans hsize' hsize₁⟩
  · obtain ⟨rfl, -⟩ := holds_cons h hx hr
    have hsecond : r.peekSecond = r.fetch := by rw [peekSecond, hr]
    rw [hsecond]
    exact fetch_second h hx hr
  · obtain ⟨-, seen, ends, given, hahead, rfl, -, hends, -⟩ := holds_cons h hx hr
    have hsecond : r.peekSecond = (.ok u, r) := by rw [peekSecond, hr]
    obtain ⟨ts', hts⟩ := exists_cons_of_ahead hahead hends
    exact .inr ⟨u, ts', r, hts, hsecond, h, Nat.le_refl _⟩

end Gxl.Reader
