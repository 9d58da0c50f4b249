import Gxl.Proofs.Grammar.SameSymbols
import Gxl.Proofs.Token.Joined

/-!
# How far a rule looks ahead

Two texts have some tokens in common, which stand a number of bytes and lines further on in the
second.  Behind them the first text ends, and the second goes on with what a document may go on
with: an item, or the end of the text (`Reader.Shares`).  What a rule builds on the first it builds
on the second, further on by as much, unless it has come to the end of the first (`Rule.Local`).  It
may look at the token behind the next, but what it looks for there is not what may stand at the
seam.

At the end of a text no rule gets any further (`Rule.atEnd_of_run`), and those that are still
missing something fail (`Rule.FailsAtEnd`).
-/

namespace Gxl

/-- A piece of tree that stands `bytes` and `lines` further on. -/
abbrev Placed.shift {α : Type} [Placed α] (bytes lines : Nat) (a : α) : α :=
  mapSpans (Span.shift bytes lines) a

/-- The tokens that a document may go on with where an item has ended: a word, a builtin command,
`#[` or the end. -/
def Token.Resumes (t : Token) : Prop :=
  t.kind ∈ [.eof, .ident, .builtin, .annotOpen]

/-- The four kinds of token that resume a document. -/
theorem Token.Resumes.kind_cases {t : Token} (h : t.Resumes) :
    t.kind = .eof ∨ t.kind = .ident ∨ t.kind = .builtin ∨ t.kind = .annotOpen := by
  simpa [Resumes] using h

/-- What may stand at a seam is none of the tokens that are looked for behind a word (`Resumes`). -/
theorem Token.Resumes.kind_ne {t : Token} (h : t.Resumes) {kind : Kind}
    (hkind : kind ∉ [.eof, .ident, .builtin, .annotOpen]) : t.kind ≠ kind := by
  rintro rfl
  exact hkind h

namespace Reader

/-- A reader that `Holds` nothing but the end of the text. -/
def AtEnd (r : Reader Cursor) : Prop :=
  ∃ x fault, r.Holds [x] fault ∧ x.kind = .eof

/-- The token that such a reader shows is the end of the text. -/
theorem AtEnd.kind_eq {r : Reader Cursor} {t : Token} {ts : List Token} {fault : Option LexError}
    (h : r.AtEnd) (hr : r.Holds (t :: ts) fault) : t.kind = .eof := by
  obtain ⟨x, fault', hx, hkind⟩ := h
  obtain ⟨r₁, hpeek, -⟩ := peek_of_cons hx
  obtain ⟨r₂, hpeek', -⟩ := peek_of_cons hr
  obtain ⟨rfl, -⟩ : x = t ∧ r₁ = r₂ := by simpa [hpeek] using hpeek'
  exact hkind

/-- Two readers that have some tokens in common, which stand further on for the second.  Behind
these the first holds the end of its text and the second goes on with `rest`.  Once a token is
`taken`, they stand behind the same token. -/
structure Shares (bytes lines : Nat) (taken : Prop) (r s : Reader Cursor)
    (common rest : List Token) : Prop where
  first : ∃ x, x.kind = .eof ∧ r.Holds (common ++ [x]) none
  second : s.Holds (common.map (Token.shift bytes lines) ++ rest) none
  genuine : ∀ t ∈ common, t.symbol.genuine = true
  resumes : ∃ z more, rest = z :: more ∧ z.Resumes
  lastEnd : taken → r.lastEnd + bytes = s.lastEnd

variable {bytes lines : Nat} {taken : Prop} {r s : Reader Cursor} {common rest : List Token}
  {t : Token}

/-- A reader that shares nothing any more is at the end of its text. -/
theorem Shares.atEnd (h : Shares bytes lines taken r s [] rest) : r.AtEnd := by
  obtain ⟨x, hx, hr⟩ := h.first
  exact ⟨x, none, hr, hx⟩

/-- Looking at tokens changes nothing of what is shared, since it leaves `lastEnd` as it is. -/
theorem Shares.look (h : Shares bytes lines taken r s common rest) {r' s' : Reader Cursor}
    {x : Token} (hx : x.kind = .eof) (hr : r'.Holds (common ++ [x]) none)
    (hs : s'.Holds (common.map (Token.shift bytes lines) ++ rest) none)
    (hlast : r'.lastEnd = r.lastEnd) (hlast' : s'.lastEnd = s.lastEnd) :
    Shares bytes lines taken r' s' common rest :=
  ⟨⟨x, hx, hr⟩, hs, h.genuine, h.resumes, fun htaken => by rw [hlast, hlast', h.lastEnd htaken]⟩

/-- Looking at a token leaves the end of the last one taken as it is. -/
theorem lastEnd_of_peek {r' : Reader Cursor} (h : r.peek = (.ok t, r')) :
    r'.lastEnd = r.lastEnd := by
  rw [← r.lastEnd_peek, h]

/-- So does looking at the second. -/
theorem lastEnd_of_peekSecond {r' : Reader Cursor} (h : r.peekSecond = (.ok t, r')) :
    r'.lastEnd = r.lastEnd := by
  rw [← r.lastEnd_peekSecond, h]

/-- Both readers show with `peek` a token that they have in common. -/
theorem Shares.peek (h : Shares bytes lines taken r s (t :: common) rest) :
    ∃ r' s', r.peek = (.ok t, r') ∧ s.peek = (.ok (t.shift bytes lines), s') ∧
      Shares bytes lines taken r' s' (t :: common) rest := by
  obtain ⟨x, hx, hr⟩ := h.first
  obtain ⟨r', hpeek, hr', -⟩ := peek_of_cons hr
  obtain ⟨s', hpeek', hs', -⟩ := peek_of_cons h.second
  exact ⟨r', s', hpeek, hpeek',
    h.look hx hr' hs' (lastEnd_of_peek hpeek) (lastEnd_of_peek hpeek')⟩

/-- At the seam the first reader shows the end of its text, and the second a token that
`Resumes`. -/
theorem Shares.peek_nil (h : Shares bytes lines taken r s [] rest) :
    ∃ x z r' s', r.peek = (.ok x, r') ∧ s.peek = (.ok z, s') ∧ x.kind = .eof ∧ z.Resumes ∧
      Shares bytes lines taken r' s' [] rest := by
  obtain ⟨x, hx, hr⟩ := h.first
  obtain ⟨z, more, rfl, hz⟩ := h.resumes
  obtain ⟨r', hpeek, hr', -⟩ := peek_of_cons hr
  obtain ⟨s', hpeek', hs', -⟩ := peek_of_cons h.second
  exact ⟨x, z, r', s', hpeek, hpeek', hx, hz,
    h.look hx hr' hs' (lastEnd_of_peek hpeek) (lastEnd_of_peek hpeek')⟩

/-- Behind a token that they have in common, `peekSecond` shows both readers the same, or what may
stand at a seam. -/
theorem Shares.peekSecond (h : Shares bytes lines taken r s (t :: common) rest) :
    ∃ u v r' s', r.peekSecond = (.ok u, r') ∧ s.peekSecond = (.ok v, s') ∧
      (v = u.shift bytes lines ∨ (u.Resumes ∧ v.Resumes)) ∧
      Shares bytes lines taken r' s' (t :: common) rest := by
  obtain ⟨ht, -⟩ := List.forall_mem_cons.1 h.genuine
  obtain ⟨x, hx, hr⟩ := h.first
  cases common with
  | nil =>
    obtain ⟨z, more, rfl, hz⟩ := h.resumes
    obtain ⟨r', hpeek, hr', -⟩ := peekSecond_of_cons hr ht
    obtain ⟨s', hpeek', hs', -⟩ := peekSecond_of_cons h.second ht
    exact ⟨x, z, r', s', hpeek, hpeek', .inr ⟨by simp [Token.Resumes, hx], hz⟩,
      h.look hx hr' hs' (lastEnd_of_peekSecond hpeek) (lastEnd_of_peekSecond hpeek')⟩
  | cons u common =>
    obtain ⟨r', hpeek, hr', -⟩ := peekSecond_of_cons hr ht
    obtain ⟨s', hpeek', hs', -⟩ := peekSecond_of_cons h.second ht
    exact ⟨u, u.shift bytes lines, r', s', hpeek, hpeek', .inl rfl,
      h.look hx hr' hs' (lastEnd_of_peekSecond hpeek) (lastEnd_of_peekSecond hpeek')⟩

/-- Both readers give a token away that they have in common with `advance`, and then stand behind
it. -/
theorem Shares.advance (h : Shares bytes lines taken r s (t :: common) rest) :
    ∃ r' s', r.advance = (.ok t, r') ∧ s.advance = (.ok (t.shift bytes lines), s') ∧
      Shares bytes lines True r' s' common rest := by
  obtain ⟨ht, hcommon⟩ := List.forall_mem_cons.1 h.genuine
  obtain ⟨x, hx, hr⟩ := h.first
  obtain ⟨r', hadvance, hr', -⟩ := advance_of_holds hr ht
  obtain ⟨s', hadvance', hs', -⟩ := advance_of_holds h.second ht
  refine ⟨r', s', hadvance, hadvance', ⟨x, hx, hr'⟩, hs', hcommon, h.resumes, fun _ => ?_⟩
  rw [lastEnd_of_advance hadvance, lastEnd_of_advance hadvance']
  rfl

end Reader

namespace Rule

open Reader

variable {α β : Type} {x y : Rule α} {k : α → Rule β}

/-! ## At the end of a text -/

/-- At the end of a text no rule gets any further: it leaves the reader `AtEnd`. -/
theorem atEnd_of_run {r r' : Reader Cursor} {a : α} (h : r.AtEnd) (hrun : x.run r = (.ok a, r')) :
    r'.AtEnd := by
  induction x generalizing r r' with
  | ret a =>
    obtain ⟨-, rfl⟩ : _ ∧ r = r' := by simpa [run] using hrun
    exact h
  | seq first next ihfirst ihnext =>
    rw [run] at hrun
    rcases hfirst : first.run r with ⟨e | b, r₁⟩ <;> rw [hfirst] at hrun
    · simp at hrun
    · exact ihnext b (ihfirst h hfirst) hrun
  | peek =>
    obtain ⟨x, fault, hr, hx⟩ := h
    obtain ⟨r₁, hpeek, hr₁, -⟩ := peek_of_cons hr
    obtain ⟨-, rfl⟩ : _ ∧ r₁ = r' := by simpa [run, hpeek] using hrun
    exact ⟨x, fault, hr₁, hx⟩
  | peekSecond =>
    obtain ⟨x, fault, hr, hx⟩ := h
    obtain ⟨r₁, hpeek, hr₁, -⟩ := peekSecond_of_eof hr hx
    obtain ⟨-, rfl⟩ : _ ∧ r₁ = r' := by simpa [run, hpeek] using hrun
    exact ⟨x, fault, hr₁, hx⟩
  | advance =>
    obtain ⟨x, fault, hr, hx⟩ := h
    obtain ⟨r₁, hadvance, hr₁, -⟩ := advance_of_eof hr hx
    obtain ⟨-, rfl⟩ : _ ∧ r₁ = r' := by simpa [run, hadvance] using hrun
    exact ⟨x, fault, hr₁, hx⟩
  | lastEnd =>
    obtain ⟨-, rfl⟩ : _ ∧ r = r' := by simpa [run] using hrun
    exact h
  | note e =>
    obtain ⟨x, fault, hr, hx⟩ := h
    obtain rfl : r.note e = r' := by simpa [run] using hrun
    exact ⟨x, fault, hr.note e, hx⟩
  | fail expected =>
    rw [run] at hrun
    split at hrun <;> simp at hrun
  | many step ih =>
    rw [run] at hrun
    induction hsize : r.size using Nat.strongRecOn generalizing r a with
    | ind n ihn =>
      subst hsize
      rw [loop] at hrun
      rcases hstep : step.run r with ⟨e | _ | b, r₁⟩ <;> simp only [hstep] at hrun
      · simp at hrun
      · obtain ⟨-, rfl⟩ : _ ∧ r₁ = r' := by simpa using hrun
        exact ih h hstep
      · have hr₁ := ih h hstep
        split at hrun
        · rename_i hlt
          rcases hloop : loop step.run r₁ with ⟨e | bs, r₂⟩ <;> rw [hloop] at hrun
          · simp at hrun
          · obtain ⟨-, rfl⟩ : _ ∧ r₂ = r' := by simpa using hrun
            exact ihn r₁.size hlt hr₁ hloop rfl
        · obtain ⟨-, rfl⟩ : _ ∧ r₁ = r' := by simpa using hrun
          exact hr₁

/-- The rule fails at the end of a text, whichever reader is `AtEnd`. -/
def FailsAtEnd (x : Rule α) : Prop :=
  ∀ r : Reader Cursor, r.AtEnd → ∃ e r', x.run r = (.error e, r')

namespace FailsAtEnd

/-- It builds nothing there. -/
theorem not_ok (h : x.FailsAtEnd) {r r' : Reader Cursor} {a : α} (hr : r.AtEnd)
    (hrun : x.run r = (.ok a, r')) : False := by
  obtain ⟨e, r₁, herror⟩ := h r hr
  rw [hrun] at herror
  simp at herror

/-- Rules that run alike fail alike. -/
theorem of_run_eq (h : y.FailsAtEnd) (hrun : ∀ r : Reader Cursor, x.run r = y.run r) :
    x.FailsAtEnd := by
  intro r hr
  rw [hrun r]
  exact h r hr

/-- The rule `fail` fails everywhere. -/
protected theorem fail (expected : List Expected) : (Rule.fail expected : Rule α).FailsAtEnd := by
  rintro r ⟨x, fault, hr, -⟩
  obtain ⟨r', hpeek, -⟩ := peek_of_cons hr
  exact ⟨_, _, by rw [run, hpeek]⟩

/-- What starts with a rule that fails at the end does so too. -/
theorem bind (h : x.FailsAtEnd) (k : α → Rule β) : (x >>= k).FailsAtEnd := by
  intro r hr
  obtain ⟨e, r', hrun⟩ := h r hr
  exact ⟨e, r', run_bind_of_error hrun⟩

/-- What ends with a rule that fails at the end does so too, as the part before it goes no
further. -/
theorem behind (x : Rule α) (h : ∀ a, (k a).FailsAtEnd) : (x >>= k).FailsAtEnd := by
  intro r hr
  rw [run_bind]
  rcases hrun : x.run r with ⟨e | a, r'⟩
  · exact ⟨e, r', rfl⟩
  · exact h a r' (atEnd_of_run hr hrun)

/-- Behind `peek` it is enough to look at the end of the text. -/
theorem peek_bind {k : Token → Rule β} (h : ∀ t, t.kind = .eof → (k t).FailsAtEnd) :
    (peek >>= k).FailsAtEnd := by
  rintro r ⟨x, fault, hr, hx⟩
  obtain ⟨r', hpeek, hr', -⟩ := peek_of_cons hr
  rw [run_bind, run, hpeek]
  exact h x hx r' ⟨x, fault, hr', hx⟩

/-- A choice by a kind that is not `eof` goes on with its second case. -/
theorem atKind_ite {kind : Kind} (hkind : kind ≠ .eof) (h : y.FailsAtEnd) :
    (atKind kind >>= fun c => if c = true then x else y).FailsAtEnd := by
  rintro r ⟨z, fault, hr, hz⟩
  obtain ⟨r', hpeek, hr', -⟩ := peek_of_cons hr
  have hat : (atKind kind).run r = (.ok false, r') := by
    simpa [atKind, run_bind, run, hpeek, hz] using hkind.symm
  rw [run_bind_of_ok hat]
  exact h r' ⟨z, fault, hr', hz⟩

/-- A repeated step that fails at the end is not repeated there, but fails. -/
theorem many {step : Rule (Option α)} (h : step.FailsAtEnd) : (Rule.many step).FailsAtEnd := by
  intro r hr
  obtain ⟨e, r', hrun⟩ := h r hr
  exact ⟨e, r', by rw [run, loop, hrun]⟩

end FailsAtEnd

/-! ## Rules that are decided before the seam -/

variable {bytes lines : Nat} [Placed α] [Placed β] {x' y' : Rule α} {l : α → Rule β}

/-- Whatever the rule `x` builds on the first of two readers with tokens in common (`Shares`), the
rule `x'` builds on the second, further on, unless the first comes to the end of its text. -/
def Local (bytes lines : Nat) (x x' : Rule α) : Prop :=
  ∀ (r s r' : Reader Cursor) (common rest : List Token) (a : α),
    Shares bytes lines True r s common rest → common ≠ [] → x.run r = (.ok a, r') →
      r'.AtEnd ∨ ∃ s' common', common' ≠ [] ∧ x'.run s = (.ok (Placed.shift bytes lines a), s') ∧
        Shares bytes lines True r' s' common' rest

namespace Local

/-- What is built without reading has to be the same further on. -/
protected theorem pure {a b : α} (h : Placed.shift bytes lines a = b) :
    Local bytes lines (pure a : Rule α) (pure b) := by
  intro r s r' common rest c hrs hne hrun
  obtain ⟨rfl, rfl⟩ : a = c ∧ r = r' := by simpa using hrun
  exact .inr ⟨s, common, hne, by rw [h]; rfl, hrs⟩

/-- Two rules one after the other are decided before the seam if each of them is. -/
theorem bind (hx : Local bytes lines x x')
    (hk : ∀ a, Local bytes lines (k a) (l (Placed.shift bytes lines a))) :
    Local bytes lines (x >>= k) (x' >>= l) := by
  intro r s r' common rest b h hne hrun
  rw [run_bind] at hrun
  rcases hfirst : x.run r with ⟨e | a, r₁⟩ <;> rw [hfirst] at hrun
  · simp at hrun
  · obtain hend | ⟨s₁, common₁, hne₁, hsecond, h₁⟩ := hx r s r₁ common rest a h hne hfirst
    · exact .inl (atEnd_of_run hend hrun)
    · obtain hend | ⟨s', common', hne', hrun', h'⟩ := hk a r₁ s₁ r' common₁ rest b h₁ hne₁ hrun
      · exact .inl hend
      · exact .inr ⟨s', common', hne', by rw [run_bind_of_ok hsecond, hrun'], h'⟩

/-- Nor does it matter if the result is discarded. -/
theorem discard (h : Local bytes lines x x') :
    Local bytes lines (Functor.discard x) (Functor.discard x') :=
  h.bind fun _ => .pure rfl

/-- A rule that fails builds nothing. -/
protected theorem fail (expected : List Expected) :
    Local bytes lines (Rule.fail expected : Rule α) x' := by
  intro r s r' common rest a h hne hrun
  rw [run] at hrun
  split at hrun <;> simp at hrun

/-- Looking at the next token shows the same token, further on (`Shares.peek`). -/
protected theorem peek : Local bytes lines Rule.peek Rule.peek := by
  intro r s r' common rest t h hne hrun
  obtain ⟨u, common, rfl⟩ := List.exists_cons_of_ne_nil hne
  obtain ⟨r₁, s₁, hpeek, hpeek', h₁⟩ := h.peek
  obtain ⟨rfl, rfl⟩ : u = t ∧ r₁ = r' := by simpa [run, hpeek] using hrun
  exact .inr ⟨s₁, _, hne, hpeek', h₁⟩

/-- Taking it gives the same token, and both readers stand behind it (`Shares.advance`). -/
protected theorem advance : Local bytes lines Rule.advance Rule.advance := by
  intro r s r' common rest t h hne hrun
  obtain ⟨u, common, rfl⟩ := List.exists_cons_of_ne_nil hne
  obtain ⟨r₁, s₁, hadvance, hadvance', h₁⟩ := h.advance
  obtain ⟨rfl, rfl⟩ : u = t ∧ r₁ = r' := by simpa [run, hadvance] using hrun
  by_cases hcommon : common = []
  · subst hcommon
    exact .inl h₁.atEnd
  · exact .inr ⟨s₁, common, hcommon, hadvance', h₁⟩

/-- What goes on with a token goes on with its kind and text, and with its span further on. -/
theorem bind_token {x x' : Rule Token} {k l : Token → Rule α} (hx : Local bytes lines x x')
    (hk : ∀ kind text span, Local bytes lines (k ⟨kind, text, span⟩)
      (l ⟨kind, text, span.shift bytes lines⟩)) :
    Local bytes lines (x >>= k) (x' >>= l) :=
  hx.bind fun t => hk t.kind t.text t.span

/-- The token behind the next may be looked at, if what `Resumes` at a seam makes no difference. -/
theorem peekSecond_bind {k l : Token → Rule α}
    (hk : ∀ kind text span, Local bytes lines (k ⟨kind, text, span⟩)
      (l ⟨kind, text, span.shift bytes lines⟩))
    (hseam : ∀ t, t.Resumes → l t = y) :
    Local bytes lines (peekSecond >>= k) (peekSecond >>= l) := by
  intro r s r' common rest b h hne hrun
  obtain ⟨t, common, rfl⟩ := List.exists_cons_of_ne_nil hne
  obtain ⟨u, v, r₁, s₁, hpeek, hpeek', huv, h₁⟩ := h.peekSecond
  have hsame : l (u.shift bytes lines) = l v := by
    rcases huv with rfl | ⟨hu, hv⟩
    · rfl
    · rw [hseam (u.shift bytes lines) hu, hseam v hv]
  rw [run_bind, run, hpeek] at hrun
  obtain hend | ⟨s', common', hne', hrun', h'⟩ :=
    hk u.kind u.text u.span r₁ s₁ r' _ rest b h₁ hne hrun
  · exact .inl hend
  · refine .inr ⟨s', common', hne', ?_, h'⟩
    rw [run_bind, run, hpeek']
    show (l v).run s₁ = _
    rw [← hsame]
    exact hrun'

/-- Repeating a step: it takes a token each time (`Steady`), so both sides repeat it. -/
theorem many {step : Rule (Option α)} (hsteady : (Rule.many step).Steady)
    (h : Local bytes lines step step) : Local bytes lines (Rule.many step) (Rule.many step) := by
  intro r s r' common rest as hrs hne hrun
  rw [run] at hrun ⊢
  induction hsize : r.size using Nat.strongRecOn generalizing r s common as with
  | ind n ih =>
    subst hsize
    rw [loop] at hrun ⊢
    rcases hstep : step.run r with ⟨e | _ | a, r₁⟩ <;> simp only [hstep] at hrun
    · simp at hrun
    · obtain ⟨rfl, rfl⟩ : [] = as ∧ r₁ = r' := by simpa using hrun
      obtain hend | ⟨s₁, common₁, hne₁, hstep', h₁⟩ := h r s r₁ common rest none hrs hne hstep
      · exact .inl hend
      · exact .inr ⟨s₁, common₁, hne₁, by rw [hstep']; rfl, h₁⟩
    · obtain ⟨x, -, hr⟩ := hrs.first
      have hlt := hsteady.2 Cursor r r₁ _ _ a hr hstep
      rw [if_pos hlt] at hrun
      rcases hloop : loop step.run r₁ with ⟨e | as', r₂⟩ <;> rw [hloop] at hrun
      · simp at hrun
      · obtain ⟨rfl, rfl⟩ : a :: as' = as ∧ r₂ = r' := by simpa using hrun
        obtain hend | ⟨s₁, common₁, hne₁, hstep', h₁⟩ :=
          h r s r₁ common rest (some a) hrs hne hstep
        · exact .inl (atEnd_of_run (x := Rule.many step) hend hloop)
        · have hlt' := hsteady.2 Cursor s s₁ _ _ _ hrs.second hstep'
          obtain hend | ⟨s₂, common₂, hne₂, hloop', h₂⟩ :=
            ih r₁.size hlt r₁ s₁ common₁ as' h₁ hne₁ hloop rfl
          · exact .inl hend
          · refine .inr ⟨s₂, common₂, hne₂, ?_, h₂⟩
            rw [hstep']
            show (if s₁.size < s.size then _ else _) = _
            rw [if_pos hlt', hloop']
            rfl

/-- What goes on with something that may be missing goes on with it further on, or without it. -/
theorem bind_option {x x' : Rule (Option α)} {k l : Option α → Rule β}
    (hx : Local bytes lines x x')
    (hsome : ∀ a, Local bytes lines (k (some a)) (l (some (Placed.shift bytes lines a))))
    (hnone : Local bytes lines (k none) (l none)) :
    Local bytes lines (x >>= k) (x' >>= l) := by
  refine hx.bind fun o => ?_
  cases o with
  | none => exact hnone
  | some a => exact hsome a

/-- A choice that both sides make alike. -/
theorem ite {c : Prop} [Decidable c] (hx : Local bytes lines x x') (hy : Local bytes lines y y') :
    Local bytes lines (if c then x else y) (if c then x' else y') := by
  split
  · exact hx
  · exact hy

end Local

/-- The kind of the next token is the same on both sides. -/
theorem local_atKind (kind : Kind) : Local bytes lines (atKind kind) (atKind kind) :=
  Local.peek.bind fun _ => .pure rfl

/-- So is its text. -/
theorem local_atWord (word : String) : Local bytes lines (atWord word) (atWord word) :=
  Local.peek.bind fun _ => .pure rfl

/-- A token that may be missing is missing on both sides or on none. -/
theorem local_eat (kind : Kind) : Local bytes lines (eat kind) (eat kind) :=
  (local_atKind kind).bind fun _ => .ite (Local.advance.bind fun _ => .pure rfl) (.pure rfl)

/-- A token of a kind is taken on both sides. -/
theorem local_expect (kind : Kind) : Local bytes lines (expect kind) (expect kind) :=
  (local_eat kind).bind_option (fun _ => .pure rfl) (.fail _)

/-- A word is taken on both sides. -/
theorem local_expectWord (word : String) : Local bytes lines (expectWord word) (expectWord word) :=
  (local_atWord word).bind fun _ => .ite .advance (.fail _)

/-- Readers behind the same token end a span at the same place, since they have the same
`lastEnd`. -/
theorem run_spanFrom {r s r' : Reader Cursor} {common rest : List Token} {start span : Span}
    (h : Shares bytes lines True r s common rest) (hrun : (spanFrom start).run r = (.ok span, r')) :
    r' = r ∧ (spanFrom (start.shift bytes lines)).run s = (.ok (span.shift bytes lines), s) := by
  obtain ⟨rfl, rfl⟩ : { start with stop := r.lastEnd } = span ∧ r = r' := by
    simpa [spanFrom, run_bind, run] using hrun
  refine ⟨rfl, ?_⟩
  rw [spanFrom, run_bind, run, ← h.lastEnd trivial]
  rfl

/-- A span that starts further on is ended further on. -/
theorem local_spanFrom (start : Span) :
    Local bytes lines (spanFrom start) (spanFrom (start.shift bytes lines)) := by
  intro r s r' common rest span h hne hrun
  obtain ⟨rfl, hrun'⟩ := run_spanFrom h hrun
  exact .inr ⟨s, common, hne, hrun', h⟩

/-- The semicolon behind a closing brace is taken on both sides, unless the first comes to its
end. -/
theorem local_closing (start : Span) :
    Local bytes lines (closing start) (closing (start.shift bytes lines)) :=
  (local_spanFrom start).bind fun _ => (local_eat _).discard.bind fun _ => .pure rfl

namespace Local

/-- Items behind signs: `eachAfter` of a rule that is local and steady. -/
theorem eachAfter {sign : Kind} (hsign : sign ≠ .eof) (hsteady : x.Steady)
    (h : Local bytes lines x x) :
    Local bytes lines (Rule.eachAfter sign x) (Rule.eachAfter sign x) :=
  .many (steady_eachAfter hsign hsteady)
    ((local_eat sign).bind_option (fun _ => h.bind fun _ => .pure rfl) (.pure rfl))

/-- Items with commas between: `commaList` of such a rule. -/
theorem commaList (hsteady : x.Steady) (h : Local bytes lines x x) :
    Local bytes lines (Rule.commaList x) (Rule.commaList x) :=
  h.bind fun _ => (h.eachAfter (by decide) hsteady).bind fun _ => .pure rfl

/-- Entries up to a token of the kind `kind`. -/
theorem entries {kind : Kind}
    (hsteady : (Rule.many (atKind kind >>= fun c => if c = true then Pure.pure none else
      x >>= fun a => Pure.pure (some a))).Steady) (h : Local bytes lines x x) :
    Local bytes lines
      (Rule.many (atKind kind >>= fun c => if c = true then Pure.pure none else
        x >>= fun a => Pure.pure (some a)))
      (Rule.many (atKind kind >>= fun c => if c = true then Pure.pure none else
        x >>= fun a => Pure.pure (some a))) :=
  .many hsteady
    ((local_atKind kind).bind fun _ => .ite (.pure rfl) (h.bind fun _ => .pure rfl))

/-- Entries between braces, with `entries` for the body. -/
theorem block (hsteady : (Rule.block x).Steady) (h : Local bytes lines x x) :
    Local bytes lines (Rule.block x) (Rule.block x) :=
  (local_expect _).discard.bind fun _ => (entries (hsteady.2 ()).1 h).bind fun _ =>
    Local.advance.discard.bind fun _ => .pure rfl

end Local

/-! ## The rules of the grammar -/

/-- Every rule of the grammar is `Local`, and the lemmas from here on say so of one after the
other. -/
theorem local_ident : Local bytes lines ident ident :=
  (local_expect _).bind fun _ => .pure rfl

theorem local_string : Local bytes lines string string :=
  (local_expect _).bind fun _ => .pure rfl

theorem local_refList : Local bytes lines refList refList :=
  local_ident.bind fun _ => (local_ident.eachAfter (by decide) steady_ident).bind fun _ =>
    (local_spanFrom _).bind fun _ => .pure rfl

/-- The rule `refsAfter` is local, whether the sign is there or not. -/
theorem local_refsAfter (sign : Kind) : Local bytes lines (refsAfter sign) (refsAfter sign) :=
  (local_eat sign).bind_option (fun _ => local_refList.bind fun _ => .pure rfl) (.pure rfl)

/-- The rule `annotArg` is local: its first token tells which form it takes. -/
theorem local_annotArg : Local bytes lines annotArg annotArg := by
  refine Local.peek.bind_token fun kind text span => ?_
  dsimp only
  split
  · exact local_string.bind fun _ => .pure rfl
  · exact local_ident.bind fun _ => (local_expect _).discard.bind fun _ =>
      local_string.bind fun _ => .pure rfl
  · exact .fail _

/-- The rule `annotArgs` is local, whether a parenthesis opens or not. -/
theorem local_annotArgs : Local bytes lines annotArgs annotArgs :=
  (local_eat _).bind_option (fun _ => (local_annotArg.commaList steady_annotArg).bind fun _ =>
    (local_expect _).discard.bind fun _ => .pure rfl) (.pure rfl)

theorem local_annots : Local bytes lines annots annots :=
  .many steady_annots ((local_eat _).bind_option (fun _ => local_ident.bind fun _ =>
    local_annotArgs.bind fun _ => (local_expect _).discard.bind fun _ =>
      (local_spanFrom _).bind fun _ => .pure rfl) (.pure rfl))

theorem local_argValue : Local bytes lines argValue argValue := by
  refine Local.peek.bind_token fun kind text span => ?_
  dsimp only
  split
  · exact local_string.bind fun _ => .pure rfl
  · exact local_ident.bind fun _ => .pure rfl
  · exact .fail _

theorem local_arg : Local bytes lines arg arg :=
  local_ident.bind fun _ => (local_expect _).discard.bind fun _ => local_argValue.bind fun _ =>
    (local_spanFrom _).bind fun _ => .pure rfl

/-- The rule `callArgs` is local, with arguments and without. -/
theorem local_callArgs : Local bytes lines callArgs callArgs :=
  (local_expect _).discard.bind fun _ => (local_eat _).bind_option (fun _ => .pure rfl)
    ((local_arg.commaList steady_arg).bind fun _ => (local_expect _).discard.bind fun _ =>
      .pure rfl)

/-- The rule `target` is local: a dot at a seam would not resume a document. -/
theorem local_target : Local bytes lines target target :=
  local_ident.bind fun _ => (local_atKind _).bind fun _ =>
    .ite ((local_ident.eachAfter (by decide) steady_ident).bind fun _ =>
      (local_spanFrom _).bind fun _ => .pure rfl) (.pure rfl)

theorem local_callTail (t : Target) (start : Span) :
    Local bytes lines (callTail t start)
      (callTail (Placed.shift bytes lines t) (start.shift bytes lines)) :=
  local_callArgs.bind fun _ => (local_spanFrom _).bind fun _ =>
    (local_expect _).discard.bind fun _ => .pure rfl

/-- The rule `command` is local: its first token tells what it calls. -/
theorem local_command : Local bytes lines command command := by
  refine Local.peek.bind_token fun kind text span => ?_
  dsimp only
  split
  · split
    · exact Local.advance.discard.bind fun _ => local_callArgs.bind fun _ =>
        (local_spanFrom _).bind fun _ => (local_expect _).discard.bind fun _ => .pure rfl
    · exact .fail _
  · exact local_target.bind fun _ => local_callTail _ _
  · exact .fail _

theorem local_literal : Local bytes lines literal literal := by
  refine Local.peek.bind_token fun kind text span => ?_
  dsimp only
  split
  · exact local_string.bind fun _ => .pure rfl
  · exact Local.advance.bind fun _ => .pure rfl
  · exact .fail _

theorem local_property : Local bytes lines property property :=
  local_ident.bind fun _ => (local_expect _).discard.bind fun _ => local_literal.bind fun _ =>
    (local_expect _).discard.bind fun _ => (local_spanFrom _).bind fun _ => .pure rfl

theorem local_varsBlock (start : Span) :
    Local bytes lines (varsBlock start) (varsBlock (start.shift bytes lines)) := by
  refine (local_expect _).discard.bind fun _ => (local_atKind _).bind fun _ => .ite ?_ ?_
  · exact (Local.pure (a := []) rfl).bind fun _ => (local_expect _).discard.bind fun _ =>
      (local_closing _).bind fun _ => .pure rfl
  · exact (local_arg.commaList steady_arg).bind fun _ => (local_expect _).discard.bind fun _ =>
      (local_closing _).bind fun _ => .pure rfl

theorem local_callOrVars (start : Span) :
    Local bytes lines (callOrVars start) (callOrVars (start.shift bytes lines)) := by
  refine local_target.bind fun t => ?_
  have hcall : Local bytes lines
      (callTail t start >>= fun c => pure (Environment.Entry.command c))
      (callTail (Placed.shift bytes lines t) (start.shift bytes lines) >>= fun c =>
        pure (Environment.Entry.command c)) :=
    (local_callTail _ _).bind fun _ => .pure rfl
  rw [Target.segments_mapSpans]
  exact .ite ((local_atKind _).bind fun _ =>
    .ite ((local_varsBlock _).bind fun _ => .pure rfl) hcall) hcall

/-- The rule `environmentEntry` is local: the second token that it looks for stands at no seam. -/
theorem local_environmentEntry : Local bytes lines environmentEntry environmentEntry := by
  refine Local.peek.bind_token fun kind text span => ?_
  dsimp only
  split
  · exact local_command.bind fun _ => .pure rfl
  · refine .peekSecond_bind (y := discard advance >>= fun _ => fail
      [.token .equals, .token .parenOpen, .token .dot]) (fun kind text _ => ?_) fun u hu => ?_
    · dsimp only
      split
      · exact local_property.bind fun _ => .pure rfl
      · exact local_callOrVars _
      · exact local_callOrVars _
      · exact Local.advance.discard.bind fun _ => .fail _
    · rcases hu.kind_cases with h | h | h | h <;> rw [h]
  · exact .fail _

/-- The rule `environment` is local, its annotations and its start further on. -/
theorem local_environment (annots : List Annot) (start : Span) :
    Local bytes lines (environment annots start)
      (environment (Placed.shift bytes lines annots) (start.shift bytes lines)) :=
  (local_expectWord _).discard.bind fun _ => local_ident.bind fun _ =>
    (local_refsAfter _).bind fun _ => (Local.block (steady_block steady_environmentEntry
      parses_environmentEntry Derivation.EnvironmentEntry.startsEntry)
        local_environmentEntry).bind fun _ => (local_closing _).bind fun _ => .pure rfl

/-- A property is told from other entries by the token behind its name, `=`, which stands at no
seam. -/
theorem Local.property_or (h : Local bytes lines x x') {build : Property → α}
    (hbuild : ∀ p, Placed.shift bytes lines (build p) = build (Placed.shift bytes lines p)) :
    Local bytes lines
      (peekSecond >>= fun t => if (t.kind == .equals) = true then
        property >>= fun p => Pure.pure (build p) else x)
      (peekSecond >>= fun t => if (t.kind == .equals) = true then
        property >>= fun p => Pure.pure (build p) else x') := by
  refine .peekSecond_bind (y := x')
    (fun _ _ _ => .ite (local_property.bind fun p => .pure (hbuild p)) h) fun t ht => ?_
  exact if_neg (by simpa using ht.kind_ne (by decide))

/-- The rule `flowEntry` is local, by `Local.property_or`. -/
theorem local_flowEntry : Local bytes lines flowEntry flowEntry := by
  refine Local.peek.bind_token fun kind text span => ?_
  dsimp only
  split
  · exact local_command.bind fun _ => .pure rfl
  · refine .property_or ?_ fun _ => rfl
    exact local_command.bind fun _ => .pure rfl
  · exact .fail _

theorem local_flowFrom (annots : List Annot) (before : Option RefList) (start : Span) :
    Local bytes lines (flowFrom annots before start)
      (flowFrom (Placed.shift bytes lines annots) (Placed.shift bytes lines before)
        (start.shift bytes lines)) :=
  (local_expect _).discard.bind fun _ => local_ident.bind fun _ =>
    (local_refsAfter _).bind fun _ => (Local.block (steady_block steady_flowEntry parses_flowEntry
      Derivation.FlowEntry.startsEntry) local_flowEntry).bind fun _ =>
        (local_closing _).bind fun _ => .pure rfl

theorem local_flowAlias (annots : List Annot) (start : Span) :
    Local bytes lines (flowAlias annots start)
      (flowAlias (Placed.shift bytes lines annots) (start.shift bytes lines)) :=
  local_ident.bind fun _ => (local_expect _).discard.bind fun _ => local_refList.bind fun _ =>
    (local_expect _).discard.bind fun _ => (local_spanFrom _).bind fun _ => .pure rfl

/-- The rule `flow` is local: the second token that it looks for stands at no seam. -/
theorem local_flow (annots : List Annot) (start : Span) :
    Local bytes lines (flow annots start)
      (flow (Placed.shift bytes lines annots) (start.shift bytes lines)) := by
  have hflow : Local bytes lines
      (refList >>= fun before => Functor.discard (expect .pipe) >>= fun _ =>
        flowFrom annots (some before) start >>= fun x => pure (Member.flow x))
      (refList >>= fun before => Functor.discard (expect .pipe) >>= fun _ =>
        flowFrom (Placed.shift bytes lines annots) (some before) (start.shift bytes lines) >>=
          fun x => pure (Member.flow x)) :=
    local_refList.bind fun _ => (local_expect _).discard.bind fun _ =>
      (local_flowFrom _ (some _) _).bind fun _ => .pure rfl
  refine (local_expectWord _).discard.bind fun _ => Local.peek.bind_token fun kind text span => ?_
  dsimp only
  split
  · exact (local_flowFrom _ none _).bind fun _ => .pure rfl
  · refine .peekSecond_bind (y := discard advance >>= fun _ => fail
      [.token .colon, .token .comma, .token .pipe]) (fun kind text _ => ?_) fun u hu => ?_
    · dsimp only
      split
      · exact (local_flowAlias _ _).bind fun _ => .pure rfl
      · exact hflow
      · exact hflow
      · exact Local.advance.discard.bind fun _ => .fail _
    · rcases hu.kind_cases with h | h | h | h <;> rw [h]
  · exact .fail _

theorem local_param : Local bytes lines param param := by
  refine Local.peek.bind fun t => (local_eat _).bind fun o => local_ident.bind fun n => ?_
  have hspan : ∀ f : Option StrLit, Local bytes lines
      (spanFrom t.span >>= fun span => pure (⟨o.isSome, n, f, span⟩ : Param))
      (spanFrom (t.span.shift bytes lines) >>= fun span =>
        pure ⟨o.isSome, Placed.shift bytes lines n, Placed.shift bytes lines f, span⟩) :=
    fun f => (local_spanFrom _).bind fun _ => .pure rfl
  have hvariadic : (Placed.shift bytes lines o).isSome = o.isSome := Option.isSome_map
  rw [hvariadic]
  exact (local_eat _).bind_option
    (fun _ => local_string.bind fun s => (Local.pure (a := some s) rfl).bind hspan)
    ((Local.pure (a := none) rfl).bind hspan)

theorem local_params : Local bytes lines params params := by
  refine (local_expect _).discard.bind fun _ => (local_atKind _).bind fun _ => .ite ?_ ?_
  · exact (Local.pure (a := []) rfl).bind fun _ => (local_expect _).discard.bind fun _ =>
      .pure rfl
  · exact (local_param.commaList steady_param).bind fun _ =>
      (local_expect _).discard.bind fun _ => .pure rfl

theorem local_fnEntry : Local bytes lines fnEntry fnEntry := by
  refine Local.peek.bind_token fun kind text span => ?_
  dsimp only
  split
  · exact local_command
  · exact local_command
  · exact .fail _

/-- The rule `fn` is local, its annotations and its start further on. -/
theorem local_fn (annots : List Annot) (start : Span) :
    Local bytes lines (fn annots start)
      (fn (Placed.shift bytes lines annots) (start.shift bytes lines)) :=
  (local_expectWord _).discard.bind fun _ => local_ident.bind fun _ => local_params.bind fun _ =>
    (Local.block (steady_block steady_fnEntry parses_fnEntry Derivation.Command.startsEntry)
      local_fnEntry).bind fun _ => (local_closing _).bind fun _ => .pure rfl

/-- The rule `activity` is local, its annotations and its start further on. -/
theorem local_activity (annots : List Annot) (start : Span) :
    Local bytes lines (activity annots start)
      (activity (Placed.shift bytes lines annots) (start.shift bytes lines)) := by
  have hentry : Local bytes lines activityEntry activityEntry :=
    (local_atKind _).bind fun _ => .ite local_property (.fail _)
  exact (local_expectWord _).discard.bind fun _ => local_ident.bind fun _ =>
    (Local.block (steady_block steady_activityEntry parses_activityEntry
      Derivation.Property.startsEntry) hentry).bind fun _ =>
        (local_closing _).bind fun _ => .pure rfl

/-- The rule `memberAfter` is local, one case a keyword. -/
theorem local_memberAfter (annots : List Annot) (start : Span) :
    Local bytes lines (memberAfter annots start)
      (memberAfter (Placed.shift bytes lines annots) (start.shift bytes lines)) :=
  (local_atWord _).bind fun _ => .ite ((local_environment _ _).bind fun _ => .pure rfl)
    ((local_atWord _).bind fun _ => .ite (local_flow _ _)
      ((local_atWord _).bind fun _ => .ite ((local_fn _ _).bind fun _ => .pure rfl)
        ((local_activity _ _).bind fun _ => .pure rfl)))

/-- The rule `member` is local, with annotations and without. -/
theorem local_member : Local bytes lines member member := by
  refine Local.peek.bind_token fun kind text span => ?_
  dsimp only
  split
  · refine .property_or ?_ fun _ => rfl
    exact .ite (local_memberAfter [] _) (.fail _)
  · exact local_annots.bind fun _ => Local.peek.bind_token fun _ _ _ =>
      .ite (local_memberAfter _ _) (.fail _)
  · exact .fail _

theorem local_origin : Local bytes lines origin origin := by
  refine Local.peek.bind fun t => (local_atWord _).bind fun _ =>
    .ite ?_ ((local_atWord _).bind fun _ => .ite ?_ (.fail _))
  · exact Local.advance.discard.bind fun _ => (local_expect _).discard.bind fun _ =>
      local_string.bind fun _ => (local_expect _).discard.bind fun _ =>
        (local_spanFrom _).bind fun _ => .pure rfl
  · exact Local.advance.discard.bind fun _ => (local_expect _).discard.bind fun _ =>
      local_string.bind fun _ => (local_expect _).discard.bind fun _ =>
        (local_expectWord _).discard.bind fun _ => (local_expect _).discard.bind fun _ =>
          local_string.bind fun _ => (local_expect _).discard.bind fun _ =>
            (local_spanFrom _).bind fun _ => .pure rfl

end Rule

end Gxl
