import Gxl.Proofs.Grammar.Lookahead
import Gxl.Proofs.Grammar.ReadFrom

/-!
# Items before a seam

The items of a text are items of the text that goes on behind it.  An item may be the last of its
text: behind its closing brace it looks only for a semicolon, and none stands at a seam, so it is
built all the same when the text goes on (`Rule.Carries`).  Up to that brace something is still
missing, and the rule fails where the text ends (`Rule.Completes`).

An item takes a token before it asks where the last token ended.  So it does not matter where the
text before it ended, and reading goes on behind a seam as it begins at the start of a text
(`Rule.run_items`).
-/

namespace Gxl.Rule

open Reader

variable {α β : Type}

/-! ## Runs of rules -/

/-- Taking a token and discarding it takes it. -/
theorem run_discard_advance {r r' : Reader Cursor} {t : Token} (h : r.advance = (.ok t, r'))
    (a : α) : (discard advance >>= fun _ => pure a).run r = (.ok a, r') := by
  have hadvance : advance.run r = (.ok t, r') := h
  have hdiscard : (discard advance : Rule Unit).run r = (.ok (), r') := run_bind_of_ok hadvance
  exact run_bind_of_ok hdiscard

/-- What repeating `step` builds, once the step is taken. -/
def again (step : Rule (Option α)) : Option α → Rule (List α)
  | none => pure []
  | some a => many step >>= fun as => pure (a :: as)

/-- Repeating a step that takes a token each time (`Strides`) is taking the step, and going on. -/
theorem run_many {step : Rule (Option α)} (hstrides : step.Strides) {r : Reader Cursor}
    {ts : List Token} {fault : Option LexError} (hr : r.Holds ts fault) :
    (many step).run r = (step >>= again step).run r := by
  rw [run, loop, run_bind]
  rcases hstep : step.run r with ⟨e | _ | a, r'⟩
  · rfl
  · rfl
  · have hlt := hstrides Cursor r r' ts fault a hr hstep
    simp only [hlt, if_true, again, run_bind, run]
    rcases loop step.run r' with ⟨e | as, r''⟩ <;> rfl

/-- Repeating a step that begins with a sign is a look at the next token, and then `again`. -/
theorem run_many_eat_bind {sign : Kind} {f : Option Token → Rule (Option α)}
    (hsteady : (many (eat sign >>= f)).Steady) (k : List α → Rule β) {r : Reader Cursor}
    {ts : List Token} {fault : Option LexError} (hr : r.Holds ts fault) :
    (many (eat sign >>= f) >>= k).run r = (peek >>= fun t =>
      if t.kind = sign then
        advance >>= fun t => (f (some t) >>= again (eat sign >>= f)) >>= k
      else
        (f none >>= again (eat sign >>= f)) >>= k).run r := by
  rw [← Parses.run_eat_bind sign fun o => (f o >>= again (eat sign >>= f)) >>= k, run_bind,
    run_many hsteady.2 hr, run_bind, run_bind, run_bind]
  rcases (eat sign).run r with ⟨e | o, r'⟩
  · rfl
  · simp only [run_bind]

variable {bytes lines : Nat} {taken : Prop} [Placed α] [Placed β] {x x' y y' : Rule α}
  {k l : α → Rule β}

/-! ## Rules that may come to the seam -/

/-- Whatever the rule `x` builds on the first of two readers with tokens in common (`Shares`), the
rule `x'` builds on the second, further on, even if the first comes to the end of its text. -/
def Carries (bytes lines : Nat) (taken : Prop) (x x' : Rule α) : Prop :=
  ∀ (r s r' : Reader Cursor) (common rest : List Token) (a : α),
    Shares bytes lines taken r s common rest → x.run r = (.ok a, r') →
      ∃ s' common', x'.run s = (.ok (Placed.shift bytes lines a), s') ∧
        Shares bytes lines True r' s' common' rest

namespace Carries

/-- Rules that run alike carry alike. -/
theorem of_run_eq (h : Carries bytes lines taken y y')
    (hx : ∀ r : Reader Cursor, x.run r = y.run r)
    (hx' : ∀ r : Reader Cursor, x'.run r = y'.run r) : Carries bytes lines taken x x' := by
  intro r s r' common rest a hrs hrun
  rw [hx] at hrun
  rw [hx']
  exact h r s r' common rest a hrs hrun

/-- A rule that takes a token first need not know where the last one ended, so `taken` may be
anything. -/
theorem weaken (h : Carries bytes lines False x x') (taken : Prop) :
    Carries bytes lines taken x x' := by
  intro r s r' common rest a hrs hrun
  exact h r s r' common rest a { hrs with lastEnd := False.elim } hrun

/-- What is built without reading has to be the same further on. -/
protected theorem pure {a b : α} (h : Placed.shift bytes lines a = b) :
    Carries bytes lines True (pure a : Rule α) (pure b) := by
  intro r s r' common rest c hrs hrun
  obtain ⟨rfl, rfl⟩ : a = c ∧ r = r' := by simpa using hrun
  exact ⟨s, common, by rw [h]; rfl, hrs⟩

/-- A rule that fails builds nothing. -/
protected theorem fail (expected : List Expected) :
    Carries bytes lines taken (Rule.fail expected : Rule α) x' := by
  intro r s r' common rest a h hrun
  rw [run] at hrun
  split at hrun <;> simp at hrun

/-- Behind a rule that carries, another may carry on, and knows that a token is taken. -/
theorem bind (hx : Carries bytes lines taken x x')
    (hk : ∀ a, Carries bytes lines True (k a) (l (Placed.shift bytes lines a))) :
    Carries bytes lines taken (x >>= k) (x' >>= l) := by
  intro r s r' common rest b h hrun
  rw [run_bind] at hrun
  rcases hfirst : x.run r with ⟨e | a, r₁⟩ <;> rw [hfirst] at hrun
  · simp at hrun
  · obtain ⟨s₁, common₁, hsecond, h₁⟩ := hx r s r₁ common rest a h hfirst
    obtain ⟨s', common', hrun', h'⟩ := hk a r₁ s₁ r' common₁ rest b h₁ hrun
    exact ⟨s', common', by rw [run_bind_of_ok hsecond, hrun'], h'⟩

/-- Events are no part of what is built, so each side may `note` its own. -/
theorem note_bind {e e' : Event} {k l : Unit → Rule β}
    (h : Carries bytes lines taken (k ()) (l ())) :
    Carries bytes lines taken (note e >>= k) (note e' >>= l) := by
  intro r s r' common rest b hrs hrun
  obtain ⟨⟨x, hx, hr⟩, hs, hgenuine, hresumes, hlast⟩ := hrs
  exact h (r.note e) (s.note e') r' common rest b
    ⟨⟨x, hx, hr.note e⟩, hs.note e', hgenuine, hresumes, hlast⟩ hrun

end Carries

/-- A span ends at the same place on both sides, by `run_spanFrom`. -/
theorem carries_spanFrom (start : Span) :
    Carries bytes lines True (spanFrom start) (spanFrom (start.shift bytes lines)) := by
  intro r s r' common rest span h hrun
  obtain ⟨rfl, hrun'⟩ := run_spanFrom h hrun
  exact ⟨s, common, hrun', h⟩

/-- A semicolon that may be missing.  None stands at a seam, as what `Resumes` a document is
none. -/
theorem carries_semicolon :
    Carries bytes lines True (discard (eat .semicolon)) (discard (eat .semicolon)) := by
  have hsign : Carries bytes lines True
      (peek >>= fun t =>
        if t.kind = .semicolon then advance >>= fun _ => pure () else pure ())
      (peek >>= fun t =>
        if t.kind = .semicolon then advance >>= fun _ => pure () else pure ()) := by
    intro r s r' common rest u h hrun
    cases common with
    | nil =>
      obtain ⟨x, z, r₁, s₁, hpeek, hpeek', hx, hz, h₁⟩ := h.peek_nil
      have hxkind : x.kind ≠ .semicolon := by simp [hx]
      have hzkind : z.kind ≠ .semicolon := hz.kind_ne (by decide)
      obtain rfl : r₁ = r' := by simpa [run_bind, run, hpeek, hxkind] using hrun
      exact ⟨s₁, [], by simp [run_bind, run, hpeek', hzkind], h₁⟩
    | cons t common =>
      obtain ⟨r₁, s₁, hpeek, hpeek', h₁⟩ := h.peek
      have hkind : (t.shift bytes lines).kind = t.kind := rfl
      by_cases ht : t.kind = .semicolon
      · obtain ⟨r₂, s₂, hadvance, hadvance', h₂⟩ := h₁.advance
        obtain rfl : r₂ = r' := by simpa [run_bind, run, hpeek, ht, hadvance] using hrun
        exact ⟨s₂, common, by simp [run_bind, run, hpeek', hkind, ht, hadvance'], h₂⟩
      · obtain rfl : r₁ = r' := by simpa [run_bind, run, hpeek, ht] using hrun
        exact ⟨s₁, t :: common, by simp [run_bind, run, hpeek', hkind, ht], h₁⟩
  exact hsign.of_run_eq (Parses.run_eat_bind _ _) (Parses.run_eat_bind _ _)

/-- A construct is closed on both sides, even at the seam: the semicolon may be missing. -/
theorem carries_closing (start : Span) :
    Carries bytes lines True (closing start) (closing (start.shift bytes lines)) :=
  (carries_spanFrom start).bind fun _ => carries_semicolon.bind fun _ => .pure rfl

/-! ## Rules that are missing something where the text ends -/

/-- The rule `x` fails at the end of a text, and what it builds before, the rule `x'` builds further
on. -/
structure Completes (bytes lines : Nat) (taken : Prop) (x x' : Rule α) : Prop where
  carries : Carries bytes lines taken x x'
  failsAtEnd : x.FailsAtEnd

namespace Completes

/-- The same as `Carries.weaken`. -/
theorem weaken (h : Completes bytes lines False x x') (taken : Prop) :
    Completes bytes lines taken x x' :=
  ⟨h.carries.weaken taken, h.failsAtEnd⟩

/-- Rules that run alike complete alike. -/
theorem of_run_eq (h : Completes bytes lines taken y y')
    (hx : ∀ r : Reader Cursor, x.run r = y.run r)
    (hx' : ∀ r : Reader Cursor, x'.run r = y'.run r) : Completes bytes lines taken x x' :=
  ⟨h.carries.of_run_eq hx hx', h.failsAtEnd.of_run_eq hx⟩

/-- A rule that fails completes whatever there is. -/
protected theorem fail (expected : List Expected) :
    Completes bytes lines taken (Rule.fail expected : Rule α) x' :=
  ⟨.fail expected, .fail expected⟩

/-- Behind a rule that completes, another may carry on to the end of the text. -/
theorem bind (hx : Completes bytes lines taken x x')
    (hk : ∀ a, Carries bytes lines True (k a) (l (Placed.shift bytes lines a))) :
    Completes bytes lines taken (x >>= k) (x' >>= l) :=
  ⟨hx.carries.bind hk, hx.failsAtEnd.bind k⟩

/-- A rule behind which something is still missing does not come to the end: it is enough that it is
`Local`. -/
theorem behind (hx : Local bytes lines x x')
    (hk : ∀ a, Completes bytes lines True (k a) (l (Placed.shift bytes lines a))) :
    Completes bytes lines True (x >>= k) (x' >>= l) := by
  refine ⟨?_, .behind x fun a => (hk a).failsAtEnd⟩
  intro r s r' common rest b h hrun
  rw [run_bind] at hrun
  rcases hfirst : x.run r with ⟨e | a, r₁⟩ <;> rw [hfirst] at hrun
  · simp at hrun
  · by_cases hne : common = []
    · subst hne
      exact ((hk a).failsAtEnd.not_ok (atEnd_of_run h.atEnd hfirst) hrun).elim
    · obtain hatEnd | ⟨s₁, common₁, -, hsecond, h₁⟩ := hx r s r₁ common rest a h hne hfirst
      · exact ((hk a).failsAtEnd.not_ok hatEnd hrun).elim
      · obtain ⟨s', common', hrun', h'⟩ := (hk a).carries r₁ s₁ r' common₁ rest b h₁ hrun
        exact ⟨s', common', by rw [run_bind_of_ok hsecond, hrun'], h'⟩

/-- Events are no part of what is built. -/
theorem note_bind {e e' : Event} {k l : Unit → Rule β}
    (h : Completes bytes lines taken (k ()) (l ())) :
    Completes bytes lines taken (note e >>= k) (note e' >>= l) :=
  ⟨h.carries.note_bind, .behind _ fun _ => h.failsAtEnd⟩

/-- A look at the next token, which both readers then hold.  Where that is the end of the text,
something is missing, and `k` fails. -/
theorem peek_bind_of_cons {k l : Token → Rule β}
    (h : ∀ (t : Token) (r s r' : Reader Cursor) (common rest : List Token) (b : β),
      Shares bytes lines taken r s (t :: common) rest → (k t).run r = (.ok b, r') →
        ∃ s' common', (l (t.shift bytes lines)).run s = (.ok (Placed.shift bytes lines b), s') ∧
          Shares bytes lines True r' s' common' rest)
    (hend : ∀ t, t.kind = .eof → (k t).FailsAtEnd) :
    Completes bytes lines taken (peek >>= k) (peek >>= l) := by
  refine ⟨?_, .peek_bind hend⟩
  intro r s r' common rest b hrs hrun
  rw [run_bind, run] at hrun
  cases common with
  | nil =>
    obtain ⟨x, z, r₁, s₁, hpeek, -, hx, -, h₁⟩ := hrs.peek_nil
    rw [hpeek] at hrun
    exact ((hend x hx).not_ok h₁.atEnd hrun).elim
  | cons t common =>
    obtain ⟨r₁, s₁, hpeek, hpeek', h₁⟩ := hrs.peek
    rw [hpeek] at hrun
    obtain ⟨s', common', hrun', h'⟩ := h t r₁ s₁ r' common rest b h₁ hrun
    refine ⟨s', common', ?_, h'⟩
    rw [run_bind, run, hpeek']
    exact hrun'

/-- A look at the next token, which is the same on both sides, further on. -/
theorem peek_bind {k l : Token → Rule β}
    (h : ∀ t, Completes bytes lines taken (k t) (l (t.shift bytes lines))) :
    Completes bytes lines taken (peek >>= k) (peek >>= l) :=
  peek_bind_of_cons (fun t r s r' _ rest b => (h t).carries r s r' _ rest b)
    fun t _ => (h t).failsAtEnd

/-- A choice by whether the next token is a word, which is the same on both sides. -/
theorem atWord_ite {word : String} (hx : Completes bytes lines taken x x')
    (hy : Completes bytes lines taken y y') :
    Completes bytes lines taken (atWord word >>= fun c => if c = true then x else y)
      (atWord word >>= fun c => if c = true then x' else y') := by
  have htest : Completes bytes lines taken
      (peek >>= fun t => if t.isWord word = true then x else y)
      (peek >>= fun t => if t.isWord word = true then x' else y') := by
    refine peek_bind fun t => ?_
    have ht : (t.shift bytes lines).isWord word = t.isWord word := rfl
    rw [ht]
    split
    · exact hx
    · exact hy
  have hrun : ∀ (x y : Rule α) (r : Reader Cursor),
      (atWord word >>= fun c => if c = true then x else y).run r
        = (peek >>= fun t => if t.isWord word = true then x else y).run r := by
    intro x y r
    rw [run_bind, run_bind, atWord, run_bind]
    rcases peek.run r with ⟨e | t, r₁⟩ <;> rfl
  exact htest.of_run_eq (hrun x y) (hrun x' y')

/-- A token with `p` has to stand there, and the end of the text is none. -/
theorem peek_advance {p : Token → Prop} [DecidablePred p] (hp : ∀ t, t.kind = .eof → ¬ p t)
    (hshift : ∀ t, p (t.shift bytes lines) ↔ p t) (expected : List Expected) :
    Completes bytes lines taken
      (peek >>= fun t => if p t then advance else Rule.fail expected)
      (peek >>= fun t => if p t then advance else Rule.fail expected) := by
  refine peek_bind_of_cons (fun t r s r' common rest u h hrun => ?_) fun t ht => ?_
  · by_cases hpt : p t
    · obtain ⟨r₁, s₁, hadvance, hadvance', h₁⟩ := h.advance
      rw [if_pos hpt] at hrun
      rw [if_pos ((hshift t).2 hpt)]
      obtain ⟨rfl, rfl⟩ : t = u ∧ r₁ = r' := by simpa [run, hadvance] using hrun
      exact ⟨s₁, common, hadvance', h₁⟩
    · rw [if_neg hpt] at hrun
      exact Carries.fail expected r s r' _ rest u h hrun
  · rw [if_neg (hp t ht)]
    exact .fail expected

/-- A token of a kind has to stand there, as `expect` says. -/
protected theorem expect {kind : Kind} (hkind : kind ≠ .eof) :
    Completes bytes lines taken (expect kind) (expect kind) := by
  have hsign : Completes bytes lines taken
      (peek >>= fun t => if t.kind = kind then advance else Rule.fail [.token kind])
      (peek >>= fun t => if t.kind = kind then advance else Rule.fail [.token kind]) :=
    peek_advance (fun t ht h => hkind (h.symm.trans ht)) (fun _ => .rfl) _
  have hrun : ∀ r : Reader Cursor, (expect kind).run r = (peek >>= fun t =>
      if t.kind = kind then advance else Rule.fail [.token kind]).run r := by
    intro r
    refine (Parses.run_eat_bind kind _ r).trans ?_
    rw [run_bind, run_bind]
    rcases peek.run r with ⟨e | t, r₁⟩
    · rfl
    · dsimp only
      split
      · rw [run_bind]
        rcases advance.run r₁ with ⟨e | u, r₂⟩ <;> rfl
      · rfl
  exact hsign.of_run_eq hrun hrun

/-- A word has to stand there, as `expectWord` says. -/
protected theorem expectWord (word : String) :
    Completes bytes lines taken (expectWord word) (expectWord word) := by
  have hword : Completes bytes lines taken
      (peek >>= fun t => if t.isWord word = true then advance else Rule.fail [.keyword word])
      (peek >>= fun t => if t.isWord word = true then advance else Rule.fail [.keyword word]) :=
    peek_advance (fun t ht => by simp [Token.isWord, ht]) (fun _ => .rfl) _
  have hrun : ∀ r : Reader Cursor, (expectWord word).run r = (peek >>= fun t =>
      if t.isWord word = true then advance else Rule.fail [.keyword word]).run r := by
    intro r
    rw [expectWord, run_bind, run_bind, atWord, run_bind]
    rcases peek.run r with ⟨e | t, r₁⟩ <;> rfl
  exact hword.of_run_eq hrun hrun

/-- What completes may be discarded. -/
theorem discard (h : Completes bytes lines taken x x') :
    Completes bytes lines taken (Functor.discard x) (Functor.discard x') :=
  h.bind fun _ => .pure rfl

/-- Entries between braces, which end at a closing brace.  Both readers hold that, as every entry
takes a token. -/
theorem block {forest : α → Forest} (hsteady : (Rule.block x).Steady) (hx : Local bytes lines x x)
    (hend : x.FailsAtEnd)
    (htakes : ∀ held, Takes [] held x fun w _ a => (forest a).ReadFrom w) :
    Completes bytes lines True (Rule.block x) (Rule.block x) := by
  have hentries := (hsteady.2 ()).1
  have hmissing : FailsAtEnd (Rule.many (atKind .braceClose >>= fun c =>
      if c = true then pure none else x >>= fun a => pure (some a))) :=
    .many (.atKind_ite (by decide) (hend.bind _))
  refine behind (local_expect _).discard fun _ => ⟨?_, hmissing.bind _⟩
  intro r s r' common rest as h hrun
  rw [run_bind] at hrun
  rcases hmany : (Rule.many (atKind .braceClose >>= fun c =>
      if c = true then pure none else x >>= fun a => pure (some a))).run r with ⟨e | as', r₁⟩ <;>
    rw [hmany] at hrun
  · simp at hrun
  · obtain ⟨eof, -, hr⟩ := h.first
    obtain ⟨w, held, -, hr₁, -, t, ts, rfl, ht⟩ :=
      Takes.entries hentries htakes r r₁ r.lastEnd none as' ⟨hr, rfl⟩ hmany
    have hnot : ¬ r₁.AtEnd := fun hatEnd => by simpa [ht] using hatEnd.kind_eq hr₁.holds
    by_cases hne : common = []
    · subst hne
      exact (hnot (atEnd_of_run h.atEnd hmany)).elim
    · obtain hatEnd | ⟨s₁, common₁, hne₁, hmany', h₁⟩ :=
        Local.entries hentries hx r s r₁ common rest as' h hne hmany
      · exact (hnot hatEnd).elim
      · obtain ⟨z, common₂, rfl⟩ := List.exists_cons_of_ne_nil hne₁
        obtain ⟨r₂, s₂, hadvance, hadvance', h₂⟩ := h₁.advance
        obtain ⟨rfl, rfl⟩ : as' = as ∧ r₂ = r' := by
          simpa [run_discard_advance hadvance] using hrun
        exact ⟨s₂, common₂, by rw [run_bind_of_ok hmany', run_discard_advance hadvance'], h₂⟩

/-- Pieces behind a sign each, and what follows all of them.  The sign is taken before anything
else, if there is one, by `run_many_eat_bind`. -/
theorem many_eat_bind {sign : Kind} {f : Option Token → Rule (Option α)} {k l : List α → Rule β}
    (hsteady : (Rule.many (eat sign >>= f)).Steady) (hsign : sign ≠ .eof)
    (hnone : f none = pure none)
    (hf : ∀ t, Local bytes lines (f (some t)) (f (some (t.shift bytes lines))))
    (h : ∀ as, Completes bytes lines False (k as) (l (Placed.shift bytes lines as))) :
    Completes bytes lines False (Rule.many (eat sign >>= f) >>= k)
      (Rule.many (eat sign >>= f) >>= l) := by
  have hmany : Local bytes lines (Rule.many (eat sign >>= f)) (Rule.many (eat sign >>= f)) :=
    .many hsteady ((local_eat sign).bind_option hf (by rw [hnone]; exact .pure rfl))
  have hpiece : ∀ t, Local bytes lines (f (some t) >>= again (eat sign >>= f))
      (f (some (t.shift bytes lines)) >>= again (eat sign >>= f)) :=
    fun t => (hf t).bind_option (fun _ => hmany.bind fun _ => .pure rfl) (.pure rfl)
  -- without a sign nothing is taken, and what follows stands where the pieces would have
  have hnothing : Completes bytes lines False ((f none >>= again (eat sign >>= f)) >>= k)
      ((f none >>= again (eat sign >>= f)) >>= l) := by
    rw [hnone]
    exact (h []).of_run_eq (fun _ => rfl) fun _ => rfl
  have hlook : Completes bytes lines False
      (peek >>= fun t => if t.kind = sign then
        advance >>= fun t => (f (some t) >>= again (eat sign >>= f)) >>= k else
          (f none >>= again (eat sign >>= f)) >>= k)
      (peek >>= fun t => if t.kind = sign then
        advance >>= fun t => (f (some t) >>= again (eat sign >>= f)) >>= l else
          (f none >>= again (eat sign >>= f)) >>= l) := by
    refine peek_bind_of_cons (fun t r s r' common rest b hrs hrun => ?_) fun t ht => ?_
    · by_cases ht : t.kind = sign
      · obtain ⟨r₁, s₁, hadvance, hadvance', h₁⟩ := hrs.advance
        have ht' : (t.shift bytes lines).kind = sign := ht
        rw [if_pos ht, run_bind, run, hadvance] at hrun
        rw [if_pos ht', run_bind, run, hadvance']
        have hpieces := behind (hpiece t) fun as => (h as).weaken True
        exact hpieces.carries r₁ s₁ r' common rest b h₁ hrun
      · have ht' : (t.shift bytes lines).kind ≠ sign := ht
        rw [if_neg ht] at hrun
        rw [if_neg ht']
        exact hnothing.carries r s r' _ rest b hrs hrun
    · rw [if_neg (by rw [ht]; exact hsign.symm)]
      exact hnothing.failsAtEnd
  refine ⟨?_, .behind _ fun as => (h as).failsAtEnd⟩
  intro r s r' common rest b hrs hrun
  obtain ⟨eof, -, hr⟩ := hrs.first
  rw [run_many_eat_bind hsteady k hr] at hrun
  rw [run_many_eat_bind hsteady l hrs.second]
  exact hlook.carries r s r' common rest b hrs hrun

end Completes

/-! ## Items -/

/-- Where the text ends there is no member. -/
theorem failsAtEnd_member : member.FailsAtEnd := by
  refine .peek_bind fun t ht => ?_
  rw [ht]
  exact .fail _

/-- A module completes behind its annotations: its name and its body are still missing. -/
theorem completes_module (annots : List Annot) (start : Span) :
    Completes bytes lines taken (module annots start)
      (module (Placed.shift bytes lines annots) (start.shift bytes lines)) :=
  (Completes.expectWord "mod").discard.bind fun _ => Completes.carries <|
    .behind local_ident fun _ => .behind (local_refsAfter _) fun _ =>
      (Completes.block (steady_block steady_member parses_member startsEntry_member) local_member
        failsAtEnd_member fun _ => takes_member).bind fun _ =>
          (carries_closing _).bind fun _ => .pure rfl

/-- External modules complete. -/
theorem completes_external : Completes bytes lines taken external external :=
  (Completes.expectWord "extern").bind fun _ => Completes.carries <|
    .behind (local_expectWord _).discard fun _ => .behind local_refList fun _ =>
      .behind (local_expect _).discard fun _ => .behind local_origin fun _ =>
        (Completes.expect (by decide)).discard.bind fun _ =>
          (carries_closing _).bind fun _ => .pure rfl

/-- An item completes, and takes a token before it asks where the last one ended. -/
theorem completes_item : Completes bytes lines False item item := by
  refine .peek_bind fun t => .note_bind ?_
  have hkind : ((t.shift bytes lines).kind == .annotOpen) = (t.kind == .annotOpen) := rfl
  rw [hkind]
  split
  · refine .many_eat_bind steady_annots (by decide) rfl (fun t => ?_) fun as => ?_
    · exact local_ident.bind fun _ => local_annotArgs.bind fun _ =>
        (local_expect _).discard.bind fun _ => (local_spanFrom _).bind fun _ => .pure rfl
    · exact .atWord_ite ((completes_module as _).bind fun _ => .pure rfl) (.fail _)
  · exact .atWord_ite ((completes_module [] _).bind fun _ => .pure rfl)
      (.atWord_ite (completes_external.bind fun _ => .pure rfl) (.fail _))

/-! ## All items -/

/-- The items of a document, up to the end of the text: the part of `document` that reads. -/
def items : Rule (List Item) :=
  many do
    if ← atKind .eof then return none else return some (← item)

/-- Reading a document is reading its `items`. -/
theorem run_document (bytes : Nat) (r : Reader Cursor) :
    (document bytes).run r = (items >>= fun is => pure ⟨is, ⟨0, bytes, 1, 1⟩⟩).run r := rfl

/-- The items are read steadily, by `steady_entries`. -/
theorem steady_items : items.Steady :=
  (steady_document 0).1

/-- At the end of the text there are no more `items`. -/
theorem run_items_of_eof {r r' : Reader Cursor} {t : Token} (hpeek : r.peek = (.ok t, r'))
    (ht : t.kind = .eof) : items.run r = (.ok [], r') := by
  have hat : (atKind .eof).run r = (.ok true, r') := by
    simp [atKind, run_bind, run, hpeek, ht]
  rw [items, run, loop, run_bind_of_ok hat]
  rfl

/-- Before the end of the text there is an `item`, which takes a token, and then there are the other
items. -/
theorem run_items_of_ne {r r' : Reader Cursor} {t : Token} {ts : List Token}
    {fault : Option LexError} (hr : r.Holds ts fault) (hpeek : r.peek = (.ok t, r'))
    (ht : t.kind ≠ .eof) :
    items.run r = (item >>= fun i => items >>= fun is => pure (i :: is)).run r' ∧
      ∀ i r'', item.run r' = (.ok i, r'') → r''.size < r.size := by
  have hat : (atKind .eof).run r = (.ok false, r') := by
    simp [atKind, run_bind, run, hpeek, ht]
  constructor
  · refine (run_many steady_items.2 hr).trans ?_
    rw [run_bind, run_bind_of_ok hat, if_neg (by simp), run_bind, run_bind]
    rcases item.run r' with ⟨e | i, r''⟩ <;> rfl
  · intro i r'' hitem
    refine steady_items.2 Cursor r r'' ts fault i hr ?_
    rw [run_bind_of_ok hat, if_neg (by simp), run_bind_of_ok hitem]
    rfl

/-- The items before a seam are those of the first text, further on, and reading goes on at the
seam: by induction on the size of the first reader, with `completes_item` for the step. -/
theorem run_items {r s r' : Reader Cursor} {common rest : List Token} {is : List Item}
    (h : Shares bytes lines False r s common rest) (hrun : items.run r = (.ok is, r')) :
    ∃ s', s'.Holds rest none ∧ ∀ more s'', items.run s' = (.ok more, s'') →
      items.run s = (.ok (Placed.shift bytes lines is ++ more), s'') := by
  -- the induction is on the size of the first reader, which every item makes smaller
  induction hsize : r.size using Nat.strongRecOn generalizing r s common is with
  | ind n ih =>
    subst hsize
    cases common with
    | nil =>
      obtain ⟨x, z, r₁, s₁, hpeek, -, hx, -, -⟩ := h.peek_nil
      obtain ⟨rfl, -⟩ : [] = is ∧ r₁ = r' := by
        simpa [run_items_of_eof hpeek hx] using hrun
      exact ⟨s, h.second, fun more s'' hmore => hmore⟩
    | cons t common =>
      have ht : t.kind ≠ .eof := kind_ne_eof_of_genuine (h.genuine t List.mem_cons_self)
      obtain ⟨eof, -, hr⟩ := h.first
      obtain ⟨r₁, s₁, hpeek, hpeek', h₁⟩ := h.peek
      obtain ⟨hleft, hlt⟩ := run_items_of_ne hr hpeek ht
      obtain ⟨hright, -⟩ := run_items_of_ne h.second hpeek' ht
      rw [hleft, run_bind] at hrun
      rcases hitem : item.run r₁ with ⟨e | i, r₂⟩ <;> rw [hitem] at hrun
      · simp at hrun
      · obtain ⟨s₂, common₂, hitem', h₂⟩ :=
          completes_item.carries r₁ s₁ r₂ _ rest i h₁ hitem
        rcases hitems : items.run r₂ with ⟨e | is', r₃⟩ <;> simp only [run_bind, hitems] at hrun
        · simp at hrun
        · obtain ⟨rfl, rfl⟩ : i :: is' = is ∧ r₃ = r' := by simpa using hrun
          obtain ⟨s', hs', hmore⟩ := ih r₂.size (hlt i r₂ hitem)
            { h₂ with lastEnd := False.elim } hitems rfl
          refine ⟨s', hs', fun more s'' hrest => ?_⟩
          rw [hright, run_bind_of_ok hitem', run_bind_of_ok (hmore more s'' hrest)]
          rfl

end Gxl.Rule
