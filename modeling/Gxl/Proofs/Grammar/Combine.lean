import Gxl.Proofs.Grammar.Parses

/-!
# Tokens, options and lists

The contract of `Gxl.Proofs.Grammar.Parses` for the rules that the grammar is built from: a token of
a kind or a word, a token that may be missing, and lists.

A list is read by repeating a step that declines when it stands before something else
(`Parses.many`).  Each step is told from the end of the list by the token it starts with, so what
may follow an entry is what an entry or the end of the list starts with.
-/

namespace Gxl.Rule

variable {α β : Type} {P : Phrase → Prop} {Den : β → α → Prop} {L F : β → Phrase → Prop}
  {E : Phrase → Remark → Prop}

namespace Parses

/-! ## Single tokens -/

/-- A choice by the kind of the next token, with `atKind`. -/
theorem atKind_ite {kind : Kind} {x y : Rule α}
    (hx : ∀ s, Stands s → s.kind = kind → Parses (fun v => P v ∧ Starts s v) x Den L F E)
    (hy : ∀ s, Stands s → s.kind ≠ kind → Parses (fun v => P v ∧ Starts s v) y Den L F E) :
    Parses P (atKind kind >>= fun c => if c = true then x else y) Den L F E := by
  -- the test is a look at the next token, and looking is what the contract speaks about
  suffices h : Parses P (peek >>= fun t => if t.kind = kind then x else y) Den L F E by
    refine h.of_run_eq fun r => ?_
    rw [run_bind, run_bind, atKind, run_bind]
    rcases peek.run r with ⟨_ | t, r'⟩
    · rfl
    · simp
  refine peek_bind fun t ht => ?_
  by_cases hk : t.kind = kind
  · rw [if_pos hk]
    exact hx t.symbol ht hk
  · rw [if_neg hk]
    exact hy t.symbol ht hk

/-- What comes after a choice comes after each of the two: `k` may be put into both. -/
theorem atKind_ite_bind {α₁ : Type} {kind : Kind} {x y : Rule α₁} {k : α₁ → Rule α}
    (h : Parses P ((atKind kind >>= fun c => if c = true then x else y) >>= k) Den L F E) :
    Parses P (atKind kind >>= fun c => if c = true then x >>= k else y >>= k) Den L F E := by
  refine h.of_run_eq fun r => ?_
  rw [run_bind, run_bind, run_bind]
  rcases (atKind kind).run r with ⟨_ | c, r'⟩
  · rfl
  · cases c
    · exact run_bind y k r'
    · exact run_bind x k r'

/-- A choice by whether the next token is a word, with `atWord`. -/
theorem atWord_ite {word : String} {x y : Rule α}
    (hx : Parses (fun v => P v ∧ Starts (.word word) v) x Den L F E)
    (hy : Parses (fun v => P v ∧ ¬ Starts (.word word) v) y Den L F E) :
    Parses P (atWord word >>= fun c => if c = true then x else y) Den L F E := by
  suffices h : Parses P (peek >>= fun t => if t.isWord word then x else y) Den L F E by
    refine h.of_run_eq fun r => ?_
    rw [run_bind, run_bind, atWord, run_bind]
    rcases peek.run r with ⟨_ | t, r'⟩ <;> rfl
  refine peek_bind fun t ht => ?_
  have hword : t.isWord word = true ↔ t.symbol = .word word := by
    simp [Token.isWord, Token.symbol, Symbol.word]
  by_cases hw : t.symbol = .word word
  · rw [if_pos (hword.2 hw), hw]
    exact hx
  · rw [if_neg (mt hword.1 hw)]
    exact hy.weaken fun v hv => ⟨hv.1, fun hs => hw (hv.2.unique hs)⟩

/-- Taking a token that may be missing, with `eat`, is a look at the next one. -/
theorem run_eat_bind {σ : Type} [Feed σ] (kind : Kind) (k : Option Token → Rule α)
    (r : Reader σ) :
    (eat kind >>= k).run r = (peek >>= fun t =>
      if t.kind = kind then Rule.advance >>= fun u => k (some u) else k none).run r := by
  rw [run_bind, run_bind, eat, run_bind, atKind, run_bind]
  rcases peek.run r with ⟨_ | t, r'⟩
  · rfl
  · by_cases hk : t.kind = kind
    · simp only [run_pure, hk, beq_self_eq_true, if_true, run_bind]
      rcases Rule.advance.run r' with ⟨_ | u, r''⟩ <;> rfl
    · simp [hk]

/-- A token that may be missing, with `eat`, and what comes after it in either case. -/
theorem eat_bind {kind : Kind} {k : Option Token → Rule α} {L' : β → Phrase → Prop}
    (hkind : kind.spelling ≠ "")
    (hsome : ∀ t : Token, t.symbol = .sign kind →
      Parses (fun _ => True) (k (some t)) Den L F nowhere)
    (hnone : Parses (Clear kind) (k none) Den L' F nowhere)
    (hclear : ∀ b w rest, L' b w → F b rest → Clear kind (w ++ rest)) :
    Parses P (eat kind >>= k) Den (fun b w => (∃ w', w = .sign kind :: w' ∧ L b w') ∨ L' b w) F
      nowhere := by
  refine .of_run_eq (peek_bind fun t ht => ?_) (run_eat_bind kind k)
  by_cases hk : t.kind = kind
  · rw [if_pos hk]
    have hgenuine : t.symbol.genuine = true := by
      refine ht.resolve_right fun heof => hkind ?_
      rw [← hk, ← Token.symbol_kind, heof]
      rfl
    -- a sign has one spelling, so its kind tells the whole symbol
    have hsign : t.symbol = .sign kind := by
      rw [Symbol.eq_sign_of_genuine hgenuine (by simpa [hk] using hkind), Token.symbol_kind, hk]
    rw [hsign] at hgenuine ⊢
    refine ((advance hgenuine fun v hv => hv.2).bind (fun _ u hu => (hsome u hu).anywhere)
      ?_).congr ?_ ?_
    · intro _ b w rest hv _ _
      exact hv
    · rintro b w ⟨-, w', rfl, hL⟩
      exact .inl ⟨w', rfl, hL⟩
    · rintro b w rest hv (⟨w', rfl, hL⟩ | hL') hF
      · exact ⟨(), w', rfl, hL⟩
      · exact absurd rfl (hclear b w rest hL' hF _ hv.2)
  · rw [if_neg hk]
    have hne : ∀ v, P v ∧ Starts t.symbol v → Clear kind v := fun v hv => hv.2.clear hk
    refine (hnone.weaken hne).congr (fun _ _ => .inr) ?_
    rintro b w rest hv (⟨w', rfl, hL⟩ | hL') _
    · exact absurd rfl (hne _ hv (.sign kind) rfl)
    · exact hL'

/-- A token of a kind, which has to be there (`Rule.expect`). -/
theorem expect {kind : Kind} (hkind : ∃ s : Symbol, s.genuine = true ∧ s.kind = kind) :
    Parses P (expect kind)
      (fun (s : { s : Symbol // s.genuine = true ∧ s.kind = kind }) t => t.symbol = s.1)
      (fun s w => w = [s.1]) (fun _ _ => True) E := by
  obtain ⟨s₀, hs₀, hk₀⟩ := hkind
  refine .of_run_eq (peek_bind fun t ht => ?_) (run_eat_bind kind _)
  by_cases hk : t.kind = kind
  · rw [if_pos hk]
    have hgenuine : t.symbol.genuine = true := by
      refine ht.resolve_right fun heof => ?_
      rw [Token.symbol_kind, hk, ← hk₀] at heof
      simp [Symbol.genuine, heof] at hs₀
    refine (advance hgenuine fun v hv => hv.2).build (fun _ => ⟨t.symbol, hgenuine, hk⟩)
      (fun _ _ => id) (fun _ _ => id) (fun _ _ _ _ _ _ => trivial) ?_
    rintro ⟨s, hs⟩ w rest hv rfl _
    obtain rfl : s = t.symbol := starts_cons.1 hv.2
    exact ⟨(), rfl, rfl, hv⟩
  · rw [if_neg hk]
    have hviable : Viable (fun (s : { s : Symbol // s.genuine = true ∧ s.kind = kind })
        (t : Token) => t.symbol = s.1) (fun s w => w = [s.1]) [s₀] :=
      ⟨⟨s₀, hs₀, hk₀⟩, ⟨s₀.kind, s₀.text, default⟩, [], rfl, rfl⟩
    refine fail (hviable.of_append (u := [])) ⟨by simp, by simp, ?_⟩ ?_
    · subst hk₀
      simpa using Offered.token hviable
    rintro ⟨s, hs⟩ w rest hv rfl _
    obtain rfl : s = t.symbol := starts_cons.1 hv.2
    exact hk hs.2

/-- A sign, which has to be there: the only symbol of its kind. -/
theorem expectSign {kind : Kind} (hkind : kind.spelling ≠ "") :
    Parses P (Rule.expect kind) (fun (_ : Unit) t => t.symbol = .sign kind)
      (fun _ w => w = [.sign kind]) (fun _ _ => True) E := by
  have hall : ∀ s : { s : Symbol // s.genuine = true ∧ s.kind = kind }, s.1 = .sign kind := by
    rintro ⟨s, hs, rfl⟩
    exact Symbol.eq_sign_of_genuine hs hkind
  have hgenuine := Symbol.genuine_sign hkind
  refine (expect ⟨.sign kind, hgenuine, rfl⟩).map (fun _ => ()) ?_ ?_ (fun _ _ _ _ _ => id) ?_
  · intro s t h
    exact h.trans (hall s)
  · intro s w h
    exact h.trans (congrArg (fun s => [s]) (hall s))
  · rintro _ w rest _ rfl _
    exact ⟨⟨.sign kind, hgenuine, rfl⟩, rfl, rfl, trivial⟩

/-- A word, which has to be there (`Rule.expectWord`). -/
theorem expectWord {word : String} (hword : (Symbol.word word).genuine = true) :
    Parses P (expectWord word) (fun (_ : Unit) t => t.symbol = .word word)
      (fun _ w => w = [.word word]) (fun _ _ => True) E := by
  refine atWord_ite ?_ ?_
  · refine (advance hword fun v hv => hv.2).map id (fun _ _ => id) (fun _ _ => id)
      (fun _ _ _ _ _ _ => trivial) ?_
    rintro _ w rest hv rfl _
    exact ⟨(), rfl, rfl, hv⟩
  · have hviable : Viable (fun (_ : Unit) (t : Token) => t.symbol = .word word)
        (fun _ w => w = [.word word]) [.word word] :=
      ⟨(), ⟨.ident, word, default⟩, [], rfl, rfl⟩
    refine fail (hviable.of_append (u := [])) ⟨by simp, by simp, ?_⟩ ?_
    · simpa using Offered.keyword hviable
    · rintro _ w rest hv rfl _
      exact hv.2 rfl

/-- The symbol `s`, which has to be there, and what comes after it. -/
theorem symbolThen {s : Symbol} {x : Rule Token} {k : Unit → Rule α}
    (hx : Parses P x (fun (_ : Unit) t => t.symbol = s) (fun _ w => w = [s]) (fun _ _ => True)
      nowhere)
    (h : Parses (fun _ => True) (k ()) Den L F nowhere) :
    Parses P (discard x >>= k) Den (fun b w => ∃ w', w = s :: w' ∧ L b w') F nowhere := by
  refine .congr (discard_bind (hx.andThen fun _ _ _ => h)) ?_ ?_
  · rintro b w ⟨-, w', rfl, hL⟩
    exact ⟨w', rfl, hL⟩
  · rintro b w rest - ⟨w', rfl, hL⟩ -
    exact ⟨(), w', rfl, hL⟩

/-- A sign that has to be there, and what comes after it. -/
theorem signThen {kind : Kind} {k : Unit → Rule α} (hkind : kind.spelling ≠ "")
    (h : Parses (fun _ => True) (k ()) Den L F nowhere) :
    Parses P (discard (Rule.expect kind) >>= k) Den (fun b w => ∃ w', w = .sign kind :: w' ∧ L b w')
      F nowhere :=
  symbolThen (expectSign hkind) h

/-- A word that has to be there, and what comes after it. -/
theorem wordThen {word : String} {k : Unit → Rule α} (hword : (Symbol.word word).genuine = true)
    (h : Parses (fun _ => True) (k ()) Den L F nowhere) :
    Parses P (discard (Rule.expectWord word) >>= k) Den
      (fun b w => ∃ w', w = .word word :: w' ∧ L b w') F nowhere :=
  symbolThen (expectWord hword) h

end Parses

/-! ## Lists -/

/-- What may follow a list: the end of the list, `stop`, behind its last entry, and behind every
other entry the entries after it. -/
def Follows (y : β → Phrase) (stop : Phrase → Prop) (F : β → Phrase → Prop) :
    List β → Phrase → Prop
  | [], rest => stop rest
  | b :: bs, rest => F b (bs.flatMap y ++ rest) ∧ Follows y stop F bs rest

/-- What is left of a list behind a step: the further entries, and nothing once the step has
declined. -/
def Further (y : β → Phrase) : Option β → List β → Phrase → Prop
  | none, bs, w => bs = [] ∧ w = []
  | some b, bs, w => ∃ bs', bs = b :: bs' ∧ w = bs'.flatMap y

/-- A phrase that starts with a symbol of the kind `kind`. -/
def At (kind : Kind) (v : Phrase) : Prop :=
  ∃ s, Stands s ∧ s.kind = kind ∧ Starts s v

/-- A sign is the only symbol of its kind that a phrase can start with (`Starts`). -/
theorem starts_sign {kind : Kind} {v : Phrase} (hkind : kind.spelling ≠ "") (h : At kind v) :
    Starts (.sign kind) v := by
  obtain ⟨s, hs, rfl, hv⟩ := h
  rcases hs with hs | hs
  · rwa [← Symbol.eq_sign_of_genuine hs hkind]
  · rw [hs] at hkind
    exact absurd rfl hkind

/-- The places of entries behind other entries: `E` behind the phrases of some of them. -/
def Amid (Den : β → α → Prop) (y : β → Phrase) (E : Phrase → Remark → Prop) (w : Phrase)
    (m : Remark) : Prop :=
  ∃ (bs : List β) (w' : Phrase), w = bs.flatMap y ++ w' ∧ (∃ as, List.Forall₂ Den bs as) ∧ E w' m

/-- The place of the first entry is `E` itself. -/
theorem Amid.nil {y : β → Phrase} {w : Phrase} {m : Remark} (h : E w m) : Amid Den y E w m :=
  ⟨[], w, rfl, ⟨[], .nil⟩, h⟩

/-- Behind one more entry the place is still `Amid` the entries. -/
theorem Amid.cons {y : β → Phrase} {w : Phrase} {m : Remark} {b : β} {a : α} (hden : Den b a)
    (h : Amid Den y E w m) : Amid Den y E (y b ++ w) m := by
  obtain ⟨bs, w', rfl, ⟨as, hdens⟩, hw⟩ := h
  exact ⟨b :: bs, w', by simp, ⟨a :: as, .cons hden hdens⟩, hw⟩

section Many

variable {y : β → Phrase} {stop : Phrase → Prop} {step : Rule (Option α)}
  {E' : Phrase → Remark → Prop}

/-- A list is what a first step reads and what is left behind it, its phrases one behind the
other. -/
theorem then_further {bs : List β} {w : Phrase} :
    Then (fun b : Option β => b.elim [] y) (Further y) bs w ↔ w = bs.flatMap y := by
  constructor
  · rintro ⟨_ | b, w₂, rfl, hbs⟩
    · obtain ⟨rfl, rfl⟩ := hbs
      rfl
    · obtain ⟨bs', rfl, rfl⟩ := hbs
      rfl
  · rintro rfl
    cases bs with
    | nil => exact ⟨none, [], rfl, rfl, rfl⟩
    | cons b bs => exact ⟨some b, bs.flatMap y, rfl, bs, rfl, rfl⟩

/-- Some list goes on behind each step (`Viable`). -/
theorem viable_further {b : Option β} {a : Option α} (h : Option.Rel Den b a) :
    Viable (List.Forall₂ Den) (Further y b) [] := by
  cases h with
  | some hden => exact ⟨[_], [_], [], .cons hden .nil, [], rfl, rfl⟩
  | none => exact ⟨[], [], [], .nil, rfl, rfl⟩

/-- The entries behind a first one, read with it: one round of `Parses.many'`. -/
theorem Outcome.cons {σ : Type} [Feed σ] {rest : List Token} {fault : Option LexError} {n : Nat}
    {o o' : Except Error (List α) × Reader σ} {b : β} {a : α} (hden : Den b a)
    (hF : F b (symbols rest))
    (h : Outcome (F b) (List.Forall₂ Den) (fun bs w => w = bs.flatMap y) (Follows y stop F) E rest
      fault n o)
    (herror : ∀ e r, o = (.error e, r) → o' = (.error e, r))
    (hok : ∀ as r, o = (.ok as, r) → o' = (.ok (a :: as), r)) :
    Outcome (F b) (List.Forall₂ Den) (Further y (some b)) (Follows y stop F) E rest fault n o' := by
  refine h.map (a :: ·) (b :: ·) hF herror hok ?_ ?_ ?_ ?_
  · exact fun _ _ hbs => .cons hden hbs
  · exact fun bs w hbs => ⟨bs, rfl, hbs⟩
  · rintro bs w rest hv rfl hbs
    exact ⟨hv, hbs⟩
  · rintro _ w rest hv ⟨bs, rfl, rfl⟩ hbs
    exact ⟨bs, rfl, rfl, hbs.2⟩

/-- Repeating a step with `many` reads a list, if the step reads an entry or declines before the end
of the list. -/
theorem Parses.many' (h : Parses (fun _ => True) step (Option.Rel Den) (fun b w => w = b.elim [] y)
      (fun b rest => b.elim (stop rest) (F · rest)) E)
    (hy : ∀ b, y b ≠ []) (hE : ∀ w m, E w m → E' w m)
    (hE' : ∀ b a, Den b a → ∀ w m, E' w m → E' (y b ++ w) m) :
    Parses P (many step) (List.Forall₂ Den) (fun bs w => w = bs.flatMap y) (Follows y stop F)
      E' := by
  refine ⟨⟨[], [], [], .nil, rfl⟩, fun {σ _ r ts fault} hr hv => ?_⟩
  rw [run]
  -- the induction is on the size of the reader, which every entry makes smaller
  induction hn : r.size using Nat.strongRecOn generalizing P r ts with
  | ind n ih =>
    subst hn
    have hstep : Outcome P (Option.Rel Den) (fun b w => w = b.elim [] y)
        (fun b rest => b.elim (stop rest) (F · rest)) E ts fault r.size (step.run r) :=
      h.anywhere.outcome hr hv
    refine (hstep.then (fun _ _ => viable_further) ?_ ?_ ?_ hE
      fun b a hden w m (hedge : E' w m) => ?_).map id id hv (fun _ _ => id) (fun _ _ => id)
      (fun _ _ => id) (fun _ _ => then_further.1) (fun _ _ _ _ _ => id)
      fun bs w rest _ hw hF => ⟨bs, rfl, then_further.2 hw, hF⟩
    · intro e r' he
      rw [loop, he]
    · intro b o r' w rest ho split hden hw hF hr' hsize
      rw [loop, ho]
      cases hden with
      | none =>
        -- the step has declined, so the list ends here
        refine .built (w := []) rfl hr' (Nat.le_refl _) .nil ⟨rfl, rfl⟩ hF ?_
        rintro v b' w' ⟨_, -, -, hL, -⟩ -
        exact hL
      | @some b a hden =>
        -- an entry takes at least one token: the loop goes on with a smaller reader
        have hpos : 0 < w.length := by
          apply List.length_pos_iff.2
          intro hnil
          apply hy b
          simpa [hnil] using hw.symm
        have hlt : r'.size < r.size := by omega
        simp only [hlt, if_true]
        refine (ih r'.size hlt hr' hF rfl).cons hden hF ?_ ?_
        · intro e r'' he
          rw [he]
        · intro as r'' has
          rw [has]
    · rintro (_ | b) bs w rest hv hw hbs
      · obtain ⟨rfl, rfl⟩ := hw
        exact hbs
      · obtain ⟨bs', rfl, rfl⟩ := hw
        exact hbs.1
    · cases hden with
      | none => exact hedge
      | some hden => exact hE' _ _ hden w m hedge

/-- Repeating a step that there is nothing to remark about: `many'` with `nowhere` for places. -/
theorem Parses.many (h : Parses (fun _ => True) step (Option.Rel Den) (fun b w => w = b.elim [] y)
      (fun b rest => b.elim (stop rest) (F · rest)) nowhere)
    (hy : ∀ b, y b ≠ []) :
    Parses P (many step) (List.Forall₂ Den) (fun bs w => w = bs.flatMap y) (Follows y stop F)
      nowhere :=
  h.many' hy (fun _ _ => id) fun _ _ _ _ _ => id

/-- Behind a list that something `Follows` stands what ends it. -/
theorem Follows.ends {bs : List β} {rest : Phrase} (h : Follows y stop F bs rest) : stop rest := by
  induction bs with
  | nil => exact h
  | cons b bs ih => exact ih h.2

/-- What ends a list may follow it, if it may follow every entry and entries may follow entries: how
`Follows` is shown. -/
theorem Follows.intro {rest : Phrase} (hstop : stop rest) (hrest : ∀ b, F b rest)
    (hentry : ∀ b b' u, F b (y b' ++ u)) (bs : List β) : Follows y stop F bs rest := by
  induction bs with
  | nil => exact hstop
  | cons b bs ih =>
    refine ⟨?_, ih⟩
    cases bs with
    | nil => exact hrest b
    | cons b' bs =>
      rw [List.flatMap_cons, List.append_assoc]
      exact hentry b b' _

/-- When anything may follow an entry, what may follow a list is what ends it, and `Follows` is not
needed. -/
theorem Parses.free {γ : Type} {x : Rule α} {Den : γ → α → Prop} {L : γ → Phrase → Prop}
    (entries : γ → List β)
    (h : Parses P x Den L (fun c => Follows y stop (fun _ _ => True) (entries c)) E) :
    Parses P x Den L (fun _ rest => stop rest) E := by
  refine h.map id (fun _ _ => id) (fun _ _ => id) (fun _ _ _ _ _ hF => hF.ends) ?_
  intro c w rest _ hw hF
  exact ⟨c, rfl, hw, .intro hF (fun _ => trivial) (fun _ _ _ => trivial) _⟩

/-- Repeating a step with `many` when anything may follow an entry. -/
theorem Parses.many_free
    (h : Parses (fun _ => True) step (Option.Rel Den) (fun b w => w = b.elim [] y)
      (fun b rest => b.elim (stop rest) fun _ => True) nowhere)
    (hy : ∀ b, y b ≠ []) :
    Parses P (Rule.many step) (List.Forall₂ Den) (fun bs w => w = bs.flatMap y)
      (fun _ rest => stop rest) nowhere :=
  (h.many hy).free id

end Many

namespace Parses

variable {y : β → Phrase} {item : Rule α}

/-- Items that each follow a sign (`Rule.eachAfter`). -/
theorem eachAfter {sign : Kind} (hsign : sign.spelling ≠ "")
    (h : Parses (fun _ => True) item Den (fun b w => w = y b) F nowhere) :
    Parses P (eachAfter sign item) (List.Forall₂ Den)
      (fun bs w => w = bs.flatMap fun b => .sign sign :: y b)
      (Follows (fun b => .sign sign :: y b) (Clear sign) F) nowhere := by
  refine many (.congr (eat_bind hsign (fun _ _ => h.bind (fun b a hden =>
    .pure (some b) (.some hden) ?_) ?_) (.pure none .none ?_) ?_) ?_ ?_) (by simp)
  · exact fun v hv => hv
  · rintro b _ w rest - ⟨rfl, rfl⟩ hF
    exact hF
  · exact fun v hv => hv
  · rintro b w rest ⟨rfl, rfl⟩ hF
    exact hF
  · rintro b w (⟨w', rfl, b', w₂, rfl, rfl, rfl⟩ | ⟨rfl, rfl⟩)
    · simp
    · rfl
  · rintro (_ | b) w rest - rfl hF
    · exact .inr ⟨rfl, rfl⟩
    · exact .inl ⟨y b, rfl, b, [], by simp, rfl, rfl⟩

/-- Items that each follow a sign, when anything may follow an item: a form of `eachAfter`. -/
theorem eachAfter_free {sign : Kind} (hsign : sign.spelling ≠ "")
    (h : Parses (fun _ => True) item Den (fun b w => w = y b) (fun _ _ => True) nowhere) :
    Parses P (Rule.eachAfter sign item) (List.Forall₂ Den)
      (fun bs w => w = bs.flatMap fun b => .sign sign :: y b) (fun _ rest => Clear sign rest)
      nowhere :=
  (eachAfter hsign h).free id

/-- Items with a comma between every two, at least one (`Rule.commaList`). -/
theorem commaList (h : Parses (fun _ => True) item Den (fun b w => w = y b) F nowhere) :
    Parses P (commaList item) (fun (p : β × List β) as => List.Forall₂ Den (p.1 :: p.2) as)
      (fun p w => w = separated y (p.1 :: p.2))
      (fun p => Follows (fun b => .sign .comma :: y b) (Clear .comma) F (p.1 :: p.2)) nowhere := by
  refine (h.anywhere.bind (fun b a hden => (eachAfter (by decide) h).keep.bind
    (fun bs as hdens => .pure (b, bs) (.cons hden hdens) ?_) ?_) ?_).congr ?_ ?_
  · exact fun v hv => hv
  · rintro bs _ w rest - ⟨rfl, rfl⟩ hF
    exact hF
  · rintro b _ w rest - ⟨bs, w₂, rfl, rfl, rfl⟩ hF
    simpa using hF.1
  · rintro _ w ⟨b, _, rfl, bs, _, rfl, rfl, rfl⟩
    simp [separated]
  · rintro ⟨b, bs⟩ w rest - rfl hF
    exact ⟨b, _, rfl, bs, [], by simp, rfl, rfl⟩

/-- Items with a comma between every two, when anything may follow an item: a form of
`commaList`. -/
theorem commaList_free
    (h : Parses (fun _ => True) item Den (fun b w => w = y b) (fun _ _ => True) nowhere) :
    Parses P (Rule.commaList item) (fun (p : β × List β) as => List.Forall₂ Den (p.1 :: p.2) as)
      (fun p w => w = separated y (p.1 :: p.2)) (fun _ rest => Clear .comma rest) nowhere :=
  (commaList h).free fun p => p.1 :: p.2

/-- What may follow items that are left out where a token of the kind `kind` stands. -/
def FollowsUnless (kind : Kind) (y : β → Phrase) (F : β → Phrase → Prop) :
    List β → Phrase → Prop
  | [], rest => At kind rest
  | b :: bs, rest => Follows (fun b => .sign .comma :: y b) (Clear .comma) F (b :: bs) rest

/-- A sign that ends a list may follow it, if it may follow every entry and a comma may. -/
theorem FollowsUnless.intro {kind : Kind} (hkind : kind.spelling ≠ "") (hcomma : kind ≠ .comma)
    (hclose : ∀ b u, F b (.sign kind :: u)) (hsep : ∀ b u, F b (.sign .comma :: u)) (bs : List β)
    (rest : Phrase) : FollowsUnless kind y F bs (.sign kind :: rest) := by
  cases bs with
  | nil => exact ⟨_, .inl (Symbol.genuine_sign hkind), rfl, rfl⟩
  | cons b bs =>
    refine Follows.intro ?_ (fun b => hclose b rest) (fun b b' u => hsep b _) (b :: bs)
    rw [clear_cons]
    exact hcomma

/-- Items with a comma between every two, or none where a token of the kind `kind` stands. -/
theorem commaListUnless {kind : Kind}
    (h : Parses (fun _ => True) item Den (fun b w => w = y b) F nowhere)
    (hy : ∀ b u, Clear kind (y b ++ u)) :
    Parses P (atKind kind >>= fun c => if c = true then pure [] else Rule.commaList item)
      (List.Forall₂ Den) (fun bs w => w = separated y bs) (FollowsUnless kind y F) nowhere := by
  refine .atKind_ite ?_ ?_
  · intro s hs hkind
    refine .congr (.pure [] .nil ?_) ?_ ?_
    · exact fun v hv => ⟨s, hs, hkind, hv.2⟩
    · rintro bs w ⟨rfl, rfl⟩
      rfl
    · rintro (_ | ⟨b, bs⟩) w rest hv rfl -
      · exact ⟨rfl, rfl⟩
      · refine absurd hkind (hy b ?_ s ?_)
        · exact (bs.flatMap fun b' => .sign .comma :: y b') ++ rest
        · rw [← List.append_assoc]
          exact hv.2
  · intro s hs hkind
    refine (commaList h).map (fun p => p.1 :: p.2) (fun _ _ => id) (fun _ _ => id)
      (fun _ _ _ _ _ => id) ?_
    rintro (_ | ⟨b, bs⟩) w rest hv rfl hF
    · obtain ⟨s', -, hkind', hs'⟩ := hF
      rw [hv.2.unique hs'] at hkind
      exact absurd hkind' hkind
    · exact ⟨(b, bs), rfl, rfl, hF⟩

/-- An entry, unless a token of the kind `kind` stands there. -/
theorem unlessKind {kind : Kind} (h : Parses (fun _ => True) item Den (fun b w => w = y b) F E)
    (hy : ∀ b u, Clear kind (y b ++ u)) :
    Parses (fun _ => True) (atKind kind >>= fun c =>
        if c = true then pure none else item >>= fun a => pure (some a))
      (Option.Rel Den) (fun b w => w = b.elim [] y) (fun b rest => b.elim (At kind rest) (F · rest))
      E := by
  refine atKind_ite ?_ ?_
  · intro s hs hkind
    refine .congr (.pure none .none ?_) ?_ ?_
    · exact fun v hv => ⟨s, hs, hkind, hv.2⟩
    · rintro b w ⟨rfl, rfl⟩
      rfl
    · rintro (_ | b) w rest hv rfl _
      · exact ⟨rfl, rfl⟩
      · exact absurd hkind (hy b rest s hv.2)
  · intro s hs hkind
    refine .congr (h.anywhere.bind (fun b a hden => .pure (some b) (.some hden) ?_) ?_) ?_ ?_
    · exact fun v hv => hv
    · rintro b _ w rest - ⟨rfl, rfl⟩ hF
      exact hF
    · rintro _ w ⟨b, w₂, rfl, rfl, rfl⟩
      simp
    · rintro (_ | b) w rest hv rfl hF
      · obtain ⟨s', -, hkind', hs'⟩ := hF
        rw [hv.2.unique hs'] at hkind
        exact absurd hkind' hkind
      · exact ⟨b, [], by simp, rfl, rfl⟩

/-- What else may stand where an entry may: the brace that closes the block, as an `outer`
remark. -/
def Closes (w : Phrase) (m : Remark) : Prop :=
  w = [] ∧ m = .outer (.token .braceClose)

/-- The places of entries within braces where a fault is seen late: `E` behind the open brace and
some entries. -/
def Inside (y : β → Phrase) (E : Phrase → Remark → Prop) (w : Phrase) (m : Remark) : Prop :=
  ∃ (bs : List β) (w' : Phrase) (s t : Symbol),
    w = .sign .braceOpen :: (bs.flatMap y ++ w') ∧ m = .late s t ∧ E w' m

/-- Entries between braces (`Rule.block`). -/
theorem block (h : Parses (fun _ => True) item Den (fun b w => w = y b) F E)
    (hE : ∀ w a, E w (.outer a) → Closes w (.outer a))
    (hy : ∀ b, ∃ s u, y b = s :: u ∧ s.kind ≠ .braceClose)
    (hclose : ∀ b u, F b (.sign .braceClose :: u)) (hentry : ∀ b b' u, F b (y b' ++ u)) :
    Parses P (block item) (List.Forall₂ Den)
      (fun bs w => w = .sign .braceOpen :: (bs.flatMap y ++ [.sign .braceClose]))
      (fun _ _ => True) (Inside y E) := by
  have hyclear : ∀ b u, Clear .braceClose (y b ++ u) := by
    intro b u
    obtain ⟨s, u', hs, hkind⟩ := hy b
    simpa [hs] using hkind
  have hyne : ∀ b, y b ≠ [] := by
    intro b hnil
    obtain ⟨s, u, hs, -⟩ := hy b
    simp [hs] at hnil
  have hentries : Parses (fun _ => True) (Rule.many _) _ _ _ (Amid Den y E) :=
    many' (unlessKind h hyclear) hyne (fun _ _ => Amid.nil) fun _ _ hden _ _ => Amid.cons hden
  -- the entries end at the closing brace, so that taking the next token takes the brace
  have hrest : ∀ bs as, List.Forall₂ Den bs as →
      Parses (Follows y (At .braceClose) F bs) (discard Rule.advance >>= fun _ => pure as)
        (List.Forall₂ Den) (fun bs' w => bs' = bs ∧ w = [.sign .braceClose]) (fun _ _ => True)
        nowhere := by
    intro bs as hbs
    refine .congr (discard_bind ((advance (s := .sign .braceClose) rfl ?_).bind
      (fun _ _ _ => .pure bs hbs fun _ _ => trivial) ?_)) ?_ ?_
    · exact fun v hv => starts_sign (by decide) hv.ends
    · intro _ _ w rest hv _ _
      exact hv
    · rintro bs' w ⟨-, w₂, rfl, rfl, rfl⟩
      exact ⟨rfl, rfl⟩
    · rintro bs' w rest - ⟨rfl, rfl⟩ -
      exact ⟨(), [], rfl, rfl, rfl⟩
  refine .settle (.congr (discard_bind ((expectSign (by decide)).bindRight
    (fun _ _ _ => hentries.bind hrest ?_) ?_)) ?_ ?_) ?_ ?_
  · rintro bs _ w rest - ⟨rfl, rfl⟩ -
    exact Follows.intro ⟨_, .inl rfl, rfl, rfl⟩ (fun b => hclose b rest) hentry _
  · exact fun _ _ _ _ _ _ _ => trivial
  · rintro _ w ⟨_, _, rfl, bs, _, rfl, rfl, rfl⟩
    rfl
  · rintro bs w rest - rfl -
    exact ⟨(), _, rfl, bs, _, rfl, rfl, rfl⟩
  · rintro _ s t ⟨_, _, rfl, -, bs, w', rfl, -, hw⟩
    exact ⟨bs, w', s, t, rfl, rfl, hw⟩
  · -- behind some entries the block may as well end
    rintro _ a ⟨_, _, rfl, -, bs, w', rfl, ⟨as, hdens⟩, hw⟩
    obtain ⟨rfl, ha⟩ := hE w' a hw
    obtain rfl : a = .token .braceClose := by simpa using ha
    exact .token (s := .sign .braceClose) ⟨bs, as, [], hdens, by simp⟩

/-- The semicolon that may follow a closing brace (`Rule.closing`). -/
theorem closing {start : Span} :
    Parses P (closing start) (fun _ _ => True)
      (fun semi w => w = if semi then [.sign .semicolon] else [])
      (fun semi rest => semi = false → Clear .semicolon rest) nowhere := by
  refine spanFrom_bind fun span => discard_bind (.congr (eat_bind (by decide)
    (fun _ _ => .pure true trivial ?_) (.pure false trivial ?_) ?_) ?_ ?_)
  · simp
  · exact fun v hv _ => hv
  · rintro semi w rest ⟨rfl, rfl⟩ hF
    exact hF rfl
  · rintro semi w (⟨w', rfl, rfl, rfl⟩ | ⟨rfl, rfl⟩) <;> rfl
  · rintro (_ | _) w rest - rfl hF
    · exact .inr ⟨rfl, rfl⟩
    · exact .inl ⟨[], rfl, rfl, rfl⟩

end Parses

end Gxl.Rule
