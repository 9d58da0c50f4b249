import Gxl.Proofs.Grammar.Derivation
import Gxl.Proofs.Grammar.Holds
import Mathlib.Data.List.Forall2

/-!
# What it means that a rule reads a language

`Rule.Parses` is the one contract that every rule of the grammar meets.  It speaks about a type of
derivations with four relations: `Den`, the pieces of tree that a derivation denotes; `L`, the
phrases that it derives; `F`, the phrases that may follow it; and `E`, the places that there is
something to remark about: where a fault is seen one token late, or where an alternative is reported
that the rules around offer.  A rule that meets the contract

* builds what a derivation of the tokens it takes denotes,
* takes the only tokens it could take: whatever else might stand behind the next token, no other
  derivation, and no longer or shorter phrase, would do,
* refuses a token only where no derivation goes on with it, and only after tokens that some
  derivation starts with,
* reports alternatives to that token with which some derivation does go on (`Offers`), and
* meets a fault of the feed only after tokens that some derivation starts with.

So one proof for a rule says that it is sound, complete and unambiguous, that its errors stand where
the first wrong token does, and that what they expect there would do.  The contract is closed under
the ways in which rules are put together, and this module proves so for each of them.
-/

namespace Gxl.Rule

variable {α β α₁ β₁ : Type}

/-- A phrase that some derivation starts with: some `b` denotes a piece of tree and derives a phrase
that goes on with `w`. -/
def Viable (Den : β → α → Prop) (L : β → Phrase → Prop) (w : Phrase) : Prop :=
  ∃ b a u, Den b a ∧ L b (w ++ u)

/-- A derivation `b` of the head of a phrase `v`, and the head `w` it derives. -/
def Reads (P : Phrase → Prop) (L F : β → Phrase → Prop) (v : Phrase) (b : β) (w : Phrase) : Prop :=
  ∃ rest, v = w ++ rest ∧ P v ∧ L b w ∧ F b rest

/-- A derivation is read from its own phrase `y b`. -/
theorem Reads.intro {P : Phrase → Prop} {F : β → Phrase → Prop} {y : β → Phrase} (b : β)
    (rest : Phrase) (hP : P (y b ++ rest)) (hF : F b rest) :
    Reads P (fun b w => w = y b) F (y b ++ rest) b (y b) :=
  ⟨rest, rfl, hP, rfl, hF⟩

/-- What there may be to remark about a place in a phrase. -/
inductive Remark where
  /-- The first of two symbols is refused there because of the second. -/
  | late (s t : Symbol)
  /-- An alternative that is reported there is one that the rules around offer. -/
  | outer (a : Expected)

/-- No place: rules that see a fault as soon as it is there, and offer all alternatives themselves,
have no `Remark`. -/
def nowhere : Phrase → Remark → Prop :=
  fun _ _ => False

/-- An alternative behind a phrase: some derivation goes on with it (`Expected.Fits`), or the rules
around offer it. -/
inductive Offered (Den : β → α → Prop) (L : β → Phrase → Prop) (E : Phrase → Remark → Prop)
    (w : Phrase) (a : Expected) : Prop where
  | outer (h : E w (.outer a))
  | inner (u : Phrase) (fits : a.Fits u) (viable : Viable Den L (w ++ u))

/-- The alternatives of an error behind a phrase.  There are some, and each one is `Offered`.  That
a command is all there could be is never said: where one could stand, so could something else. -/
structure Offers (Den : β → α → Prop) (L : β → Phrase → Prop) (E : Phrase → Remark → Prop)
    (w : Phrase) (expected : List Expected) : Prop where
  ne_nil : expected ≠ []
  ne_command : expected ≠ [.item "command"]
  each : ∀ a ∈ expected, Offered Den L E w a

/-- What a run on a reader that holds the tokens `ts` has to end with.  The numbers bound the size
of the reader: it shrinks with every token taken. -/
inductive Outcome {σ : Type} [Feed σ] (P : Phrase → Prop) (Den : β → α → Prop)
    (L F : β → Phrase → Prop) (E : Phrase → Remark → Prop) (ts : List Token)
    (fault : Option LexError) (n : Nat) : Except Error α × Reader σ → Prop where
  /-- A piece of tree, and the only derivation for it. -/
  | built {a : α} {r : Reader σ} {b : β} {w rest : List Token} (split : ts = w ++ rest)
      (holds : r.Holds rest fault) (size : r.size + w.length ≤ n) (denotes : Den b a)
      (derives : L b (symbols w)) (follows : F b (symbols rest))
      (only : ∀ v b' w', Reads P L F v b' w' → symbols w ++ (symbols rest).take 1 <+: v →
        b' = b ∧ w' = symbols w) : Outcome P Den L F E ts fault n (.ok a, r)
  /-- A token that no derivation goes on with. -/
  | refused {r : Reader σ} {w rest : List Token} {x : Token} {expected : List Expected}
      (split : ts = w ++ x :: rest) (viable : Viable Den L (symbols w))
      (none : ∀ v b w', Reads P L F v b w' → ¬ symbols w ++ [x.symbol] <+: v)
      (offers : Offers Den L E (symbols w) expected) :
      Outcome P Den L F E ts fault n (.error (.parse (.ofToken x expected)), r)
  /-- A token that no derivation goes on with because of the token behind it. -/
  | late {r : Reader σ} {w rest : List Token} {x y : Token} {expected : List Expected}
      (split : ts = w ++ x :: y :: rest) (viable : Viable Den L (symbols w))
      (edge : E (symbols w) (.late x.symbol y.symbol))
      (none : ∀ v b w', Reads P L F v b w' → ¬ symbols w ++ [x.symbol, y.symbol] <+: v)
      (offers : Offers Den L E (symbols w) expected) :
      Outcome P Den L F E ts fault n (.error (.parse (.ofToken x expected)), r)
  /-- The fault behind the last token. -/
  | starved {r : Reader σ} {e : LexError} (faulty : fault = some e)
      (viable : Viable Den L (symbols ts)) : Outcome P Den L F E ts fault n (.error (.lex e), r)

/-- A rule reads a language, on all tokens of which `P` is known. -/
structure Parses (P : Phrase → Prop) (x : Rule α) (Den : β → α → Prop) (L F : β → Phrase → Prop)
    (E : Phrase → Remark → Prop) : Prop where
  inhabited : Viable Den L []
  outcome : ∀ {σ : Type} [Feed σ] {r : Reader σ} {ts : List Token} {fault : Option LexError},
    r.Holds ts fault → P (symbols ts) → Outcome P Den L F E ts fault r.size (x.run r)

variable {P P' : Phrase → Prop} {Den : β → α → Prop} {L F : β → Phrase → Prop}
  {E : Phrase → Remark → Prop}

/-! ## Phrases that agree -/

/-- One token behind the first part of a phrase is one token of the whole or more: `take 1` of a
phrase is a prefix. -/
theorem append_take_prefix (u v : Phrase) (w : Phrase) :
    w ++ (u ++ v).take 1 <+: w ++ u ++ v.take 1 := by
  rw [List.append_assoc, List.prefix_append_right_inj]
  cases u with
  | nil => simp
  | cons s u => simp

/-- The same for the `symbols` of tokens. -/
theorem take_prefix_symbols {ts w rest : List Token} (h : ts = w ++ rest) :
    (symbols ts).take 1 <+: symbols w ++ (symbols rest).take 1 := by
  subst h
  simpa using append_take_prefix (symbols w) (symbols rest) []

/-- The same where a token `x` comes next. -/
theorem take_prefix_of_cons {ts w rest : List Token} {x : Token} (h : ts = w ++ x :: rest) :
    (symbols ts).take 1 <+: symbols w ++ [x.symbol] := by
  simpa using take_prefix_symbols h

/-! ## Alternatives -/

section Offers

variable {α' β' : Type} {Den' : β' → α' → Prop} {L' : β' → Phrase → Prop}
  {E' : Phrase → Remark → Prop} {w w' : Phrase} {expected : List Expected}

/-- Alternatives are offered by a larger language if every one of them is `Offered` by it. -/
theorem Offers.imp (h : Offers Den L E w expected)
    (himp : ∀ a, Offered Den L E w a → Offered Den' L' E' w' a) :
    Offers Den' L' E' w' expected :=
  ⟨h.ne_nil, h.ne_command, fun a ha => himp a (h.each a ha)⟩

/-- Alternatives go over to a language that is `Viable` wherever the first one is. -/
theorem Offers.mono (h : Offers Den L E w expected)
    (houter : ∀ a, E w (.outer a) → E' w' (.outer a))
    (hviable : ∀ u, Viable Den L (w ++ u) → Viable Den' L' (w' ++ u)) :
    Offers Den' L' E' w' expected := by
  refine h.imp fun a ha => ?_
  cases ha with
  | outer hE => exact .outer (houter a hE)
  | inner u fits viable => exact .inner u fits (hviable u viable)

/-- Two alternatives or more are offered if each of them is `Offered`. -/
theorem Offers.of_forall {a b : Expected} (h : (a :: b :: expected).Forall (Offered Den L E w)) :
    Offers Den L E w (a :: b :: expected) :=
  ⟨by simp, by simp, List.forall_iff_forall_mem.1 h⟩

/-- A token is offered by its kind (`Expected.token`). -/
theorem Offered.token {s : Symbol} (h : Viable Den L (w ++ [s])) :
    Offered Den L E w (.token s.kind) :=
  .inner [s] ⟨s, rfl, rfl⟩ h

/-- A word is offered as it is (`Expected.keyword`). -/
theorem Offered.keyword {word : String} (h : Viable Den L (w ++ [.word word])) :
    Offered Den L E w (.keyword word) :=
  .inner [.word word] rfl h

/-- A property is offered by what it is called, where some property may stand. -/
theorem Offered.property (p : Derivation.Property) (h : Viable Den L (w ++ p.yield)) :
    Offered Den L E w (.item "property") :=
  .inner p.yield (.inl ⟨rfl, p, rfl⟩) h

/-- A command is offered by what it is called, where some command may stand. -/
theorem Offered.command (c : Derivation.Command) (h : Viable Den L (w ++ c.yield)) :
    Offered Den L E w (.item "command") :=
  .inner c.yield (.inr (.inl ⟨rfl, c, rfl⟩)) h

/-- A block of variables is offered by what it is called, where some block may stand. -/
theorem Offered.vars (args : List Derivation.Arg) (semi : Bool)
    (h : Viable Den L (w ++ (Derivation.EnvironmentEntry.vars args semi).yield)) :
    Offered Den L E w (.item "gx.vars block") :=
  .inner _ (.inr (.inr ⟨rfl, args, semi, rfl⟩)) h

end Offers

/-! ## Outcomes -/

section Outcome

variable {σ : Type} [Feed σ] {ts : List Token} {fault : Option LexError} {n m : Nat}
  {o : Except Error α × Reader σ}

/-- What a viable phrase starts with is viable. -/
theorem Viable.of_append {u v : Phrase} (h : Viable Den L (u ++ v)) : Viable Den L u := by
  obtain ⟨b, a, w, hden, hL⟩ := h
  exact ⟨b, a, v ++ w, hden, by rwa [← List.append_assoc]⟩

/-- What holds of the tokens at hand holds of every phrase that starts with the same token, so `P`
may say more than `P'`. -/
theorem Outcome.weaken (h : Outcome P' Den L F E ts fault m o) (hm : m ≤ n)
    (hP : ∀ v, P v → (symbols ts).take 1 <+: v → P' v) : Outcome P Den L F E ts fault n o := by
  -- all that an outcome says of other phrases, it says of those that start like the tokens at hand
  have hreads : ∀ {v b w}, Reads P L F v b w → (symbols ts).take 1 <+: v → Reads P' L F v b w := by
    rintro v b w ⟨rest, rfl, hv, hL, hF⟩ hagree
    exact ⟨rest, rfl, hP _ hv hagree, hL, hF⟩
  cases h with
  | built split holds size denotes derives follows only =>
    refine .built split holds (Nat.le_trans size hm) denotes derives follows ?_
    intro v b' w' hr hagree
    exact only v b' w' (hreads hr ((take_prefix_symbols split).trans hagree)) hagree
  | refused split viable none offers =>
    refine .refused split viable ?_ offers
    intro v b w' hr hagree
    exact none v b w' (hreads hr ((take_prefix_of_cons split).trans hagree)) hagree
  | late split viable edge none offers =>
    refine .late split viable edge ?_ offers
    intro v b w' hr hagree
    have hfirst := (take_prefix_of_cons split).trans
      (((List.prefix_append_right_inj _).2 (List.prefix_append [_] [_])).trans hagree)
    exact none v b w' (hreads hr hfirst) hagree
  | starved faulty viable => exact .starved faulty viable

/-- There may be more to remark about places than there is, and an alternative need not come from
the rules around when a derivation goes on with it: `E'` for `E`. -/
theorem Outcome.widen {E' : Phrase → Remark → Prop} (h : Outcome P Den L F E ts fault n o)
    (hlate : ∀ w s t, E w (.late s t) → E' w (.late s t))
    (houter : ∀ w a, E w (.outer a) → Offered Den L E' w a) :
    Outcome P Den L F E' ts fault n o := by
  have hoffers : ∀ {w expected}, Offers Den L E w expected → Offers Den L E' w expected := by
    intro w expected h
    refine h.imp fun a ha => ?_
    cases ha with
    | outer hE => exact houter w a hE
    | inner u fits viable => exact .inner u fits viable
  cases h with
  | built split holds size denotes derives follows only =>
    exact .built split holds size denotes derives follows only
  | refused split viable none offers => exact .refused split viable none (hoffers offers)
  | late split viable edge none offers =>
    exact .late split viable (hlate _ _ _ edge) none (hoffers offers)
  | starved faulty viable => exact .starved faulty viable

/-- An outcome for one kind of derivation is an outcome for another, if readings (`Reads`) go over
into readings both ways. -/
theorem Outcome.map {α' β' : Type} {Den' : β' → α' → Prop} {L' F' : β' → Phrase → Prop}
    {o' : Except Error α' × Reader σ} (f : α → α') (g : β → β')
    (h : Outcome P Den L F E ts fault n o) (hP : P (symbols ts))
    (herror : ∀ e r, o = (.error e, r) → o' = (.error e, r))
    (hok : ∀ a r, o = (.ok a, r) → o' = (.ok (f a), r))
    (hden : ∀ b a, Den b a → Den' (g b) (f a)) (hL : ∀ b w, L b w → L' (g b) w)
    (hF : ∀ b w rest, P (w ++ rest) → L b w → F b rest → F' (g b) rest)
    (hback : ∀ b' w rest, P (w ++ rest) → L' b' w → F' b' rest →
      ∃ b, b' = g b ∧ L b w ∧ F b rest) :
    Outcome P Den' L' F' E ts fault n o' := by
  have hviable : ∀ {w}, Viable Den L w → Viable Den' L' w := by
    rintro w ⟨b, a, u, hba, hw⟩
    exact ⟨g b, f a, u, hden b a hba, hL b _ hw⟩
  -- what rules readings out is known of the old kind, so each of the new kind is taken back to one
  have hreads : ∀ {v b' w}, Reads P L' F' v b' w → ∃ b, b' = g b ∧ Reads P L F v b w := by
    rintro v b' w ⟨rest, rfl, hv, hL', hF'⟩
    obtain ⟨b, rfl, hb, hb'⟩ := hback b' w rest hv hL' hF'
    exact ⟨b, rfl, rest, rfl, hv, hb, hb'⟩
  cases h with
  | @built a r b w rest split holds size denotes derives follows only =>
    have hfollows := hF b _ (symbols rest) (by rwa [← symbols_append, ← split]) derives follows
    rw [hok _ _ rfl]
    refine .built split holds size (hden b a denotes) (hL b _ derives) hfollows ?_
    intro v b' w' hr hagree
    obtain ⟨b'', rfl, hr'⟩ := hreads hr
    obtain ⟨rfl, hw⟩ := only v b'' w' hr' hagree
    exact ⟨rfl, hw⟩
  | refused split viable none offers =>
    rw [herror _ _ rfl]
    refine .refused split (hviable viable) ?_ (offers.mono (fun _ => id) fun _ => hviable)
    intro v b' w' hr
    obtain ⟨b, -, hr'⟩ := hreads hr
    exact none v b w' hr'
  | late split viable edge none offers =>
    rw [herror _ _ rfl]
    refine .late split (hviable viable) edge ?_ (offers.mono (fun _ => id) fun _ => hviable)
    intro v b' w' hr
    obtain ⟨b, -, hr'⟩ := hreads hr
    exact none v b w' hr'
  | starved faulty viable =>
    rw [herror _ _ rfl]
    exact .starved faulty (hviable viable)

/-- The phrases of one derivation and then another, `y₁` of the first and `M` of both. -/
def Then (y₁ : β₁ → Phrase) (M : β₁ → β → Phrase → Prop) : β → Phrase → Prop :=
  fun b w => ∃ b₁ w₂, w = y₁ b₁ ++ w₂ ∧ M b₁ b w₂

variable {Den₁ : β₁ → α₁ → Prop} {y₁ : β₁ → Phrase} {F₁ : β₁ → Phrase → Prop}
  {E₁ : Phrase → Remark → Prop} {M : β₁ → β → Phrase → Prop}
  {E₂ : β₁ → Phrase → Remark → Prop}

/-- A reading of two parts is a reading of the first and one of the second: `Then` taken apart. -/
theorem Reads.of_then {v w : Phrase} {b : β}
    (hside : ∀ b₁ b w rest, P (y₁ b₁ ++ (w ++ rest)) → M b₁ b w → F b rest → F₁ b₁ (w ++ rest))
    (h : Reads P (Then y₁ M) F v b w) :
    ∃ b₁ w₂ v₂, w = y₁ b₁ ++ w₂ ∧ v = y₁ b₁ ++ v₂ ∧
      Reads P (fun b w => w = y₁ b) F₁ v b₁ (y₁ b₁) ∧ Reads (F₁ b₁) (M b₁) F v₂ b w₂ := by
  obtain ⟨rest, rfl, hP, ⟨b₁, w₂, rfl, hM⟩, hF⟩ := h
  rw [List.append_assoc] at hP ⊢
  have hF₁ := hside b₁ b w₂ rest hP hM hF
  exact ⟨b₁, w₂, w₂ ++ rest, rfl, rfl, ⟨w₂ ++ rest, rfl, hP, rfl, hF₁⟩, ⟨rest, rfl, hF₁, hM, hF⟩⟩

/-- A first part that is `Viable` goes on to a viable whole. -/
theorem Viable.left {w : Phrase} (h : Viable Den₁ (fun b w => w = y₁ b) w)
    (hnext : ∀ b₁ a₁, Den₁ b₁ a₁ → Viable Den (M b₁) []) : Viable Den (Then y₁ M) w := by
  obtain ⟨b₁, a₁, u, hden, hw⟩ := h
  obtain ⟨b, a, u', hden', hM⟩ := hnext b₁ a₁ hden
  exact ⟨b, a, u ++ u', hden', b₁, u', by rw [← hw, List.append_assoc], hM⟩

/-- A second part that is `Viable` makes the whole viable. -/
theorem Viable.right {b₁ : β₁} {w₁ w₂ : Phrase} (h₁ : w₁ = y₁ b₁) (h : Viable Den (M b₁) w₂) :
    Viable Den (Then y₁ M) (w₁ ++ w₂) := by
  obtain ⟨b, a, u, hden, hM⟩ := h
  exact ⟨b, a, u, hden, b₁, w₂ ++ u, by rw [h₁, List.append_assoc], hM⟩

/-- The outcome of a run behind another that has built something.  Only a reading whose first part
is `b₁` can agree with the tokens, so what the second run says holds of the whole. -/
theorem Outcome.behind {b₁ : β₁} {w₁ rest₁ : List Token} {E' : Phrase → Remark → Prop}
    (split : ts = w₁ ++ rest₁) (derives : symbols w₁ = y₁ b₁) (size : m + w₁.length ≤ n)
    (only : ∀ v b' w', Reads P (fun b w => w = y₁ b) F₁ v b' w' →
      symbols w₁ ++ (symbols rest₁).take 1 <+: v → b' = b₁ ∧ w' = symbols w₁)
    (hside : ∀ b₁ b w rest, P (y₁ b₁ ++ (w ++ rest)) → M b₁ b w → F b rest → F₁ b₁ (w ++ rest))
    (hE : ∀ w m, E' w m → E (y₁ b₁ ++ w) m)
    (h : Outcome (F₁ b₁) Den (M b₁) F E' rest₁ fault m o) :
    Outcome P Den (Then y₁ M) F E ts fault n o := by
  have hoffers : ∀ {w₂ expected}, Offers Den (M b₁) E' (symbols w₂) expected →
      Offers Den (Then y₁ M) E (symbols (w₁ ++ w₂)) expected := by
    intro w₂ expected h
    rw [symbols_append]
    refine h.mono (fun a ha => ?_) fun u hu => ?_
    · rw [derives]
      exact hE _ _ ha
    · rw [List.append_assoc]
      exact .right derives hu
  -- the one token behind the first part, which `only` needs, is the first token of the second run
  have hfirst : ∀ {v b w} {u : Phrase}, Reads P (Then y₁ M) F v b w →
      symbols w₁ ++ u <+: v → (symbols rest₁).take 1 <+: u →
      ∃ v₂ w₂, w = symbols w₁ ++ w₂ ∧ u <+: v₂ ∧ Reads (F₁ b₁) (M b₁) F v₂ b w₂ := by
    intro v b w u hr hagree hu
    obtain ⟨b₁', w₂, v₂, rfl, rfl, hr₁, hr₂⟩ := hr.of_then hside
    have hone := ((List.prefix_append_right_inj (symbols w₁)).2 hu).trans hagree
    obtain ⟨rfl, hw₁⟩ := only _ b₁' _ hr₁ hone
    rw [hw₁] at hagree ⊢
    exact ⟨v₂, w₂, rfl, (List.prefix_append_right_inj _).1 hagree, hr₂⟩
  cases h with
  | @built a r b w₂ rest split₂ holds₂ size₂ denotes₂ derives₂ follows₂ only₂ =>
    refine .built (w := w₁ ++ w₂) (by simp [split, split₂]) holds₂ ?_ denotes₂ ?_ follows₂ ?_
    · rw [List.length_append]
      omega
    · exact ⟨b₁, symbols w₂, by rw [symbols_append, derives], derives₂⟩
    · intro v b' w' hr hagree
      rw [symbols_append, List.append_assoc] at hagree
      obtain ⟨v₂, w₂', rfl, hagree₂, hr₂⟩ := hfirst hr hagree (take_prefix_symbols split₂)
      obtain ⟨rfl, rfl⟩ := only₂ v₂ b' w₂' hr₂ hagree₂
      exact ⟨rfl, by simp⟩
  | @refused r w₂ rest x expected split₂ viable₂ none₂ offers₂ =>
    refine .refused (w := w₁ ++ w₂) (by rw [split, split₂, List.append_assoc]) ?_ ?_
      (hoffers offers₂)
    · rw [symbols_append]
      exact .right derives viable₂
    · intro v b' w' hr hagree
      rw [symbols_append, List.append_assoc] at hagree
      obtain ⟨v₂, w₂', rfl, hagree₂, hr₂⟩ := hfirst hr hagree (take_prefix_of_cons split₂)
      exact none₂ v₂ b' w₂' hr₂ hagree₂
  | @late r w₂ rest x y expected split₂ viable₂ edge₂ none₂ offers₂ =>
    refine .late (w := w₁ ++ w₂) (by rw [split, split₂, List.append_assoc]) ?_ ?_ ?_
      (hoffers offers₂)
    · rw [symbols_append]
      exact .right derives viable₂
    · rw [symbols_append, derives]
      exact hE _ _ edge₂
    · intro v b' w' hr hagree
      rw [symbols_append, List.append_assoc] at hagree
      have hone := (take_prefix_of_cons split₂).trans
        ((List.prefix_append_right_inj _).2 (List.prefix_append [x.symbol] [y.symbol]))
      obtain ⟨v₂, w₂', rfl, hagree₂, hr₂⟩ := hfirst hr hagree hone
      exact none₂ v₂ b' w₂' hr₂ hagree₂
  | starved faulty₂ viable₂ =>
    refine .starved faulty₂ ?_
    rw [split, symbols_append]
    exact .right derives viable₂

/-- The outcome of one run and then another that depends on what the first has built (`Then`). -/
theorem Outcome.then {o₁ : Except Error α₁ × Reader σ}
    (h₁ : Outcome P Den₁ (fun b w => w = y₁ b) F₁ E₁ ts fault n o₁)
    (hnext : ∀ b₁ a₁, Den₁ b₁ a₁ → Viable Den (M b₁) [])
    (herror : ∀ e r, o₁ = (.error e, r) → o = (.error e, r))
    (hok : ∀ b₁ a₁ r w rest, o₁ = (.ok a₁, r) → ts = w ++ rest → Den₁ b₁ a₁ →
      symbols w = y₁ b₁ → F₁ b₁ (symbols rest) → r.Holds rest fault → r.size + w.length ≤ n →
      Outcome (F₁ b₁) Den (M b₁) F (E₂ b₁) rest fault r.size o)
    (hside : ∀ b₁ b w rest, P (y₁ b₁ ++ (w ++ rest)) → M b₁ b w → F b rest → F₁ b₁ (w ++ rest))
    (hE₁ : ∀ w m, E₁ w m → E w m)
    (hE₂ : ∀ b₁ a₁, Den₁ b₁ a₁ → ∀ w m, E₂ b₁ w m → E (y₁ b₁ ++ w) m) :
    Outcome P Den (Then y₁ M) F E ts fault n o := by
  have hoffers : ∀ {w expected}, Offers Den₁ (fun b w => w = y₁ b) E₁ w expected →
      Offers Den (Then y₁ M) E w expected :=
    fun h => h.mono (fun _ => hE₁ _ _) fun _ hu => hu.left hnext
  cases h₁ with
  | @built a₁ r₁ b₁ w₁ rest₁ split holds size denotes derives follows only =>
    have h₂ := hok b₁ a₁ r₁ w₁ rest₁ rfl split denotes derives follows holds size
    exact h₂.behind split derives size only hside (hE₂ b₁ a₁ denotes)
  | refused split viable none offers =>
    rw [herror _ _ rfl]
    refine .refused split (viable.left hnext) ?_ (hoffers offers)
    intro v b w' hr
    obtain ⟨b₁, -, -, -, -, hr₁, -⟩ := hr.of_then hside
    exact none v b₁ _ hr₁
  | late split viable edge none offers =>
    rw [herror _ _ rfl]
    refine .late split (viable.left hnext) (hE₁ _ _ edge) ?_ (hoffers offers)
    intro v b w' hr
    obtain ⟨b₁, -, -, -, -, hr₁, -⟩ := hr.of_then hside
    exact none v b₁ _ hr₁
  | starved faulty viable =>
    rw [herror _ _ rfl]
    exact .starved faulty (viable.left hnext)

end Outcome

/-! ## Rules in a row -/

namespace Parses

variable {x : Rule α}

/-- Knowing more of the tokens ahead does no harm: `P` may be stronger than `P'`. -/
theorem weaken (h : Parses P' x Den L F E) (hP : ∀ v, P v → P' v) : Parses P x Den L F E :=
  ⟨h.inhabited, fun hr hv => (h.outcome hr (hP _ hv)).weaken (Nat.le_refl _) fun v hv _ => hP v hv⟩

/-- A rule that can be used anywhere can be used where `P` is known. -/
theorem anywhere (h : Parses (fun _ => True) x Den L F E) : Parses P x Den L F E :=
  h.weaken fun _ _ => trivial

/-- What the rules around offer may as well be `Offered` by the language of the rule itself. -/
theorem settle {E' : Phrase → Remark → Prop} (h : Parses P x Den L F E)
    (hlate : ∀ w s t, E w (.late s t) → E' w (.late s t))
    (houter : ∀ w a, E w (.outer a) → Offered Den L E' w a) : Parses P x Den L F E' :=
  ⟨h.inhabited, fun hr hv => (h.outcome hr hv).widen hlate houter⟩

/-- There may be more to remark about places, `E'`, than there is. -/
theorem widen {E' : Phrase → Remark → Prop} (h : Parses P x Den L F E)
    (hE : ∀ w m, E w m → E' w m) : Parses P x Den L F E' :=
  h.settle (fun w s t => hE w (.late s t)) fun w a ha => .outer (hE w (.outer a) ha)

/-- A rule that there is nothing to remark about (`nowhere`) may be used where there is. -/
theorem of_nowhere (h : Parses P x Den L F nowhere) : Parses P x Den L F E :=
  h.widen fun _ _ => False.elim

/-- Another way to write the derivations of a rule, by `g`. -/
theorem map {β' : Type} {Den' : β' → α → Prop} {L' F' : β' → Phrase → Prop} (g : β → β')
    (h : Parses P x Den L F E) (hden : ∀ b a, Den b a → Den' (g b) a)
    (hL : ∀ b w, L b w → L' (g b) w)
    (hF : ∀ b w rest, P (w ++ rest) → L b w → F b rest → F' (g b) rest)
    (hback : ∀ b' w rest, P (w ++ rest) → L' b' w → F' b' rest →
      ∃ b, b' = g b ∧ L b w ∧ F b rest) : Parses P x Den' L' F' E := by
  refine ⟨?_, fun hr hv => (h.outcome hr hv).map id g hv (fun _ _ => id) (fun _ _ => id) hden hL hF
    hback⟩
  obtain ⟨b, a, u, hba, hw⟩ := h.inhabited
  exact ⟨g b, a, u, hden b a hba, hL b _ hw⟩

/-- A rule that makes something else, by `f`, of what another builds. -/
theorem build {α' β' : Type} {Den' : β' → α' → Prop} {L' F' : β' → Phrase → Prop} {f : α → α'}
    (g : β → β') (h : Parses P x Den L F E) (hden : ∀ b a, Den b a → Den' (g b) (f a))
    (hL : ∀ b w, L b w → L' (g b) w)
    (hF : ∀ b w rest, P (w ++ rest) → L b w → F b rest → F' (g b) rest)
    (hback : ∀ b' w rest, P (w ++ rest) → L' b' w → F' b' rest →
      ∃ b, b' = g b ∧ L b w ∧ F b rest) : Parses P (x >>= fun a => pure (f a)) Den' L' F' E := by
  constructor
  · obtain ⟨b, a, u, hba, hw⟩ := h.inhabited
    exact ⟨g b, f a, u, hden b a hba, hL b _ hw⟩
  · intro σ _ r ts fault hr hv
    refine (h.outcome hr hv).map f g hv ?_ ?_ hden hL hF hback
    · intro e r' he
      rw [run_bind, he]
    · intro a r' ha
      rw [run_bind, ha]
      rfl

/-- A rule reads every language `L'` that has the same readings. -/
theorem congr {L' : β → Phrase → Prop} (h : Parses P x Den L F E)
    (hL : ∀ b w, L b w → L' b w)
    (hback : ∀ b w rest, P (w ++ rest) → L' b w → F b rest → L b w) : Parses P x Den L' F E :=
  h.map id (fun _ _ => id) hL (fun _ _ _ _ _ => id)
    fun b w rest hv hL' hF => ⟨b, rfl, hback b w rest hv hL' hF, hF⟩

/-- What is known before a rule is known behind it, of the phrase `y b` it has taken and the
rest. -/
theorem keep {y : β → Phrase} (h : Parses P x Den (fun b w => w = y b) F E) :
    Parses P x Den (fun b w => w = y b) (fun b rest => P (y b ++ rest) ∧ F b rest) E := by
  refine h.map id (fun _ _ => id) (fun _ _ => id) ?_ ?_
  · rintro b w rest hv rfl hF
    exact ⟨hv, hF⟩
  · rintro b w rest hv rfl hF
    exact ⟨b, rfl, rfl, hF.2⟩

/-- Rules that run alike read alike: the contract speaks of `Rule.run` only. -/
theorem of_run_eq {y : Rule α} (h : Parses P x Den L F E)
    (hrun : ∀ {σ : Type} [Feed σ] (r : Reader σ), y.run r = x.run r) : Parses P y Den L F E :=
  ⟨h.inhabited, fun {_ _ r _ _} hr hv => hrun r ▸ h.outcome hr hv⟩

/-- A rule reads anything where it cannot stand, since no phrase has `P`. -/
theorem of_false (hviable : Viable Den L []) (hP : ∀ v, ¬ P v) : Parses P x Den L F E :=
  ⟨hviable, fun _ hv => absurd hv (hP _)⟩

/-- Building a value with `pure` takes no token. -/
protected theorem pure {a : α} (b : β) (hden : Den b a) (hF : ∀ v, P v → F b v) :
    Parses P (pure a) Den (fun b' w => b' = b ∧ w = []) F E := by
  refine ⟨⟨b, a, [], hden, rfl, rfl⟩, fun hr hv => ?_⟩
  refine .built (w := []) rfl hr (Nat.le_refl _) hden ⟨rfl, rfl⟩ (hF _ hv) ?_
  rintro v b' w' ⟨rest, -, -, hL, -⟩ -
  exact hL

variable {Den₁ : β₁ → α₁ → Prop} {y₁ : β₁ → Phrase} {F₁ : β₁ → Phrase → Prop}
  {E₁ : Phrase → Remark → Prop} {M : β₁ → β → Phrase → Prop}
  {E₂ : β₁ → Phrase → Remark → Prop} {x₁ : Rule α₁} {k : α₁ → Rule α}

/-- One rule, then another that depends on what the first builds.  What may follow the first, `F₁`,
is known to the second. -/
theorem bind' (h₁ : Parses P x₁ Den₁ (fun b w => w = y₁ b) F₁ E₁)
    (h₂ : ∀ b₁ a₁, Den₁ b₁ a₁ → Parses (F₁ b₁) (k a₁) Den (M b₁) F (E₂ b₁))
    (hside : ∀ b₁ b w rest, P (y₁ b₁ ++ (w ++ rest)) → M b₁ b w → F b rest → F₁ b₁ (w ++ rest))
    (hE₁ : ∀ w m, E₁ w m → E w m)
    (hE₂ : ∀ b₁ a₁, Den₁ b₁ a₁ → ∀ w m, E₂ b₁ w m → E (y₁ b₁ ++ w) m) :
    Parses P (x₁ >>= k) Den (Then y₁ M) F E := by
  have hnext : ∀ b₁ a₁, Den₁ b₁ a₁ → Viable Den (M b₁) [] := fun b₁ a₁ hden =>
    (h₂ b₁ a₁ hden).inhabited
  refine ⟨h₁.inhabited.left hnext, fun hr hv => ?_⟩
  rw [run_bind]
  refine (h₁.outcome hr hv).then hnext ?_ ?_ hside hE₁ hE₂
  · intro e r he
    rw [he]
  · intro b₁ a₁ r w rest ha _ hden _ hF₁ hholds _
    rw [ha]
    exact (h₂ b₁ a₁ hden).outcome hholds hF₁

/-- One rule, then another that there is nothing to remark about: `bind'` with `nowhere`. -/
theorem bind (h₁ : Parses P x₁ Den₁ (fun b w => w = y₁ b) F₁ E)
    (h₂ : ∀ b₁ a₁, Den₁ b₁ a₁ → Parses (F₁ b₁) (k a₁) Den (M b₁) F nowhere)
    (hside : ∀ b₁ b w rest, P (y₁ b₁ ++ (w ++ rest)) → M b₁ b w → F b rest → F₁ b₁ (w ++ rest)) :
    Parses P (x₁ >>= k) Den (Then y₁ M) F E :=
  h₁.bind' h₂ hside (fun _ _ => id) fun _ _ _ _ _ => False.elim

/-- One rule, then another, when anything may follow the first: `bind` without side conditions. -/
theorem andThen (h₁ : Parses P x₁ Den₁ (fun b w => w = y₁ b) (fun _ _ => True) E)
    (h₂ : ∀ b₁ a₁, Den₁ b₁ a₁ → Parses (fun _ => True) (k a₁) Den (M b₁) F nowhere) :
    Parses P (x₁ >>= k) Den (Then y₁ M) F E :=
  h₁.bind h₂ fun _ _ _ _ _ _ _ => trivial

/-- The places `E₂` of a rule that are behind another. -/
def Beyond (Den₁ : β₁ → α₁ → Prop) (y₁ : β₁ → Phrase) (E₂ : β₁ → Phrase → Remark → Prop)
    (w : Phrase) (m : Remark) : Prop :=
  ∃ b₁ w₂, w = y₁ b₁ ++ w₂ ∧ (∃ a₁, Den₁ b₁ a₁) ∧ E₂ b₁ w₂ m

/-- One rule that there is nothing to remark about, then another with the places `Beyond` the
first. -/
theorem bindRight (h₁ : Parses P x₁ Den₁ (fun b w => w = y₁ b) F₁ nowhere)
    (h₂ : ∀ b₁ a₁, Den₁ b₁ a₁ → Parses (F₁ b₁) (k a₁) Den (M b₁) F (E₂ b₁))
    (hside : ∀ b₁ b w rest, P (y₁ b₁ ++ (w ++ rest)) → M b₁ b w → F b rest → F₁ b₁ (w ++ rest)) :
    Parses P (x₁ >>= k) Den (Then y₁ M) F (Beyond Den₁ y₁ E₂) :=
  h₁.bind' h₂ hside (fun _ _ => False.elim) fun b₁ a₁ hden w _ hw => ⟨b₁, w, rfl, ⟨a₁, hden⟩, hw⟩

/-- What a rule has built is dropped by `discard`. -/
theorem discard_bind {k : Unit → Rule α} (h : Parses P (x₁ >>= fun _ => k ()) Den L F E) :
    Parses P (discard x₁ >>= k) Den L F E := by
  refine h.of_run_eq fun r => ?_
  have hdiscard : (discard x₁ : Rule Unit) = x₁ >>= fun _ => pure () := rfl
  rw [run_bind, hdiscard, run_bind, run_bind]
  rcases x₁.run r with ⟨_ | _, r'⟩ <;> rfl

/-- A value that is built by `pure` goes over to what comes after it. -/
theorem pure_bind {a₁ : α₁} (h : Parses P (k a₁) Den L F E) :
    Parses P (pure a₁ >>= k) Den L F E :=
  h.of_run_eq fun _ => rfl

/-- An event in the trail, put there by `note`, takes no token. -/
theorem note_bind {e : Event} {k : Unit → Rule α} (h : Parses P (k ()) Den L F E) :
    Parses P (note e >>= k) Den L F E :=
  ⟨h.inhabited, fun hr hv => h.outcome (hr.note e) hv⟩

/-- Where the last token ended, `lastEnd`, takes no token to say. -/
theorem lastEnd_bind {k : Nat → Rule α} (h : ∀ n, Parses P (k n) Den L F E) :
    Parses P (lastEnd >>= k) Den L F E :=
  ⟨(h 0).inhabited, fun hr hv => (h _).outcome hr hv⟩

/-- Nor does the span from a start to there, `spanFrom`. -/
theorem spanFrom_bind {start : Span} {k : Span → Rule α} (h : ∀ s, Parses P (k s) Den L F E) :
    Parses P (spanFrom start >>= k) Den L F E :=
  (lastEnd_bind fun n => h { start with stop := n }).of_run_eq fun _ => rfl

end Parses

/-! ## Looking ahead -/

/-- A phrase that starts with the symbol `s`. -/
def Starts (s : Symbol) (v : Phrase) : Prop :=
  v.head? = some s

/-- A phrase that does not start with a symbol of the kind `kind`. -/
def Clear (kind : Kind) (v : Phrase) : Prop :=
  ∀ s, Starts s v → s.kind ≠ kind

/-- A phrase starts with its first symbol, and with no other. -/
@[simp] theorem starts_cons {s t : Symbol} {v : Phrase} : Starts s (t :: v) ↔ t = s := by
  simp [Starts]

/-- The symbol that a phrase `Starts` with tells the kind of its first symbol. -/
theorem Starts.kind_eq {s t : Symbol} {v : Phrase} (h : Starts s (t :: v)) : t.kind = s.kind := by
  rw [starts_cons.1 h]

/-- A phrase starts with one symbol only, so `Starts` determines it. -/
theorem Starts.unique {s t : Symbol} {v : Phrase} (hs : Starts s v) (ht : Starts t v) : s = t :=
  Option.some.inj (hs.symm.trans ht)

/-- The symbol that a phrase starts with rules the other kinds out (`Clear`). -/
theorem Starts.clear {s : Symbol} {v : Phrase} {kind : Kind} (h : Starts s v)
    (hs : s.kind ≠ kind) : Clear kind v := by
  intro t ht
  rwa [← h.unique ht]

@[simp] theorem not_starts_nil {s : Symbol} : ¬ Starts s [] := by simp [Starts]

@[simp] theorem clear_cons {kind : Kind} {t : Symbol} {v : Phrase} :
    Clear kind (t :: v) ↔ t.kind ≠ kind := by
  simp [Clear]

@[simp] theorem clear_nil {kind : Kind} : Clear kind [] := by simp [Clear]

/-- The symbols that a token at the head of a reader may have: `genuine` ones, and the end of the
text. -/
def Stands (s : Symbol) : Prop :=
  s.genuine = true ∨ s.kind = .eof

namespace Parses

variable {k : Token → Rule α}

/-- Looking at the next token with `peek` tells how the phrase starts. -/
theorem peek_bind
    (h : ∀ t : Token, Stands t.symbol → Parses (fun v => P v ∧ Starts t.symbol v) (k t) Den L F E) :
    Parses P (peek >>= k) Den L F E := by
  have hinhabited := (h ⟨.eof, "", default⟩ (.inr rfl)).inhabited
  refine ⟨hinhabited, fun {σ _ r ts fault} hr hv => ?_⟩
  rw [run_bind, run]
  rcases Reader.peek_of_holds hr with ⟨e, r', rfl, hf, hpeek⟩ | ⟨t, ts', r', rfl, hpeek, -, hr', hn⟩
  · -- no token is left, and every phrase starts with none
    rw [hpeek]
    exact .starved hf hinhabited
  · rw [hpeek]
    have hout := (h t (Reader.genuine_or_eof_of_holds hr t (by simp))).outcome hr' ⟨hv, rfl⟩
    refine hout.weaken hn ?_
    intro v hv hagree
    obtain ⟨u, rfl⟩ := hagree
    exact ⟨hv, rfl⟩

/-- A rule that fails with `fail` reads a language of which no phrase can stand there. -/
theorem fail {expected : List Expected} (hviable : Viable Den L [])
    (hoffers : Offers Den L E [] expected)
    (hnone : ∀ b w rest, P (w ++ rest) → L b w → F b rest → False) :
    Parses P (fail expected) Den L F E := by
  refine ⟨hviable, fun {σ _ r ts fault} hr hv => ?_⟩
  rw [run]
  rcases Reader.peek_of_holds hr with ⟨e, r', rfl, hf, hpeek⟩ | ⟨t, ts', r', rfl, hpeek, -, hr', hn⟩
  · rw [hpeek]
    exact .starved hf hviable
  · rw [hpeek]
    refine .refused (w := []) rfl hviable ?_ hoffers
    rintro v b w ⟨rest, rfl, hP, hL, hF⟩ -
    exact hnone b w rest hP hL hF

/-- Taking a token that has been looked at, with `advance`. -/
theorem advance {s : Symbol} (hs : s.genuine = true) (hP : ∀ v, P v → Starts s v) :
    Parses P advance (fun (_ : Unit) t => t.symbol = s) (fun _ w => w = [s])
      (fun _ rest => P (s :: rest)) E := by
  refine ⟨⟨(), ⟨s.kind, s.text, default⟩, [s], rfl, rfl⟩, fun {σ _ r ts fault} hr hv => ?_⟩
  rw [run]
  cases ts with
  | nil => exact absurd (hP _ hv) not_starts_nil
  | cons t ts =>
    obtain rfl : t.symbol = s := starts_cons.1 (hP _ hv)
    obtain ⟨r', hrun, hr', hn⟩ := Reader.advance_of_holds hr hs
    rw [hrun]
    refine .built (b := ()) (w := [t]) rfl hr' hn rfl rfl hv ?_
    rintro v b' w' ⟨rest, -, -, rfl, -⟩ -
    exact ⟨rfl, rfl⟩

/-- What is left of a rule once the next two tokens are known: it reads on, and some derivation
starts in the way that it was told apart by; or no derivation does and it fails, at the second token
or at the first.  It is how the contract goes on behind `peekSecond`. -/
inductive Second (P : Phrase → Prop) (Den : β → α → Prop) (L F : β → Phrase → Prop)
    (E : Phrase → Remark → Prop) (s t : Symbol) : Rule α → Prop where
  | reads {x : Rule α} (Q : Symbol → Prop) (hQ : Q t)
      (h : Parses (fun v => P v ∧ ∃ t', [s, t'] <+: v ∧ Q t') x Den L F E)
      (hsome : ∃ v b w t', Reads P L F v b w ∧ [s, t'] <+: v ∧ Q t') : Second P Den L F E s t x
  | fails {expected : List Expected} (hoffers : Offers Den L E [s] expected)
      (hnone : ∀ v b w, Reads P L F v b w → ¬ [s, t] <+: v) :
      Second P Den L F E s t (discard Rule.advance >>= fun _ => Rule.fail expected)
  | late {expected : List Expected} (hedge : E [] (.late s t))
      (hoffers : Offers Den L E [] expected)
      (hnone : ∀ v b w, Reads P L F v b w → ¬ [s, t] <+: v) :
      Second P Den L F E s t (Rule.fail expected)

/-- A beginning of two tokens or more starts with the first two, `x` and `y`. -/
theorem pair_prefix {x y : Token} (ts : List Token) {p : Phrase}
    (hp : p <+: symbols (x :: y :: ts)) (hlen : 2 ≤ p.length) : [x.symbol, y.symbol] <+: p :=
  List.prefix_of_prefix_length_le ⟨symbols ts, rfl⟩ hp hlen

/-- What holds of the phrases whose second token has `Q` holds of all, if the tokens at hand go on
so and some derivation does. -/
theorem outcome_of_second {σ : Type} [Feed σ] {x y : Token} {ts : List Token}
    {fault : Option LexError} {n : Nat} {o : Except Error α × Reader σ} {Q : Symbol → Prop}
    (hnil : ∀ b, ¬ L b []) (hQ : Q y.symbol)
    (hsome : ∃ v b w t, Reads P L F v b w ∧ [x.symbol, t] <+: v ∧ Q t)
    (h : Outcome (fun v => P v ∧ ∃ t, [x.symbol, t] <+: v ∧ Q t) Den L F E (x :: y :: ts) fault n
      o) : Outcome P Den L F E (x :: y :: ts) fault n o := by
  have hreads : ∀ {v b w t}, Reads P L F v b w → [x.symbol, t] <+: v → Q t →
      Reads (fun v => P v ∧ ∃ t, [x.symbol, t] <+: v ∧ Q t) L F v b w := by
    rintro v b w t ⟨rest, rfl, hv, hL, hF⟩ hpair hQt
    exact ⟨rest, rfl, ⟨hv, t, hpair, hQt⟩, hL, hF⟩
  cases h with
  | @built a r b w rest split holds size denotes derives follows only =>
    refine .built split holds size denotes derives follows ?_
    intro v b' w' hread hagree
    -- no derivation is empty, so the token behind what was taken is the second or a later one
    have hpair : [x.symbol, y.symbol] <+: symbols w ++ (symbols rest).take 1 := by
      have hw : w ≠ [] := by
        rintro rfl
        exact hnil b derives
      have hlen := congrArg List.length split
      have hpos := List.length_pos_iff.2 hw
      apply pair_prefix ts
      · rw [split, symbols_append, List.prefix_append_right_inj]
        exact List.take_prefix 1 _
      · simp [symbols] at hlen ⊢
        omega
    exact only v b' w' (hreads hread (hpair.trans hagree) hQ) hagree
  | @refused r w rest t expected split viable none offers =>
    refine .refused split viable ?_ offers
    intro v b' w' hread hagree
    cases w with
    | nil =>
      -- the first token cannot be the one refused: some derivation starts with it
      obtain ⟨rfl, -⟩ : x = t ∧ y :: ts = rest := by simpa using split
      obtain ⟨v₀, b₀, w₀, t₀, hr₀, hv₀, hQ₀⟩ := hsome
      have hone : [x.symbol] <+: v₀ := (List.prefix_append [x.symbol] [t₀]).trans hv₀
      exact none v₀ b₀ w₀ (hreads hr₀ hv₀ hQ₀) hone
    | cons u w =>
      have hpair : [x.symbol, y.symbol] <+: symbols (u :: w) ++ [t.symbol] := by
        apply pair_prefix ts
        · rw [split, symbols_append, List.prefix_append_right_inj]
          exact ⟨symbols rest, rfl⟩
        · simp
      exact none v b' w' (hreads hread (hpair.trans hagree) hQ) hagree
  | @late r w rest t t' expected split viable edge none offers =>
    refine .late split viable edge ?_ offers
    intro v b' w' hread hagree
    have hpair : [x.symbol, y.symbol] <+: symbols w ++ [t.symbol, t'.symbol] := by
      apply pair_prefix ts
      · rw [split, symbols_append, List.prefix_append_right_inj]
        exact ⟨symbols rest, rfl⟩
      · simp
    exact none v b' w' (hreads hread (hpair.trans hagree) hQ) hagree
  | starved faulty viable => exact .starved faulty viable

/-- The rest of a rule reads the language, once the next two tokens have been looked at: the three
cases of `Second`. -/
theorem Second.outcome {σ : Type} [Feed σ] {r : Reader σ} {x y : Token} {ts : List Token}
    {fault : Option LexError} {z : Rule α} (h : Second P Den L F E x.symbol y.symbol z)
    (hx : x.symbol.genuine = true) (hnil : ∀ b, ¬ L b []) (hviable : Viable Den L [x.symbol])
    (hr : r.Holds (x :: y :: ts) fault) (hP : P (symbols (x :: y :: ts))) :
    Outcome P Den L F E (x :: y :: ts) fault r.size (z.run r) := by
  cases h with
  | reads Q hQ h hsome =>
    have hout := h.outcome hr ⟨hP, y.symbol, ⟨symbols ts, rfl⟩, hQ⟩
    exact outcome_of_second hnil hQ hsome hout
  | fails hoffers hnone =>
    -- the first token is taken, and then the second is refused
    obtain ⟨r₁, hadvance, hr₁, -⟩ := Reader.advance_of_holds hr hx
    rcases Reader.peek_of_holds hr₁ with ⟨e, r', hfalse, -⟩ | ⟨t, ts', r', hts, hpeek, -⟩
    · simp at hfalse
    obtain ⟨rfl, rfl⟩ : y = t ∧ ts = ts' := by simpa using hts
    have hrun : ∀ exp, (discard Rule.advance >>= fun _ => (Rule.fail exp : Rule α)).run r
        = (.error (.parse (.ofToken y exp)), r') := by
      intro exp
      have hdiscard : (discard Rule.advance : Rule Unit) = Rule.advance >>= fun _ => pure () := rfl
      rw [run_bind, hdiscard, run_bind, run, hadvance]
      simp only [run_pure, run, hpeek]
    rw [hrun]
    exact .refused (w := [x]) rfl hviable hnone hoffers
  | late hedge hoffers hnone =>
    rw [run]
    rcases Reader.peek_of_holds hr with ⟨e, r', hfalse, -⟩ | ⟨t, ts', r', hts, hpeek, -⟩
    · simp at hfalse
    obtain ⟨rfl, -⟩ : x = t ∧ y :: ts = ts' := by simpa using hts
    rw [hpeek]
    exact .late (w := []) rfl (hviable.of_append (u := [])) hedge hnone hoffers

/-- Looking at the token after the next with `peekSecond` tells how the phrase goes on. -/
theorem peekSecond_bind {s : Symbol} (hs : s.genuine = true) (hP : ∀ v, P v → Starts s v)
    (hnil : ∀ b, ¬ L b []) (hviable : Viable Den L [s])
    (h : ∀ t : Token, Stands t.symbol → Second P Den L F E s t.symbol (k t)) :
    Parses P (peekSecond >>= k) Den L F E := by
  refine ⟨hviable.of_append (u := []), fun {σ _ r ts fault} hr hv => ?_⟩
  obtain ⟨x, ts, rfl⟩ : ∃ x ts', ts = x :: ts' := by
    cases ts with
    | nil => exact absurd (hP _ hv) not_starts_nil
    | cons x ts => exact ⟨x, ts, rfl⟩
  obtain rfl : x.symbol = s := starts_cons.1 (hP _ hv)
  rw [run_bind, run]
  rcases Reader.peekSecond_of_holds hr hs with
    ⟨e, r', rfl, hf, hpeek⟩ | ⟨t, rest, r', rfl, hpeek, hr', hn⟩
  · rw [hpeek]
    exact .starved hf hviable
  · rw [hpeek]
    have ht : Stands t.symbol := Reader.genuine_or_eof_of_holds hr t (by simp)
    exact ((h t ht).outcome hs hnil hviable hr' hv).weaken hn fun v hv _ => hv

end Parses

end Gxl.Rule
