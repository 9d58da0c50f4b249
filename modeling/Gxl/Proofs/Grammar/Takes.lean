import Gxl.Proofs.Document.Stretches
import Gxl.Proofs.Grammar.Eager

/-!
# The tokens that a rule takes

A rule that builds a piece of tree has taken the first of the tokens that its reader held, and what
it has built is made of these.

The start of a node is a token that was looked at before, maybe by another rule, and its end is that
of the last token taken when the span is made.  So the contract `Takes` follows the tokens that have
been taken since the node began: `u` before a rule runs, and those with the tokens of the rule
behind them once it is done.  A rule that is read as a whole has taken none before it, and its
contract holds behind any tokens (`Takes.bind`).
-/

namespace Gxl

/-- The place behind the tokens `u` that are taken from the place `n` on: the end of the last, or
`n` if there is none. -/
def endOf (n : Nat) (u : List Token) : Nat :=
  (u.getLast?.map (·.span.stop)).getD n

/-- Behind tokens in two parts stands what is behind the second, from behind the first. -/
theorem endOf_append (n : Nat) (u v : List Token) : endOf n (u ++ v) = endOf (endOf n u) v := by
  unfold endOf
  rw [List.getLast?_append]
  cases v.getLast? <;> simp

/-- A reader that has taken the tokens `u`, from the place `n` on, and holds others. -/
structure Reader.Between (r : Reader Cursor) (n : Nat) (u held : List Token)
    (fault : Option LexError) : Prop where
  holds : r.Holds held fault
  lastEnd : r.lastEnd = endOf n u

namespace Reader

variable {r r' : Reader Cursor} {n : Nat} {u v held : List Token} {fault : Option LexError}
  {t : Token}

/-- What is taken first may count as the place from which the rest is taken, by `endOf_append`. -/
theorem between_append : r.Between n (u ++ v) held fault ↔ r.Between (endOf n u) v held fault := by
  constructor
  · intro h
    exact ⟨h.holds, by rw [h.lastEnd, endOf_append]⟩
  · intro h
    exact ⟨h.holds, by rw [h.lastEnd, endOf_append]⟩

/-- The span from the first token taken to the last `Covers` all of them. -/
theorem Between.covers (h : r.Between n u held fault) (ht : u.head? = some t) :
    Span.Covers { t.span with stop := r.lastEnd } u := by
  obtain ⟨v, rfl⟩ := List.head?_eq_some_iff.1 ht
  have hlast : (t :: v).getLast? = some ((t :: v).getLast (List.cons_ne_nil t v)) :=
    List.getLast?_eq_some_getLast _
  refine ⟨t, rfl, _, hlast, ?_⟩
  rw [h.lastEnd, endOf, hlast]
  rfl

end Reader

namespace Rule

open Reader

variable {α β : Type} {u held rest : List Token} {x y : Rule α} {k : α → Rule β} {t : Token}

/-- Whenever a rule builds something on a reader that has taken `u` and holds `held`, it takes the
first of the tokens held, and `Q` is true of the tokens taken then, of those left, and of what is
built. -/
def Takes (u held : List Token) (x : Rule α) (Q : List Token → List Token → α → Prop) : Prop :=
  ∀ (r r' : Reader Cursor) (n : Nat) (fault : Option LexError) (a : α),
    r.Between n u held fault → x.run r = (.ok a, r') →
      ∃ w rest, held = w ++ rest ∧ r'.Between n (u ++ w) rest fault ∧ Q (u ++ w) rest a

namespace Takes

variable {P : List Token → List Token → α → Prop} {Q : List Token → List Token → β → Prop}

/-- Rules that run alike take alike. -/
theorem of_run_eq (h : Takes u held y P) (hrun : ∀ r : Reader Cursor, x.run r = y.run r) :
    Takes u held x P := by
  intro r r' n fault a hr hx
  exact h r r' n fault a hr (hrun r ▸ hx)

/-- What `pure` builds takes no token. -/
protected theorem pure {a : α} (h : P u held a) : Takes u held (pure a) P := by
  intro r r' n fault b hr hrun
  obtain ⟨rfl, rfl⟩ : a = b ∧ r = r' := by simpa using hrun
  refine ⟨[], held, rfl, ?_, ?_⟩
  · rwa [List.append_nil]
  · rwa [List.append_nil]

/-- A rule that fails builds nothing, so it `Takes` whatever is said of it. -/
protected theorem fail {expected : List Expected} : Takes u held (fail expected) P := by
  intro r r' n fault a hr hrun
  rw [run] at hrun
  split at hrun <;> simp at hrun

/-- One rule and then another, both of which know what has been taken since the node began. -/
theorem seq (hx : Takes u held x P)
    (hk : ∀ a w rest, held = w ++ rest → P (u ++ w) rest a → Takes (u ++ w) rest (k a) Q) :
    Takes u held (x >>= k) Q := by
  intro r r' n fault b hr hrun
  rw [run_bind] at hrun
  rcases hfirst : x.run r with ⟨e | a, r₁⟩ <;> rw [hfirst] at hrun
  · simp at hrun
  · obtain ⟨w, rest, rfl, hr₁, hP⟩ := hx r r₁ n fault a hr hfirst
    obtain ⟨w', rest', rfl, hr', hQ⟩ := hk a w rest rfl hP r₁ r' n fault b hr₁ hrun
    rw [List.append_assoc] at hr' hQ
    exact ⟨w ++ w', rest', by rw [List.append_assoc], hr', hQ⟩

/-- What is said of a rule may be weakened. -/
theorem imp {P' : List Token → List Token → α → Prop} (hx : Takes u held x P)
    (hP : ∀ w rest a, P w rest a → P' w rest a) : Takes u held x P' := by
  intro r r' n fault a hr hrun
  obtain ⟨w, rest, hheld, hr', h⟩ := hx r r' n fault a hr hrun
  exact ⟨w, rest, hheld, hr', hP _ _ _ h⟩

/-- What a rule takes as a whole it takes behind any tokens `u`. -/
theorem behind (hx : Takes [] held x P) (u : List Token) :
    Takes u held x fun w rest a => ∃ v, w = u ++ v ∧ P v rest a := by
  intro r r' n fault a hr hrun
  rw [← List.append_nil u] at hr
  obtain ⟨w, rest, hheld, hr', hP⟩ := hx r r' (endOf n u) fault a (between_append.1 hr) hrun
  exact ⟨w, rest, hheld, between_append.2 hr', w, rfl, hP⟩

/-- A rule that is read as a whole, and what follows it: `seq` with `behind`. -/
protected theorem bind (hx : Takes [] held x P)
    (hk : ∀ a w rest, held = w ++ rest → P w rest a → Takes (u ++ w) rest (k a) Q) :
    Takes u held (x >>= k) Q := by
  refine (hx.behind u).seq fun a w rest hheld ⟨v, hv, hP⟩ => ?_
  obtain rfl := List.append_cancel_left hv
  exact hk a w rest hheld hP

/-- A value that is built goes over to what comes after it. -/
theorem pure_bind {a : α} (h : Takes u held (k a) Q) : Takes u held (Pure.pure a >>= k) Q :=
  h.of_run_eq fun _ => rfl

/-! ## Looking at tokens -/

/-- Looking at the next token tells the first of the tokens held. -/
theorem peek_bind {k : Token → Rule β}
    (h : ∀ t rest, held = t :: rest → Takes u held (k t) Q) : Takes u held (peek >>= k) Q := by
  intro r r' n fault b hr hrun
  rw [run_bind, run] at hrun
  cases held with
  | nil =>
    obtain ⟨e, r₁, -, hpeek⟩ := peek_of_nil hr.holds
    rw [hpeek] at hrun
    simp at hrun
  | cons t rest =>
    obtain ⟨r₁, hpeek, hholds, -⟩ := peek_of_cons hr.holds
    have hlast := r.lastEnd_peek
    rw [hpeek] at hrun hlast
    exact h t rest rfl r₁ r' n fault b ⟨hholds, hlast.trans hr.lastEnd⟩ hrun

/-- The token after the next is looked at only where the text has not ended; nothing need be known
of it. -/
theorem peekSecond_bind {k : Token → Rule β} (ht : t.kind ≠ .eof)
    (h : ∀ x, Takes u (t :: rest) (k x) Q) : Takes u (t :: rest) (peekSecond >>= k) Q := by
  intro r r' n fault b hr hrun
  rw [run_bind, run] at hrun
  have hgenuine := (genuine_or_eof_of_holds hr.holds t (by simp)).resolve_right ht
  rcases peekSecond_of_holds hr.holds hgenuine with
    ⟨e, r₁, -, -, hpeek⟩ | ⟨x, ts, r₁, -, hpeek, hholds, -⟩
  · rw [hpeek] at hrun
    simp at hrun
  · have hlast := r.lastEnd_peekSecond
    rw [hpeek] at hrun hlast
    exact h x r₁ r' n fault b ⟨hholds, hlast.trans hr.lastEnd⟩ hrun

/-- A `note` takes no token. -/
theorem note_bind {e : Event} {k : Unit → Rule β} (h : Takes u held (k ()) Q) :
    Takes u held (note e >>= k) Q := by
  intro r r' n fault b hr hrun
  exact h (r.note e) r' n fault b ⟨hr.holds.note e, hr.lastEnd⟩ hrun

/-- A test `p` of the next token. -/
theorem test_ite {p : Token → Bool}
    (hx : ∀ t rest, held = t :: rest → p t = true → Takes u held x P) (hy : Takes u held y P) :
    Takes u held ((peek >>= fun t => Pure.pure (p t)) >>= fun c => if c = true then x else y)
      P := by
  have htest : Takes u held (peek >>= fun t => if p t = true then x else y) P := by
    refine peek_bind fun t rest hheld => ?_
    split
    · rename_i hp
      exact hx t rest hheld hp
    · exact hy
  refine htest.of_run_eq fun r => ?_
  rw [run_bind, run_bind, run_bind]
  rcases peek.run r with ⟨e | t, r₁⟩ <;> rfl

/-- A choice by the kind of the next token, which is known then. -/
theorem atKind_ite {kind : Kind}
    (hx : ∀ t rest, held = t :: rest → t.kind = kind → Takes u held x P)
    (hy : Takes u held y P) :
    Takes u held (atKind kind >>= fun c => if c = true then x else y) P :=
  test_ite (fun t rest hheld ht => hx t rest hheld (beq_iff_eq.1 ht)) hy

/-- A choice by whether the next token is a word. -/
theorem atWord_ite {word : String}
    (hx : ∀ t rest, held = t :: rest → t.kind = .ident → Takes u held x P)
    (hy : Takes u held y P) :
    Takes u held (atWord word >>= fun c => if c = true then x else y) P := by
  refine test_ite (fun t rest hheld ht => hx t rest hheld ?_) hy
  exact beq_iff_eq.1 (Bool.and_eq_true_iff.1 ht).1

/-! ## Taking tokens -/

/-- What `advance` takes is the first of the tokens held, unless that is the end of the text. -/
protected theorem advance (ht : t.kind ≠ .eof) :
    Takes [] (t :: rest) advance fun w rest' x =>
      w = [t] ∧ rest' = rest ∧ x = t ∧ t.symbol.genuine = true := by
  intro r r' n fault x hr hrun
  have hgenuine := (genuine_or_eof_of_holds hr.holds t (by simp)).resolve_right ht
  obtain ⟨r₁, hadvance, hholds, -⟩ := advance_of_holds hr.holds hgenuine
  obtain ⟨rfl, rfl⟩ : t = x ∧ r₁ = r' := by simpa [run, hadvance] using hrun
  refine ⟨[t], rest, rfl, ⟨hholds, ?_⟩, rfl, rfl, rfl, hgenuine⟩
  rw [lastEnd_of_advance hadvance]
  rfl

/-- Behind `advance` the token has been taken. -/
theorem advance_bind {k : Token → Rule β} (ht : t.kind ≠ .eof)
    (h : t.symbol.genuine = true → Takes (u ++ [t]) rest (k t) Q) :
    Takes u (t :: rest) (advance >>= k) Q := by
  refine (Takes.advance ht).bind fun x w rest' _ hx => ?_
  obtain ⟨rfl, rfl, rfl, hgenuine⟩ := hx
  exact h hgenuine

/-- A token that may be missing: it is taken, or nothing is. -/
theorem eat_bind {kind : Kind} {k : Option Token → Rule β} (hkind : kind ≠ .eof)
    (hsome : ∀ t rest, held = t :: rest → t.kind = kind → t.symbol.genuine = true →
      Takes (u ++ [t]) rest (k (some t)) Q)
    (hnone : Takes u held (k none) Q) : Takes u held (eat kind >>= k) Q := by
  refine of_run_eq (peek_bind fun t rest hheld => ?_) (Parses.run_eat_bind kind k)
  subst hheld
  split
  · rename_i ht
    exact advance_bind (ht ▸ hkind) (hsome t rest rfl ht)
  · exact hnone

/-- A token of a kind that has to be there is taken. -/
theorem expect_bind {kind : Kind} {k : Token → Rule β} (hkind : kind ≠ .eof)
    (h : ∀ t rest, held = t :: rest → t.kind = kind → t.symbol.genuine = true →
      Takes (u ++ [t]) rest (k t) Q) : Takes u held (expect kind >>= k) Q := by
  have hexpect : Takes [] held (expect kind) fun w _ t =>
      w = [t] ∧ t.kind = kind ∧ t.symbol.genuine = true :=
    .eat_bind hkind (fun _ _ _ ht hgenuine => .pure ⟨rfl, ht, hgenuine⟩) .fail
  refine hexpect.bind fun t w rest hheld ht => ?_
  obtain ⟨rfl, hkind, hgenuine⟩ := ht
  exact h t rest hheld hkind hgenuine

/-- A word that has to be there is taken. -/
theorem expectWord_bind {word : String} {k : Token → Rule β}
    (h : ∀ t rest, held = t :: rest → t.kind = .ident → Takes (u ++ [t]) rest (k t) Q) :
    Takes u held (expectWord word >>= k) Q := by
  have hexpect : Takes [] held (expectWord word) fun w _ t => w = [t] ∧ t.kind = .ident := by
    refine .atWord_ite (fun t rest hheld ht => ?_) .fail
    subst hheld
    exact (Takes.advance (by simp [ht])).imp fun _ _ _ ⟨hw, _, hx, _⟩ => ⟨hx ▸ hw, hx ▸ ht⟩
  refine hexpect.bind fun t w rest hheld ⟨hw, ht⟩ => ?_
  subst hw
  exact h t rest hheld ht

/-- A rule whose result is discarded by `discard`. -/
theorem discard_bind {k : Unit → Rule β} (h : Takes u held (x >>= fun _ => k ()) Q) :
    Takes u held (discard x >>= k) Q := by
  refine h.of_run_eq fun r => ?_
  have hdiscard : (discard x : Rule Unit) = x >>= fun _ => Pure.pure () := rfl
  rw [run_bind, hdiscard, run_bind, run_bind]
  rcases x.run r with ⟨_ | _, r₁⟩ <;> rfl

/-- A sign, by its `kind`. -/
theorem kind_bind {kind : Kind} {k : Unit → Rule β} (hkind : kind ≠ .eof)
    (h : ∀ t rest, held = t :: rest → t.kind = kind → Takes (u ++ [t]) rest (k ()) Q) :
    Takes u held (discard (expect kind) >>= k) Q :=
  discard_bind (expect_bind hkind fun t rest hheld ht _ => h t rest hheld ht)

/-- A sign, which is no node: `kind_bind` where the kind does not matter. -/
theorem sign_bind {kind : Kind} {k : Unit → Rule β} (hkind : kind ≠ .eof)
    (h : ∀ t rest, held = t :: rest → Takes (u ++ [t]) rest (k ()) Q) :
    Takes u held (discard (expect kind) >>= k) Q :=
  kind_bind hkind fun t rest hheld _ => h t rest hheld

/-- A word with a meaning, which is no node: `expectWord_bind` with the token dropped. -/
theorem word_bind {word : String} {k : Unit → Rule β}
    (h : ∀ t rest, held = t :: rest → Takes (u ++ [t]) rest (k ()) Q) :
    Takes u held (discard (expectWord word) >>= k) Q :=
  discard_bind (expectWord_bind fun t rest hheld _ => h t rest hheld)

/-! ## Spans -/

/-- The span of a node that starts with the first token taken `Covers` the tokens taken so far. -/
theorem spanFrom_bind {k : Span → Rule β} (ht : u.head? = some t)
    (h : ∀ s, s.Covers u → Takes u held (k s) Q) : Takes u held (spanFrom t.span >>= k) Q := by
  intro r r' n fault b hr hrun
  exact h _ (hr.covers ht) r r' n fault b hr hrun

/-- The semicolon that may follow a closing brace is taken by `closing`, and not covered by the
span. -/
protected theorem closing (ht : u.head? = some t) :
    Takes u held (closing t.span) fun w _ s =>
      s.Covers u ∧ (w = u ∨ ∃ z, w = u ++ [z] ∧ z.kind = .semicolon) := by
  refine .spanFrom_bind ht fun s hs => .discard_bind (.eat_bind nofun ?_ ?_)
  · exact fun z _ _ hz _ => .pure ⟨hs, .inr ⟨z, rfl, hz⟩⟩
  · exact .pure ⟨hs, .inl rfl⟩

/-- The same, where it does not matter whether there is one. -/
theorem closing_bind {k : Span → Rule β} (ht : u.head? = some t)
    (h : ∀ s v rest, s.Covers u → Takes (u ++ v) rest (k s) Q) :
    Takes u held (closing t.span >>= k) Q :=
  (Takes.closing ht).seq fun s v rest _ hs => h s v rest hs.1

/-! ## Lists -/

variable {forest : α → Forest}

/-- Repeating a step, which takes a token each time (`Steady`), up to where it declines. -/
protected theorem many {step : Rule (Option α)} {R : List Token → α → Prop}
    {E : List Token → Prop} (hsteady : (many step).Steady)
    (hstep : ∀ held, Takes [] held step fun w rest o =>
      (∀ a, o = some a → R w a) ∧ (o = none → w = [] ∧ E rest)) :
    Takes [] held (many step) fun w rest as => EachFrom R w as ∧ E rest := by
  intro r r' n fault as hr hrun
  rw [run] at hrun
  induction hsize : r.size using Nat.strongRecOn generalizing r held n as with
  | ind m ih =>
    subst hsize
    rw [loop] at hrun
    rcases hfirst : step.run r with ⟨e | _ | a, r₁⟩ <;> simp only [hfirst] at hrun
    · simp at hrun
    · obtain ⟨rfl, rfl⟩ : [] = as ∧ r₁ = r' := by simpa using hrun
      obtain ⟨w, rest, hheld, hr₁, -, hend⟩ := hstep held r r₁ n fault none hr hfirst
      obtain ⟨hw, hrest⟩ := hend rfl
      obtain rfl : w = [] := hw
      exact ⟨[], rest, hheld, hr₁, .nil, hrest⟩
    · have hlt := hsteady.2 Cursor r r₁ held fault a hr.holds hfirst
      rw [if_pos hlt] at hrun
      obtain ⟨w, rest, rfl, hr₁, hsome, -⟩ := hstep held r r₁ n fault (some a) hr hfirst
      rcases hloop : loop step.run r₁ with ⟨e | as', r₂⟩ <;> rw [hloop] at hrun
      · simp at hrun
      · obtain ⟨rfl, rfl⟩ : a :: as' = as ∧ r₂ = r' := by simpa using hrun
        rw [List.nil_append, ← List.append_nil w] at hr₁
        obtain ⟨w', rest', rfl, hr₂, heach, hend⟩ :=
          ih r₁.size hlt r₁ (endOf n w) as' (between_append.1 hr₁) hloop rfl
        have hr' : r₂.Between n (w ++ w') rest' fault := between_append.2 hr₂
        have hcons : EachFrom R (w ++ w') (a :: as') := .cons (hsome a rfl) heach
        exact ⟨w ++ w', rest', by rw [List.append_assoc], hr', hcons, hend⟩

/-- Items behind a sign each, read side by side with the signs left out. -/
theorem eachAfter {sign : Kind} {item : Rule α} (hsign : sign ≠ .eof) (hsteady : item.Steady)
    (hitem : ∀ held, Takes [] held item fun w _ a => (forest a).ReadFrom w) :
    Takes [] held (eachAfter sign item) fun w _ as => (Forest.ofList forest as).ReadFrom w := by
  refine (Takes.many (E := fun _ => True) (steady_eachAfter hsign hsteady) fun held => ?_).imp
    fun _ _ _ h => h.1.readFrom
  refine .eat_bind hsign (fun t rest _ _ _ => ?_) (.pure ⟨nofun, fun _ => ⟨rfl, trivial⟩⟩)
  refine (hitem rest).bind fun a w rest' _ ha => .pure ⟨?_, nofun⟩
  rintro _ ⟨⟩
  exact (Forest.ReadFrom.empty [t]).append ha

/-- Items with commas between, read side by side with the commas left out. -/
theorem commaList {item : Rule α} (hsteady : item.Steady)
    (hitem : ∀ held, Takes [] held item fun w _ a => (forest a).ReadFrom w) :
    Takes [] held (commaList item) fun w _ as => (Forest.ofList forest as).ReadFrom w :=
  (hitem held).bind fun _ _ _ _ ha =>
    (eachAfter (by decide) hsteady hitem).bind fun _ _ _ _ has => .pure (ha.append has)

/-- Entries up to a token of the kind `kind`, read one behind the other. -/
theorem entries {kind : Kind} {item : Rule α} {R : List Token → α → Prop}
    (hsteady : (Rule.many (atKind kind >>= fun c => if c = true then Pure.pure none else
      item >>= fun a => Pure.pure (some a))).Steady)
    (hitem : ∀ held, Takes [] held item fun w _ a => R w a) :
    Takes [] held
      (Rule.many (atKind kind >>= fun c => if c = true then Pure.pure none else
        item >>= fun a => Pure.pure (some a)))
      fun w rest as => EachFrom R w as ∧ ∃ t ts, rest = t :: ts ∧ t.kind = kind := by
  refine Takes.many hsteady fun held => .atKind_ite (fun t rest hheld ht => ?_) ?_
  · exact .pure ⟨nofun, fun _ => ⟨rfl, t, rest, hheld, ht⟩⟩
  · refine (hitem held).bind fun a w rest _ ha => .pure ⟨?_, nofun⟩
    rintro _ ⟨⟩
    exact ha

/-- Entries between braces, read one behind the other (`EachFrom`). -/
theorem entriesBetween {item : Rule α} {R : List Token → α → Prop} (hsteady : (block item).Steady)
    (hitem : ∀ held, Takes [] held item fun w _ a => R w a) :
    Takes [] held (block item) fun w _ as => ∃ a v z, w = a :: (v ++ [z]) ∧
      a.kind = .braceOpen ∧ EachFrom R v as ∧ z.kind = .braceClose := by
  refine .discard_bind (.expect_bind nofun fun a rest _ ha _ => ?_)
  refine (entries (hsteady.2 ()).1 hitem).bind fun as v rest' _ has => ?_
  obtain ⟨has, z, ts, rfl, hz⟩ := has
  exact .discard_bind (.advance_bind (by simp [hz]) fun _ => .pure ⟨a, v, z, rfl, ha, has, hz⟩)

/-- Entries between braces, read side by side with the braces left out. -/
theorem block {item : Rule α} (hsteady : (block item).Steady)
    (hitem : ∀ held, Takes [] held item fun w _ a => (forest a).ReadFrom w) :
    Takes [] held (block item) fun w _ as => (Forest.ofList forest as).ReadFrom w := by
  refine (entriesBetween hsteady hitem).imp ?_
  rintro _ _ as ⟨a, v, z, rfl, -, has, -⟩
  exact ((Forest.ReadFrom.empty [a]).append has.readFrom).before [z]

/-- A construct that ends with entries between braces (`Rule.block`), once what stands before these
is read as the forest `f`. -/
theorem body {item : Rule α} {build : List α → Span → β} {whole : β → Forest} {f : Forest}
    (hwhole : ∀ as s, whole (build as s) = .node s (f ++ .ofList forest as)) (hf : f.ReadFrom u)
    (ht : u.head? = some t) (hsteady : (Rule.block item).Steady)
    (hitem : ∀ held, Takes [] held item fun w _ a => (forest a).ReadFrom w) :
    Takes u held (Rule.block item >>= fun as => closing t.span >>= fun s => Pure.pure (build as s))
      fun w _ b => (whole b).ReadFrom w := by
  refine (block hsteady hitem).bind fun as w _ _ has => .closing_bind ?_ fun s v _ hs => .pure ?_
  · exact List.mem_head?_append_of_mem_head? ht
  · rw [hwhole]
    exact ((hf.append has).node hs).before v

end Takes

end Rule

end Gxl
