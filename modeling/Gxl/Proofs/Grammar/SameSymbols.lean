import Gxl.Proofs.Document.Shape
import Gxl.Proofs.Grammar.Eager

/-!
# Texts with the same symbols

What is read, or what is reported, depends on the symbols of a text and not on where they stand.
The grammar is run on two texts at once, whose tokens have the same symbols one by one.  Two rules
are in step if they take the same number of tokens on both sides and then build values that differ
at most in their spans, or if both fail, for the same reasons and at tokens at the same place in
their texts (`Rule.InStep`).

Every rule is in step with itself, whatever spans it is given: places are kept in the tree and in
the trail of events, and no rule decides anything by them.
-/

namespace Gxl

/-! ## Values that differ only in where they stand -/

instance : Placed Token where
  mapSpans f t := { t with span := f t.span }

instance : Placed Span where
  mapSpans f s := f s

instance : Placed Bool where
  mapSpans _ b := b

instance : Placed Unit where
  mapSpans _ u := u

/-- Tokens with the same symbol differ at most in their spans, so `erase` makes them equal. -/
theorem erase_eq_of_symbol_eq {t u : Token} (h : t.symbol = u.symbol) : erase t = erase u := by
  obtain ⟨hkind, htext⟩ := Symbol.mk.inj h
  show (⟨t.kind, t.text, default⟩ : Token) = ⟨u.kind, u.text, default⟩
  rw [hkind, htext]

/-- Tokens with the same symbol, at the same place of the lists `ts` and `us`. -/
def Opposite (ts us : List Token) (t u : Token) : Prop :=
  t.symbol = u.symbol ∧ ∃ i : Nat, ts[i]? = some t ∧ us[i]? = some u

/-- Tokens that are opposite are of the same kind. -/
theorem Opposite.kind_eq {ts us : List Token} {t u : Token} (h : Opposite ts us t u) :
    t.kind = u.kind :=
  congrArg Symbol.kind h.1

/-- The tokens of lists with the same symbols are `Opposite` one by one. -/
theorem forall₂_opposite {ts us : List Token} (h : symbols ts = symbols us) :
    List.Forall₂ (Opposite ts us) ts us := by
  have hlength : ts.length = us.length := by
    simpa [symbols] using congrArg List.length h
  refine List.forall₂_iff_get.2 ⟨hlength, fun i hi hi' => ⟨?_, i, by simp, by simp⟩⟩
  have hsymbol : (symbols ts)[i]? = (symbols us)[i]? := by rw [h]
  simpa [symbols, hi, hi'] using hsymbol

/-! ## Readers in step -/

/-- Two readers with tokens before them that are `Opposite` one by one. -/
structure Reader.InStep (ts us : List Token) (r s : Reader Queue) : Prop where
  tokens : List.Forall₂ (Opposite ts us) r.feed.tokens s.feed.tokens
  eof : Opposite ts us r.feed.eof s.feed.eof
  ahead : List.Forall₂ (Opposite ts us) r.ahead s.ahead

/-- Two looks at a token that show tokens that are `Opposite` and leave the readers in step. -/
inductive Reader.LookInStep (ts us : List Token) :
    Except Error Token × Reader Queue → Except Error Token × Reader Queue → Prop where
  | token {t u : Token} {r s : Reader Queue} (opposite : Opposite ts us t u)
      (step : Reader.InStep ts us r s) : LookInStep ts us (.ok t, r) (.ok u, s)

namespace Reader

variable {ts us : List Token} {r s : Reader Queue}

/-- Readers in step have as many tokens before them: they are of the same `size`. -/
theorem InStep.size_eq (h : InStep ts us r s) : r.size = s.size := by
  have hcount : ∀ {as bs : List Token}, List.Forall₂ (Opposite ts us) as bs →
      as.countP (·.kind != .eof) = bs.countP (·.kind != .eof) := by
    intro as bs has
    induction has with
    | nil => rfl
    | cons hab _ ih => rw [List.countP_cons, List.countP_cons, ih, hab.kind_eq]
  rw [size, size, hcount h.ahead]
  exact congrArg (· + _) h.tokens.length_eq

/-- Fetching keeps readers in step. -/
theorem InStep.fetch (h : InStep ts us r s) : LookInStep ts us r.fetch s.fetch := by
  obtain ⟨⟨tokens, eof⟩, ahead, last, events⟩ := r
  obtain ⟨⟨tokens', eof'⟩, ahead', last', events'⟩ := s
  obtain ⟨htokens, heof, hahead⟩ := h
  cases htokens with
  | nil => exact .token heof ⟨.nil, heof, List.rel_append hahead (.cons heof .nil)⟩
  | cons ht htokens => exact .token ht ⟨htokens, heof, List.rel_append hahead (.cons ht .nil)⟩

/-- Looking at the next token with `peek` keeps readers in step. -/
theorem InStep.peek (h : InStep ts us r s) : LookInStep ts us r.peek s.peek := by
  have hahead := h.ahead
  rw [Reader.peek, Reader.peek]
  generalize r.ahead = ahead at hahead
  generalize s.ahead = ahead' at hahead
  cases hahead with
  | nil => exact h.fetch
  | cons ht _ => exact .token ht h

/-- Looking at the token after the next with `peekSecond` keeps readers in step. -/
theorem InStep.peekSecond (h : InStep ts us r s) :
    LookInStep ts us r.peekSecond s.peekSecond := by
  have hahead := h.ahead
  rw [Reader.peekSecond, Reader.peekSecond]
  generalize r.ahead = ahead at hahead
  generalize s.ahead = ahead' at hahead
  cases hahead with
  | nil =>
    have hfetch := h.fetch
    generalize r.fetch = o at hfetch
    generalize s.fetch = o' at hfetch
    obtain ⟨_, step⟩ := hfetch
    exact step.fetch
  | cons _ hahead =>
    cases hahead with
    | nil => exact h.fetch
    | cons ht _ => exact .token ht h

/-- Taking the next token with `advance` keeps readers in step. -/
theorem InStep.advance (h : InStep ts us r s) : LookInStep ts us r.advance s.advance := by
  have hpeek := h.peek
  rw [Reader.advance, Reader.advance]
  generalize r.peek = o at hpeek
  generalize s.peek = o' at hpeek
  obtain ⟨opposite, step⟩ := hpeek
  refine .token opposite ⟨step.tokens, step.eof, ?_⟩
  simp only [drop, opposite.kind_eq]
  split
  · exact step.ahead
  · simpa using List.forall₂_drop 1 step.ahead

end Reader

/-! ## Rules in step -/

namespace Rule

variable {α β : Type} [Placed α] [Placed β] {ts us : List Token}

/-- Two runs that end in step: both fail at tokens that are `Opposite` and expect the same there, or
both build values that differ at most in their spans. -/
inductive EndInStep (ts us : List Token) :
    Except Error α × Reader Queue → Except Error α × Reader Queue → Prop where
  | error {t u : Token} {expected : List Expected} {r s : Reader Queue}
      (opposite : Opposite ts us t u) :
      EndInStep ts us (.error (.parse (.ofToken t expected)), r)
        (.error (.parse (.ofToken u expected)), s)
  | ok {a b : α} {r s : Reader Queue} (same : erase a = erase b) (step : r.InStep ts us s) :
      EndInStep ts us (.ok a, r) (.ok b, s)

/-- Two rules that end in step (`EndInStep`) whenever they start in step. -/
def InStep (ts us : List Token) (x y : Rule α) : Prop :=
  ∀ r s : Reader Queue, r.InStep ts us s → EndInStep ts us (x.run r) (y.run s)

/-- Values that differ at most in their spans are in step. -/
theorem InStep.pure {a b : α} (h : erase a = erase b) :
    InStep ts us (Pure.pure a : Rule α) (Pure.pure b) :=
  fun _ _ hrs => .ok h hrs

/-- Rules in step may be followed by rules in step. -/
theorem InStep.bind {x y : Rule α} {k l : α → Rule β} (hxy : InStep ts us x y)
    (hkl : ∀ a b, erase a = erase b → InStep ts us (k a) (l b)) :
    InStep ts us (x >>= k) (y >>= l) := by
  intro r s hrs
  have hfirst := hxy r s hrs
  rw [run_bind, run_bind]
  generalize x.run r = o at hfirst
  generalize y.run s = o' at hfirst
  cases hfirst with
  | error opposite => exact .error opposite
  | ok same step => exact hkl _ _ same _ _ step

/-- Repeating steps that are in step ends in step: the readers are of the same `size` all along, so
both sides go on or both stop. -/
theorem InStep.many {x y : Rule (Option α)} (h : InStep ts us x y) :
    InStep ts us (Rule.many x) (Rule.many y) := by
  intro r s hrs
  show EndInStep ts us (loop x.run r) (loop y.run s)
  induction hn : r.size using Nat.strongRecOn generalizing r s with
  | ind n ih =>
    subst hn
    have hstep := h r s hrs
    rw [loop, loop]
    generalize hleft : x.run r = o at hstep
    generalize hright : y.run s = o' at hstep
    cases hstep with
    | error opposite => exact .error opposite
    | @ok a b r' s' same step =>
      cases a with
      | none =>
        obtain rfl : b = none := Option.map_eq_none_iff.1 same.symm
        exact .ok rfl step
      | some a =>
        obtain ⟨b, rfl, hb⟩ := Option.map_eq_some_iff.1 same.symm
        simp only [hrs.size_eq, step.size_eq]
        split
        · rename_i hlt
          have hrest := ih r'.size (by rw [step.size_eq, hrs.size_eq]; exact hlt) r' s' step rfl
          generalize loop x.run r' = o at hrest
          generalize loop y.run s' = o' at hrest
          cases hrest with
          | error opposite => exact .error opposite
          | @ok as bs _ _ sames step' =>
            refine .ok ?_ step'
            show erase a :: erase as = erase b :: erase bs
            rw [sames]
            exact congrArg (· :: _) hb.symm
        · exact .ok (congrArg (fun a => [a]) hb.symm) step

/-! ## Tokens -/

/-- A look in step is a run that ends in step. -/
theorem EndInStep.of_look {o o' : Except Error Token × Reader Queue}
    (h : Reader.LookInStep ts us o o') : EndInStep ts us o o' := by
  obtain ⟨opposite, step⟩ := h
  exact .ok (erase_eq_of_symbol_eq opposite.1) step

/-- The rule `peek` is in step with itself. -/
theorem inStep_peek : InStep ts us peek peek :=
  fun _ _ h => .of_look h.peek

/-- The rule `peekSecond` is in step with itself. -/
theorem inStep_peekSecond : InStep ts us peekSecond peekSecond :=
  fun _ _ h => .of_look h.peekSecond

/-- The rule `advance` is in step with itself. -/
theorem inStep_advance : InStep ts us advance advance :=
  fun _ _ h => .of_look h.advance

/-- Events are no part of what has to be the same, so any two `note` are in step. -/
theorem inStep_note (e e' : Event) : InStep ts us (note e) (note e') :=
  fun _ _ h => .ok rfl ⟨h.tokens, h.eof, h.ahead⟩

/-- Rules that fail are in step, if they expect the same. -/
theorem inStep_fail (expected : List Expected) :
    InStep ts us (fail expected : Rule α) (fail expected) := by
  intro r s hrs
  have hpeek := hrs.peek
  rw [run, run]
  generalize r.peek = o at hpeek
  generalize s.peek = o' at hpeek
  obtain ⟨opposite, step⟩ := hpeek
  exact .error opposite

/-- Spans from anywhere are in step: they do not differ once erased. -/
theorem inStep_spanFrom (start start' : Span) :
    InStep ts us (spanFrom start) (spanFrom start') :=
  fun _ _ h => .ok rfl h

/-- Rules in step may be discarded. -/
theorem InStep.discard {x y : Rule α} (h : InStep ts us x y) :
    InStep ts us (Functor.discard x) (Functor.discard y) :=
  h.bind fun _ _ _ => .pure rfl

/-- What goes on with a token goes on with its kind and text, and with its span, which need not be
the same. -/
theorem InStep.bind_token {x y : Rule Token} {k l : Token → Rule α} (h : InStep ts us x y)
    (hkl : ∀ kind text span span', InStep ts us (k ⟨kind, text, span⟩) (l ⟨kind, text, span'⟩)) :
    InStep ts us (x >>= k) (y >>= l) := by
  refine h.bind fun t u htu => ?_
  obtain ⟨kind, text, span⟩ := t
  obtain ⟨kind', text', span'⟩ := u
  obtain ⟨rfl, rfl, -⟩ := Token.mk.inj htu
  exact hkl _ _ _ _

/-- A choice by what rules in step say goes on in step. -/
theorem InStep.bind_bool {x y : Rule Bool} {k k' l l' : Rule α} (h : InStep ts us x y)
    (hk : InStep ts us k k') (hl : InStep ts us l l') :
    InStep ts us (x >>= fun c => if c = true then k else l)
      (y >>= fun c => if c = true then k' else l') := by
  refine h.bind fun c c' hc => ?_
  obtain rfl : c = c' := hc
  split
  · exact hk
  · exact hl

/-- What goes on with something that may be missing goes on in step with it, or without it. -/
theorem InStep.bind_option {x y : Rule (Option α)} {k l : Option α → Rule β}
    (h : InStep ts us x y)
    (hsome : ∀ a b, erase a = erase b → InStep ts us (k (some a)) (l (some b)))
    (hnone : InStep ts us (k none) (l none)) : InStep ts us (x >>= k) (y >>= l) := by
  refine h.bind fun o o' ho => ?_
  cases o with
  | none =>
    obtain rfl : o' = none := Option.map_eq_none_iff.1 ho.symm
    exact hnone
  | some a =>
    obtain ⟨b, rfl, hb⟩ := Option.map_eq_some_iff.1 ho.symm
    exact hsome a b hb.symm

/-- The kind of the next token is that of its symbol. -/
theorem inStep_atKind (kind : Kind) : InStep ts us (atKind kind) (atKind kind) :=
  inStep_peek.bind_token fun _ _ _ _ => .pure rfl

/-- Whether it is a word is up to its symbol, too. -/
theorem inStep_atWord (word : String) : InStep ts us (atWord word) (atWord word) :=
  inStep_peek.bind_token fun _ _ _ _ => .pure rfl

/-- A token that may be missing is taken on both sides or on none. -/
theorem inStep_eat (kind : Kind) : InStep ts us (eat kind) (eat kind) :=
  (inStep_atKind kind).bind_bool (inStep_advance.bind fun _ _ h => .pure (congrArg some h))
    (.pure rfl)

/-- A token of a kind is taken on both sides, or both fail. -/
theorem inStep_expect (kind : Kind) : InStep ts us (expect kind) (expect kind) :=
  (inStep_eat kind).bind_option (fun _ _ h => .pure h) (inStep_fail _)

/-- A word is taken on both sides, or both fail. -/
theorem inStep_expectWord (word : String) : InStep ts us (expectWord word) (expectWord word) :=
  (inStep_atWord word).bind_bool inStep_advance (inStep_fail _)

/-- A construct is closed in step, wherever it starts. -/
theorem inStep_closing (start start' : Span) : InStep ts us (closing start) (closing start') :=
  (inStep_spanFrom start start').bind fun _ _ h => (inStep_eat _).discard.bind fun _ _ _ => .pure h

/-! ## Lists -/

/-- Items behind signs: `eachAfter` of rules in step. -/
theorem InStep.eachAfter {x y : Rule α} (sign : Kind) (h : InStep ts us x y) :
    InStep ts us (Rule.eachAfter sign x) (Rule.eachAfter sign y) :=
  .many ((inStep_eat sign).bind_option
    (fun _ _ _ => h.bind fun _ _ hab => .pure (congrArg some hab)) (.pure rfl))

/-- Items with commas between: `commaList` of rules in step. -/
theorem InStep.commaList {x y : Rule α} (h : InStep ts us x y) :
    InStep ts us (Rule.commaList x) (Rule.commaList y) := by
  refine h.bind fun a b hab => (h.eachAfter .comma).bind fun as bs hs => .pure ?_
  show erase a :: erase as = erase b :: erase bs
  rw [hab, hs]

/-- Entries up to a token of the kind `kind`. -/
theorem InStep.entries {x y : Rule α} (kind : Kind) (h : InStep ts us x y) :
    InStep ts us
      (Rule.many (atKind kind >>= fun c => if c = true then Pure.pure none else
        x >>= fun a => Pure.pure (some a)))
      (Rule.many (atKind kind >>= fun c => if c = true then Pure.pure none else
        y >>= fun a => Pure.pure (some a))) :=
  .many ((inStep_atKind kind).bind_bool (.pure rfl)
    (h.bind fun _ _ hab => .pure (congrArg some hab)))

/-- Entries between braces, with `InStep.entries` for the body. -/
theorem InStep.block {x y : Rule α} (h : InStep ts us x y) :
    InStep ts us (Rule.block x) (Rule.block y) :=
  (inStep_expect _).discard.bind fun _ _ _ => (h.entries .braceClose).bind fun _ _ hs =>
    inStep_advance.discard.bind fun _ _ _ => .pure hs

/-! ## Names, annotations and commands -/

/-- Every rule of the grammar is in step with itself (`InStep`), and the lemmas from here to
`inStep_document` say so of one after the other. -/
theorem inStep_ident : InStep ts us ident ident :=
  (inStep_expect _).bind_token fun _ _ _ _ => .pure rfl

theorem inStep_string : InStep ts us string string :=
  (inStep_expect _).bind_token fun _ _ _ _ => .pure rfl

theorem inStep_refList : InStep ts us refList refList := by
  refine inStep_ident.bind fun a b hab => (inStep_ident.eachAfter _).bind fun as bs hs =>
    (inStep_spanFrom _ _).bind fun _ _ _ => .pure ?_
  show (⟨erase a :: erase as, default⟩ : RefList) = ⟨erase b :: erase bs, default⟩
  rw [hab, hs]

/-- The rule `refsAfter` is in step, whether the sign is there or not. -/
theorem inStep_refsAfter (sign : Kind) : InStep ts us (refsAfter sign) (refsAfter sign) :=
  (inStep_eat sign).bind_option
    (fun _ _ _ => inStep_refList.bind fun _ _ h => .pure (congrArg some h)) (.pure rfl)

/-- The rule `annotArg` is in step: the kind of its first token is that of a symbol. -/
theorem inStep_annotArg : InStep ts us annotArg annotArg := by
  refine inStep_peek.bind_token fun kind text span span' => ?_
  dsimp only
  split
  · exact inStep_string.bind fun _ _ h => .pure (congrArg Annot.Arg.bare h)
  · refine inStep_ident.bind fun key key' hkey => (inStep_expect _).discard.bind fun _ _ _ =>
      inStep_string.bind fun value value' hvalue => .pure ?_
    exact congrArg₂ Annot.Arg.keyed hkey hvalue
  · exact inStep_fail _

/-- The rule `annotArgs` is in step, whether a parenthesis opens or not. -/
theorem inStep_annotArgs : InStep ts us annotArgs annotArgs :=
  (inStep_eat _).bind_option
    (fun _ _ _ => inStep_annotArg.commaList.bind fun _ _ h =>
      (inStep_expect _).discard.bind fun _ _ _ => .pure h) (.pure rfl)

theorem inStep_annots : InStep ts us annots annots := by
  refine .many ((inStep_eat _).bind_option (fun t u _ => inStep_ident.bind fun n n' hn =>
    inStep_annotArgs.bind fun as bs hs => (inStep_expect _).discard.bind fun _ _ _ =>
      (inStep_spanFrom _ _).bind fun _ _ _ => .pure ?_) (.pure rfl))
  show some (⟨erase n, erase as, default⟩ : Annot) = some ⟨erase n', erase bs, default⟩
  rw [hn, hs]

/-- The rule `argValue` is in step: the kind of its token is that of a symbol. -/
theorem inStep_argValue : InStep ts us argValue argValue := by
  refine inStep_peek.bind_token fun kind text span span' => ?_
  dsimp only
  split
  · exact inStep_string.bind fun _ _ h => .pure (congrArg Arg.Value.string h)
  · exact inStep_ident.bind fun _ _ h => .pure (congrArg Arg.Value.variable h)
  · exact inStep_fail _

theorem inStep_arg : InStep ts us arg arg := by
  refine inStep_ident.bind fun key key' hkey => (inStep_expect _).discard.bind fun _ _ _ =>
    inStep_argValue.bind fun value value' hvalue => (inStep_spanFrom _ _).bind fun _ _ _ =>
      .pure ?_
  show (⟨erase key, erase value, default⟩ : Arg) = ⟨erase key', erase value', default⟩
  rw [hkey, hvalue]

/-- The rule `callArgs` is in step, with arguments and without. -/
theorem inStep_callArgs : InStep ts us callArgs callArgs :=
  (inStep_expect _).discard.bind fun _ _ _ => (inStep_eat _).bind_option
    (fun _ _ _ => .pure rfl) (inStep_arg.commaList.bind fun _ _ h =>
      (inStep_expect _).discard.bind fun _ _ _ => .pure h)

theorem inStep_target : InStep ts us target target := by
  refine inStep_ident.bind fun n n' hn => (inStep_atKind _).bind_bool
    ((inStep_ident.eachAfter _).bind fun as bs hs => (inStep_spanFrom _ _).bind fun _ _ _ =>
      .pure ?_) (.pure (congrArg Target.name hn))
  show Target.path ⟨erase n :: erase as, default⟩ = .path ⟨erase n' :: erase bs, default⟩
  rw [hn, hs]

/-- The rule `callTail` is in step, behind targets that differ at most in their spans. -/
theorem inStep_callTail {t t' : Target} (ht : erase t = erase t') (start start' : Span) :
    InStep ts us (callTail t start) (callTail t' start') := by
  refine inStep_callArgs.bind fun as bs hs => (inStep_spanFrom _ _).bind fun _ _ _ =>
    (inStep_expect _).discard.bind fun _ _ _ => .pure ?_
  show Command.call ⟨erase t, erase as, default⟩ = .call ⟨erase t', erase bs, default⟩
  rw [ht, hs]

/-- The rule `command` is in step: which command it is, is told by a symbol. -/
theorem inStep_command : InStep ts us command command := by
  refine inStep_peek.bind_token fun kind text span span' => ?_
  dsimp only
  split
  · split
    · rename_i builtin _
      refine inStep_advance.discard.bind fun _ _ _ => inStep_callArgs.bind fun as bs hs =>
        (inStep_spanFrom _ _).bind fun _ _ _ => (inStep_expect _).discard.bind fun _ _ _ =>
          .pure ?_
      show Command.builtin ⟨builtin, erase as, default⟩ = .builtin ⟨builtin, erase bs, default⟩
      rw [hs]
    · exact inStep_fail _
  · exact inStep_target.bind fun _ _ ht => inStep_callTail ht _ _
  · exact inStep_fail _

/-! ## The members of a module -/

theorem inStep_literal : InStep ts us literal literal := by
  refine inStep_peek.bind_token fun kind text span span' => ?_
  dsimp only
  split
  · exact inStep_string.bind fun _ _ h => .pure (congrArg Literal.string h)
  · exact inStep_advance.bind_token fun _ _ _ _ => .pure rfl
  · exact inStep_fail _

theorem inStep_property : InStep ts us property property := by
  refine inStep_ident.bind fun key key' hkey => (inStep_expect _).discard.bind fun _ _ _ =>
    inStep_literal.bind fun value value' hvalue => (inStep_expect _).discard.bind fun _ _ _ =>
      (inStep_spanFrom _ _).bind fun _ _ _ => .pure ?_
  show (⟨erase key, erase value, default⟩ : Property) = ⟨erase key', erase value', default⟩
  rw [hkey, hvalue]

theorem inStep_varsBlock (start start' : Span) :
    InStep ts us (varsBlock start) (varsBlock start') := by
  have hclose : ∀ as bs : List Arg, erase as = erase bs → InStep ts us
      (Functor.discard (expect .braceClose) >>= fun _ => closing start >>= fun span =>
        Pure.pure (⟨as, span⟩ : VarsBlock))
      (Functor.discard (expect .braceClose) >>= fun _ => closing start' >>= fun span =>
        Pure.pure ⟨bs, span⟩) := by
    intro as bs hs
    refine (inStep_expect _).discard.bind fun _ _ _ => (inStep_closing _ _).bind fun _ _ _ =>
      .pure ?_
    show (⟨erase as, default⟩ : VarsBlock) = ⟨erase bs, default⟩
    rw [hs]
  exact (inStep_expect _).discard.bind fun _ _ _ => (inStep_atKind _).bind_bool
    ((InStep.pure rfl).bind hclose) (inStep_arg.commaList.bind hclose)

/-- The rule `callOrVars` is in step: whether the target is `gx.vars` is told by its names. -/
theorem inStep_callOrVars (start start' : Span) :
    InStep ts us (callOrVars start) (callOrVars start') := by
  refine inStep_target.bind fun t t' ht => ?_
  have hcall : InStep ts us (callTail t start >>= fun c => Pure.pure (Environment.Entry.command c))
      (callTail t' start' >>= fun c => Pure.pure (Environment.Entry.command c)) :=
    (inStep_callTail ht _ _).bind fun _ _ h => .pure (congrArg Environment.Entry.command h)
  -- the names of the target decide, and they are the same on both sides
  have hsegments : t.segments = t'.segments := by
    rw [← Target.segments_mapSpans (fun _ => default) t, ← erase, ht, erase,
      Target.segments_mapSpans]
  rw [hsegments]
  split
  · exact (inStep_atKind _).bind_bool ((inStep_varsBlock _ _).bind fun _ _ h =>
      .pure (congrArg Environment.Entry.vars h)) hcall
  · exact hcall

/-- The rule `environmentEntry` is in step: two symbols tell what the entry is. -/
theorem inStep_environmentEntry : InStep ts us environmentEntry environmentEntry := by
  refine inStep_peek.bind_token fun kind text span span' => ?_
  dsimp only
  split
  · exact inStep_command.bind fun _ _ h => .pure (congrArg Environment.Entry.command h)
  · refine inStep_peekSecond.bind_token fun kind text _ _ => ?_
    dsimp only
    split
    · exact inStep_property.bind fun _ _ h => .pure (congrArg Environment.Entry.property h)
    · exact inStep_callOrVars _ _
    · exact inStep_callOrVars _ _
    · exact inStep_advance.discard.bind fun _ _ _ => inStep_fail _
  · exact inStep_fail _

/-- The rule `environment` is in step, behind annotations that differ at most in their spans. -/
theorem inStep_environment {as as' : List Annot} (has : erase as = erase as')
    (start start' : Span) : InStep ts us (environment as start) (environment as' start') := by
  refine (inStep_expectWord _).discard.bind fun _ _ _ => inStep_ident.bind fun n n' hn =>
    (inStep_refsAfter _).bind fun r r' hr => inStep_environmentEntry.block.bind fun es es' hes =>
      (inStep_closing _ _).bind fun _ _ _ => .pure ?_
  show (⟨erase as, erase n, erase r, erase es, default⟩ : Environment)
    = ⟨erase as', erase n', erase r', erase es', default⟩
  rw [has, hn, hr, hes]

theorem inStep_flowEntry : InStep ts us flowEntry flowEntry := by
  have hcommand : InStep ts us (command >>= fun c => Pure.pure (Flow.Entry.command c))
      (command >>= fun c => Pure.pure (Flow.Entry.command c)) :=
    inStep_command.bind fun _ _ h => .pure (congrArg Flow.Entry.command h)
  refine inStep_peek.bind_token fun kind text span span' => ?_
  dsimp only
  split
  · exact hcommand
  · refine inStep_peekSecond.bind_token fun kind text _ _ => ?_
    dsimp only
    split
    · exact inStep_property.bind fun _ _ h => .pure (congrArg Flow.Entry.property h)
    · exact hcommand
  · exact inStep_fail _

/-- The rule `flowFrom` is in step, behind annotations and names that differ at most in their
spans. -/
theorem inStep_flowFrom {as as' : List Annot} (has : erase as = erase as')
    (before before' : Option RefList) (hbefore : erase before = erase before')
    (start start' : Span) :
    InStep ts us (flowFrom as before start) (flowFrom as' before' start') := by
  refine (inStep_expect _).discard.bind fun _ _ _ => inStep_ident.bind fun n n' hn =>
    (inStep_refsAfter _).bind fun r r' hr => inStep_flowEntry.block.bind fun es es' hes =>
      (inStep_closing _ _).bind fun _ _ _ => .pure ?_
  show (⟨erase as, erase before, erase n, erase r, erase es, default⟩ : Flow)
    = ⟨erase as', erase before', erase n', erase r', erase es', default⟩
  rw [has, hbefore, hn, hr, hes]

theorem inStep_flowAlias {as as' : List Annot} (has : erase as = erase as')
    (start start' : Span) : InStep ts us (flowAlias as start) (flowAlias as' start') := by
  refine inStep_ident.bind fun n n' hn => (inStep_expect _).discard.bind fun _ _ _ =>
    inStep_refList.bind fun r r' hr => (inStep_expect _).discard.bind fun _ _ _ =>
      (inStep_spanFrom _ _).bind fun _ _ _ => .pure ?_
  show (⟨erase as, erase n, erase r, default⟩ : FlowAlias)
    = ⟨erase as', erase n', erase r', default⟩
  rw [has, hn, hr]

/-- The rule `flow` is in step: two symbols tell a flow from a name for others. -/
theorem inStep_flow {as as' : List Annot} (has : erase as = erase as') (start start' : Span) :
    InStep ts us (flow as start) (flow as' start') := by
  refine (inStep_expectWord _).discard.bind fun _ _ _ =>
    inStep_peek.bind_token fun kind text _ _ => ?_
  dsimp only
  split
  · exact (inStep_flowFrom has _ _ rfl _ _).bind fun _ _ h => .pure (congrArg Member.flow h)
  · refine inStep_peekSecond.bind_token fun kind text _ _ => ?_
    have hflow : InStep ts us
        (refList >>= fun before => Functor.discard (expect .pipe) >>= fun _ =>
          flowFrom as (some before) start >>= fun x => Pure.pure (Member.flow x))
        (refList >>= fun before => Functor.discard (expect .pipe) >>= fun _ =>
          flowFrom as' (some before) start' >>= fun x => Pure.pure (Member.flow x)) :=
      inStep_refList.bind fun _ _ h => (inStep_expect _).discard.bind fun _ _ _ =>
        (inStep_flowFrom has (some _) (some _) (congrArg some h) _ _).bind fun _ _ h =>
          .pure (congrArg Member.flow h)
    dsimp only
    split
    · exact (inStep_flowAlias has _ _).bind fun _ _ h => .pure (congrArg Member.flowAlias h)
    · exact hflow
    · exact hflow
    · exact inStep_advance.discard.bind fun _ _ _ => inStep_fail _
  · exact inStep_fail _

/-- The rule `param` is in step, with its fallback and without. -/
theorem inStep_param : InStep ts us param param := by
  refine inStep_peek.bind_token fun kind text start start' => (inStep_eat _).bind fun o o' ho =>
    inStep_ident.bind fun n n' hn => ?_
  have hvariadic : o.isSome = o'.isSome := by
    have hmap : (o.map (mapSpans fun _ => default)).isSome
        = (o'.map (mapSpans fun _ => default)).isSome := congrArg Option.isSome ho
    rwa [Option.isSome_map, Option.isSome_map] at hmap
  have hspan : ∀ f f' : Option StrLit, erase f = erase f' → InStep ts us
      (spanFrom start >>= fun span => Pure.pure (⟨o.isSome, n, f, span⟩ : Param))
      (spanFrom start' >>= fun span => Pure.pure ⟨o'.isSome, n', f', span⟩) := by
    intro f f' hf
    refine (inStep_spanFrom _ _).bind fun _ _ _ => .pure ?_
    show (⟨o.isSome, erase n, erase f, default⟩ : Param) = ⟨o'.isSome, erase n', erase f', default⟩
    rw [hvariadic, hn, hf]
  exact (inStep_eat _).bind_option
    (fun _ _ _ => inStep_string.bind fun s s' hs =>
      (InStep.pure (a := some s) (b := some s') (congrArg some hs)).bind hspan)
    ((InStep.pure rfl).bind hspan)

theorem inStep_params : InStep ts us params params := by
  have hclose : ∀ ps ps' : List Param, erase ps = erase ps' → InStep ts us
      (Functor.discard (expect .parenClose) >>= fun _ => Pure.pure ps)
      (Functor.discard (expect .parenClose) >>= fun _ => Pure.pure ps') :=
    fun _ _ h => (inStep_expect _).discard.bind fun _ _ _ => .pure h
  exact (inStep_expect _).discard.bind fun _ _ _ => (inStep_atKind _).bind_bool
    ((InStep.pure rfl).bind hclose) (inStep_param.commaList.bind hclose)

theorem inStep_fnEntry : InStep ts us fnEntry fnEntry := by
  refine inStep_peek.bind_token fun kind text _ _ => ?_
  dsimp only
  split
  · exact inStep_command
  · exact inStep_command
  · exact inStep_fail _

/-- The rule `fn` is in step, behind annotations that differ at most in their spans. -/
theorem inStep_fn {as as' : List Annot} (has : erase as = erase as') (start start' : Span) :
    InStep ts us (fn as start) (fn as' start') := by
  refine (inStep_expectWord _).discard.bind fun _ _ _ => inStep_ident.bind fun n n' hn =>
    inStep_params.bind fun ps ps' hps => inStep_fnEntry.block.bind fun cs cs' hcs =>
      (inStep_closing _ _).bind fun _ _ _ => .pure ?_
  show (⟨erase as, erase n, erase ps, erase cs, default⟩ : Fn)
    = ⟨erase as', erase n', erase ps', erase cs', default⟩
  rw [has, hn, hps, hcs]

theorem inStep_activity {as as' : List Annot} (has : erase as = erase as') (start start' : Span) :
    InStep ts us (activity as start) (activity as' start') := by
  have hentry : InStep ts us activityEntry activityEntry :=
    (inStep_atKind _).bind_bool inStep_property (inStep_fail _)
  refine (inStep_expectWord _).discard.bind fun _ _ _ => inStep_ident.bind fun n n' hn =>
    hentry.block.bind fun ps ps' hps => (inStep_closing _ _).bind fun _ _ _ => .pure ?_
  show (⟨erase as, erase n, erase ps, default⟩ : Activity)
    = ⟨erase as', erase n', erase ps', default⟩
  rw [has, hn, hps]

/-- The rule `memberAfter` is in step, one case a keyword. -/
theorem inStep_memberAfter {as as' : List Annot} (has : erase as = erase as')
    (start start' : Span) : InStep ts us (memberAfter as start) (memberAfter as' start') :=
  (inStep_atWord _).bind_bool
    ((inStep_environment has _ _).bind fun _ _ h => .pure (congrArg Member.environment h))
    ((inStep_atWord _).bind_bool (inStep_flow has _ _)
      ((inStep_atWord _).bind_bool
        ((inStep_fn has _ _).bind fun _ _ h => .pure (congrArg Member.fn h))
        ((inStep_activity has _ _).bind fun _ _ h => .pure (congrArg Member.activity h))))

/-- Whether a token opens a member (`opensMember`) is up to its symbol. -/
theorem opensMember_mk (kind : Kind) (text : String) (span span' : Span) :
    opensMember ⟨kind, text, span⟩ = opensMember ⟨kind, text, span'⟩ := rfl

/-- The rule `member` is in step, with annotations and without. -/
theorem inStep_member : InStep ts us member member := by
  refine inStep_peek.bind_token fun kind text span span' => ?_
  dsimp only
  split
  · refine inStep_peekSecond.bind_token fun kind' text' _ _ => ?_
    dsimp only
    split
    · exact inStep_property.bind fun _ _ h => .pure (congrArg Member.property h)
    · rw [opensMember_mk _ _ span span']
      split
      · exact inStep_memberAfter rfl _ _
      · exact inStep_fail _
  · refine inStep_annots.bind fun as as' has => inStep_peek.bind_token fun kind' text' s s' => ?_
    rw [opensMember_mk _ _ s s']
    split
    · exact inStep_memberAfter has _ _
    · exact inStep_fail _
  · exact inStep_fail _

/-! ## Documents -/

/-- The rule `module` is in step, behind annotations that differ at most in their spans. -/
theorem inStep_module {as as' : List Annot} (has : erase as = erase as') (start start' : Span) :
    InStep ts us (module as start) (module as' start') := by
  refine (inStep_expectWord _).discard.bind fun _ _ _ => inStep_ident.bind fun n n' hn =>
    (inStep_refsAfter _).bind fun r r' hr => inStep_member.block.bind fun ms ms' hms =>
      (inStep_closing _ _).bind fun _ _ _ => .pure ?_
  show (⟨erase as, erase n, erase r, erase ms, default⟩ : Module)
    = ⟨erase as', erase n', erase r', erase ms', default⟩
  rw [has, hn, hr, hms]

theorem inStep_origin : InStep ts us origin origin := by
  refine inStep_peek.bind_token fun kind text start start' => (inStep_atWord _).bind_bool
    ?path ((inStep_atWord _).bind_bool ?git (inStep_fail _))
  case path =>
    refine inStep_advance.discard.bind fun _ _ _ => (inStep_expect _).discard.bind fun _ _ _ =>
      inStep_string.bind fun place place' hplace => (inStep_expect _).discard.bind fun _ _ _ =>
        (inStep_spanFrom _ _).bind fun _ _ _ => .pure ?_
    exact congrArg (Origin.path · default) hplace
  case git =>
    refine inStep_advance.discard.bind fun _ _ _ => (inStep_expect _).discard.bind fun _ _ _ =>
      inStep_string.bind fun url url' hurl => (inStep_expect _).discard.bind fun _ _ _ =>
        (inStep_expectWord _).discard.bind fun _ _ _ => (inStep_expect _).discard.bind fun _ _ _ =>
          inStep_string.bind fun channel channel' hchannel =>
            (inStep_expect _).discard.bind fun _ _ _ => (inStep_spanFrom _ _).bind fun _ _ _ =>
              .pure ?_
    exact congrArg₂ (Origin.git · · default) hurl hchannel

theorem inStep_external : InStep ts us external external := by
  refine (inStep_expectWord _).bind_token fun kind text span span' =>
    (inStep_expectWord _).discard.bind fun _ _ _ => inStep_refList.bind fun r r' hr =>
      (inStep_expect _).discard.bind fun _ _ _ => inStep_origin.bind fun o o' ho =>
        (inStep_expect _).discard.bind fun _ _ _ => (inStep_closing _ _).bind fun _ _ _ =>
          .pure ?_
  obtain ⟨hnames, -⟩ := RefList.mk.inj hr
  exact congrArg₂ (External.mk · · default) hnames ho

/-- The rule `item` is in step: the event that it notes does not count. -/
theorem inStep_item : InStep ts us item item := by
  refine inStep_peek.bind_token fun kind text span span' => (inStep_note _ _).bind fun _ _ _ => ?_
  dsimp only
  split
  · exact inStep_annots.bind fun as as' has => (inStep_atWord _).bind_bool
      ((inStep_module has _ _).bind fun _ _ h => .pure (congrArg Item.module h)) (inStep_fail _)
  · exact (inStep_atWord _).bind_bool
      ((inStep_module rfl _ _).bind fun _ _ h => .pure (congrArg Item.module h))
      ((inStep_atWord _).bind_bool
        (inStep_external.bind fun _ _ h => .pure (congrArg Item.external h)) (inStep_fail _))

/-- The rule `document` is in step, also for texts of different sizes. -/
theorem inStep_document (bytes bytes' : Nat) :
    InStep ts us (document bytes) (document bytes') :=
  (inStep_item.entries .eof).bind fun _ _ h => .pure (congrArg (Document.mk · default) h)

end Rule

/-! ## What is read, and what is reported -/

/-- Readers at the start of tokens with the same symbols are in step (`Reader.InStep`). -/
theorem Queue.inStep {q q' : Queue}
    (h : symbols (q.tokens ++ [q.eof]) = symbols (q'.tokens ++ [q'.eof])) :
    (Reader.ofFeed q).InStep (q.tokens ++ [q.eof]) (q'.tokens ++ [q'.eof])
      (Reader.ofFeed q') := by
  have hreverse := List.rel_reverse (forall₂_opposite h)
  simp only [List.reverse_append, List.reverse_cons, List.reverse_nil, List.nil_append,
    List.cons_append, List.forall₂_cons, List.forall₂_reverse_iff] at hreverse
  exact ⟨hreverse.2, hreverse.1, .nil⟩

/-- Errors at tokens with the same symbol have the same `message`. -/
theorem ParseError.message_eq {t u : Token} (h : t.symbol = u.symbol) (expected : List Expected) :
    (ofToken t expected).message = (ofToken u expected).message := by
  obtain ⟨kind, text, span⟩ := t
  obtain ⟨kind', text', span'⟩ := u
  obtain ⟨rfl, rfl⟩ := Symbol.mk.inj h
  rfl

/-- Sources with the same symbols, comments aside, are read alike: both are accepted, with the same
tree (`sameTree`), or both are refused, with errors that differ only in their positions and are
about tokens at the same place among those of their source. -/
theorem parse_of_symbols_eq {a b : String} {ta tb : List Token} (ha : tokenize a = .ok ta)
    (hb : tokenize b = .ok tb)
    (h : symbols (ta.filter (·.kind != .comment)) = symbols (tb.filter (·.kind != .comment))) :
    (∃ t u, parse a = .ok t ∧ parse b = .ok u ∧ Document.sameTree t u = true) ∨
      ∃ p q, parse a = .error (.parse p) ∧ parse b = .error (.parse q) ∧
        p.message = q.message ∧ p.found = q.found ∧ p.foundText = q.foundText ∧
        p.expected = q.expected ∧
        ∃ (i : Nat) (x y : Token), (ta.filter (·.kind != .comment))[i]? = some x ∧
          (tb.filter (·.kind != .comment))[i]? = some y ∧
          p.position = x.span.startPosition ∧ q.position = y.span.startPosition := by
  obtain ⟨q, hq, hparse⟩ := parse_eq_run_queue ha
  obtain ⟨q', hq', hparse'⟩ := parse_eq_run_queue hb
  rw [← hq, ← hq'] at h ⊢
  have hends := Rule.inStep_document (sourceSize a) (sourceSize b) _ _ (Queue.inStep h)
  rw [hparse, hparse']
  generalize (Rule.document (sourceSize a)).run (Reader.ofFeed q) = o at hends
  generalize (Rule.document (sourceSize b)).run (Reader.ofFeed q') = o' at hends
  cases hends with
  | ok same _ => exact .inl ⟨_, _, rfl, rfl, Document.sameTree_of_erase_eq same⟩
  | @error t u expected _ _ opposite =>
    obtain ⟨hsymbol, i, ht, hu⟩ := opposite
    refine .inr ⟨_, _, rfl, rfl, ParseError.message_eq hsymbol expected, ?_, ?_, rfl, i, t, u, ht,
      hu, rfl, rfl⟩
    · exact congrArg Symbol.kind hsymbol
    · exact congrArg Symbol.text hsymbol

/-- An environment without a name, which is refused. -/
def namelessCompact : String :=
  "mod m\x7benv\x7d"

/-- The symbols of `namelessCompact` with comments among them, over several lines. -/
def namelessSpread : String :=
  "# m\nmod m # env\n\x7b env\n\n \x7d"

theorem parse_of_symbols_eq_nameless :
    ∃ ta tb, tokenize namelessCompact = .ok ta ∧ tokenize namelessSpread = .ok tb ∧
      symbols (ta.filter (·.kind != .comment)) = symbols (tb.filter (·.kind != .comment)) ∧
      ((∃ t u, parse namelessCompact = .ok t ∧ parse namelessSpread = .ok u ∧
          Document.sameTree t u = true) ∨
        ∃ p q, parse namelessCompact = .error (.parse p) ∧
          parse namelessSpread = .error (.parse q) ∧
          p.message = q.message ∧ p.found = q.found ∧ p.foundText = q.foundText ∧
          p.expected = q.expected ∧
          ∃ (i : Nat) (x y : Token), (ta.filter (·.kind != .comment))[i]? = some x ∧
            (tb.filter (·.kind != .comment))[i]? = some y ∧
            p.position = x.span.startPosition ∧ q.position = y.span.startPosition) := by
  have ha : tokenize namelessCompact
      = .ok [⟨.ident, "mod", ⟨0, 3, 1, 1⟩⟩, ⟨.ident, "m", ⟨4, 5, 1, 5⟩⟩,
        ⟨.braceOpen, "\x7b", ⟨5, 6, 1, 6⟩⟩, ⟨.ident, "env", ⟨6, 9, 1, 7⟩⟩,
        ⟨.braceClose, "\x7d", ⟨9, 10, 1, 10⟩⟩, ⟨.eof, "", ⟨10, 10, 1, 11⟩⟩] := by
    decide +kernel
  have hb : tokenize namelessSpread
      = .ok [⟨.comment, "# m", ⟨0, 3, 1, 1⟩⟩, ⟨.ident, "mod", ⟨4, 7, 2, 1⟩⟩,
        ⟨.ident, "m", ⟨8, 9, 2, 5⟩⟩, ⟨.comment, "# env", ⟨10, 15, 2, 7⟩⟩,
        ⟨.braceOpen, "\x7b", ⟨16, 17, 3, 1⟩⟩, ⟨.ident, "env", ⟨18, 21, 3, 3⟩⟩,
        ⟨.braceClose, "\x7d", ⟨24, 25, 5, 2⟩⟩, ⟨.eof, "", ⟨25, 25, 5, 3⟩⟩] := by
    decide +kernel
  exact ⟨_, _, ha, hb, rfl, parse_of_symbols_eq ha hb rfl⟩

end Gxl
