import Gxl.Grammar.Member
import Gxl.Proofs.Grammar.Commands

/-!
# Reading properties and environments

The rules of `Gxl.Grammar.Member` up to environments meet the contract of
`Gxl.Proofs.Grammar.Parses`.  An entry of an environment that starts with a word is told by the
token behind it: for each pair of tokens some derivation starts with it, or none does
(`second_of_environmentEntry`).

Blocks between braces are read alike wherever they stand (`parses_braced`).
-/

namespace Gxl

namespace Derivation

/-! ## How entries start -/

/-- The kinds of token that an entry, a member or an item starts with: a word, `#[`, or the name of
a builtin command. -/
def StartsEntry (w : Phrase) : Prop :=
  ∃ s u, w = s :: u ∧ (s.kind = .ident ∨ s.kind = .builtin ∨ s.kind = .annotOpen)

/-- An entry starts with no token of any other kind (`Rule.Clear`). -/
theorem StartsEntry.clear {w : Phrase} (h : StartsEntry w) {kind : Kind}
    (hkind : kind ∉ [.ident, .builtin, .annotOpen]) (u : Phrase) : Rule.Clear kind (w ++ u) := by
  obtain ⟨s, u', rfl, hs⟩ := h
  rw [List.cons_append, Rule.clear_cons]
  rintro rfl
  apply hkind
  rcases hs with hs | hs | hs <;> simp [hs]

/-- A property starts as entries do, with a word. -/
theorem Property.startsEntry (p : Property) : StartsEntry p.yield :=
  ⟨_, _, rfl, .inl rfl⟩

/-- A command starts as entries do, with the name of a builtin command or with a word. -/
theorem Command.startsEntry (c : Command) : StartsEntry c.yield := by
  cases c with
  | builtin b args => exact ⟨_, _, rfl, .inr (.inl rfl)⟩
  | call t args => exact ⟨_, _, rfl, .inl rfl⟩

/-- An entry of an environment starts as entries do, one case a constructor. -/
theorem EnvironmentEntry.startsEntry (e : EnvironmentEntry) : StartsEntry e.yield := by
  cases e with
  | property p => exact p.startsEntry
  | command c => exact c.startsEntry
  | vars args semi => exact ⟨_, _, rfl, .inl rfl⟩

/-- An entry of a flow starts as entries do. -/
theorem FlowEntry.startsEntry (e : FlowEntry) : StartsEntry e.yield := by
  cases e with
  | command c => exact c.startsEntry
  | property p => exact p.startsEntry

end Derivation

namespace Rule

open Gxl.Derivation (Name Numeral)

variable {P : Phrase → Prop}

/-- What may follow an entry: no semicolon, unless one has `ended` the entry already. -/
def FollowsEnded {β : Type} (ended : β → Bool) (b : β) (rest : Phrase) : Prop :=
  ended b = false → Clear .semicolon rest

/-! ## Properties -/

/-- The value of a property is read.  Its token tells which constructor of `Derivation.Literal` it
is. -/
theorem parses_literal :
    Parses P literal (Denotes Derivation.Literal.tree) (fun v w => w = [v.symbol])
      (fun _ _ => True) nowhere := by
  refine .peek_bind fun t ht => ?_
  split
  · rename_i hkind
    refine parses_string.build .string (fun _ _ => congrArg Literal.string) (fun _ _ => id)
      (fun _ _ _ _ _ => id) ?_
    rintro (s | n) w rest hv rfl -
    · exact ⟨s, rfl, rfl, trivial⟩
    · exact absurd (hv.2.kind_eq.trans hkind) (by simp [Derivation.Literal.symbol])
  · rename_i hkind
    have hgenuine : t.symbol.genuine = true := ht.resolve_right (by simp [hkind])
    obtain ⟨n, hn⟩ := Numeral.exists_symbol hgenuine hkind
    rw [← hn] at hgenuine ⊢
    refine .congr ((Parses.advance hgenuine fun v hv => hv.2).bind (fun _ u hu =>
      .pure (Derivation.Literal.number n) ?_ fun _ _ => trivial) fun _ _ _ _ hv _ _ => hv) ?_ ?_
    · show Literal.number ⟨u.text, default⟩ = _
      rw [← Token.symbol_text, hu]
      rfl
    · rintro _ w ⟨_, _, rfl, rfl, rfl⟩
      rfl
    · rintro (s | m) w rest hv rfl -
      · exact absurd hv.2.kind_eq (by simp [Derivation.Literal.symbol])
      · obtain rfl : m = n := Numeral.symbol_injective (starts_cons.1 hv.2)
        exact ⟨(), [], rfl, rfl, rfl⟩
  · rename_i hstr hnumber
    refine .fail (.of_tree (.string default) _ rfl rfl) (.of_forall ⟨?_, ?_⟩) ?_
    · exact .token (s := .quoted "") (.of_tree (.string default) [] rfl rfl)
    · exact .token (s := .numeral "0") (.of_tree (.number default) [] rfl rfl)
    rintro (s | n) w rest hv rfl -
    · exact hstr hv.2.kind_eq.symm
    · exact hnumber hv.2.kind_eq.symm

/-- A property is read by `property`: a name, an equals sign, a value and a semicolon. -/
theorem parses_property :
    Parses P property (Denotes Derivation.Property.tree) (fun p w => w = p.yield)
      (fun _ _ => True) nowhere := by
  refine .congr (parses_ident.andThen fun n key hkey => .signThen (by decide)
    (parses_literal.andThen fun v value hvalue => .signThen (by decide)
      (.spanFrom_bind fun span =>
        .pure (⟨n, v⟩ : Derivation.Property) ?_ fun _ _ => trivial))) ?_ ?_
  · show (⟨erase key, erase value, default⟩ : Property) = _
    rw [hkey, hvalue]
    rfl
  · rintro _ w ⟨n, _, rfl, _, rfl, v, _, rfl, _, rfl, rfl, rfl⟩
    rfl
  · rintro ⟨n, v⟩ w rest - rfl -
    exact ⟨n, _, rfl, _, rfl, v, _, rfl, [], rfl, rfl, rfl⟩

section WordEntry

variable {α β : Type} {Den : β → α → Prop} {y : β → Phrase} {F : β → Phrase → Prop}
  {E : Phrase → Remark → Prop}

/-- A word with an equals sign behind it is the key of a `Property`.  So of a rule whose entries may
be properties and start with a word, what is left to say is how it reads the others. -/
theorem parses_wordEntry {t : Token} {k : Token → Rule α} (f : Property → α)
    (g : Derivation.Property → β) (ht : Stands t.symbol) (hkind : t.kind = .ident)
    (hy : ∀ b, Derivation.StartsEntry (y b)) (hg : ∀ p, y (g p) = p.yield)
    (hden : ∀ p a, Denotes Derivation.Property.tree p a → Den (g p) (f a))
    (hF : ∀ p rest, F (g p) rest)
    (hk : ∀ u : Token, u.kind = .equals → k u = property >>= fun a => pure (f a))
    (honly : ∀ (n : Name) b s rest, [n.symbol, s] <+: y b ++ rest → s.kind = .equals →
      ∃ p, b = g p)
    (hother : ∀ (n : Name) (u : Token), n.symbol = t.symbol → u.kind ≠ .equals →
      Parses.Second (fun v => True ∧ Starts n.symbol v) Den (fun b w => w = y b) F E n.symbol
        u.symbol (k u)) :
    Parses (fun v => True ∧ Starts t.symbol v) (peekSecond >>= k) Den (fun b w => w = y b) F E := by
  have hgenuine : t.symbol.genuine = true := ht.resolve_right (by simp [hkind])
  obtain ⟨n, hn⟩ := Name.exists_symbol hgenuine hkind
  rw [← hn] at hgenuine ⊢
  -- every word is the key of some property, and so the start of some entry
  let p₀ : Derivation.Property := ⟨n, .string ⟨"", by decide⟩⟩
  have hp₀ : y (g p₀) = [n.symbol, .sign .equals, p₀.value.symbol, .sign .semicolon] := hg p₀
  refine .peekSecond_bind hgenuine (fun v hv => hv.2) ?_ ?_ ?_
  · intro b hnil
    obtain ⟨s, u, hs, -⟩ := hy b
    rw [← hnil] at hs
    simp at hs
  · exact ⟨g p₀, f ⟨n.tree, .string default, default⟩, _, hden p₀ _ rfl, hp₀.symm⟩
  · intro u _
    by_cases hequals : u.kind = .equals
    · rw [hk u hequals]
      refine .reads (fun s => s.kind = .equals) hequals (.of_nowhere (parses_property.build g hden
        ?_ (fun p _ rest _ _ _ => hF p rest) ?_)) ?_
      · rintro p w rfl
        exact (hg p).symm
      · rintro b w rest ⟨-, s, hpair, hs⟩ rfl -
        obtain ⟨p, rfl⟩ := honly n b s rest hpair hs
        exact ⟨p, rfl, hg p, trivial⟩
      · refine ⟨_, g p₀, _, .sign .equals, .intro (g p₀) [] ⟨trivial, ?_⟩ (hF p₀ []), ?_, rfl⟩
        · rw [hp₀]
          rfl
        · rw [hp₀]
          exact ⟨_, rfl⟩
    · exact hother n u hn hequals

end WordEntry

/-- A command starts with the name of a builtin or with a word, so `Starts` tells its kind. -/
theorem kind_of_command {c : Derivation.Command} {s : Symbol} {rest : Phrase}
    (h : Starts s (c.yield ++ rest)) : s.kind = .builtin ∨ s.kind = .ident := by
  cases c with
  | builtin b args => exact .inl h.kind_eq.symm
  | call d args => exact .inr h.kind_eq.symm

/-! ## Environments -/

/-- A block of variables is read by `varsBlock`, once its name is. -/
theorem parses_varsBlock {start : Span} :
    Parses P (varsBlock start)
      (fun (p : List Derivation.Arg × Bool) b => Denotes (List.map Derivation.Arg.tree) p.1 b.args)
      (fun p w => w = .sign .braceOpen :: (separated Derivation.Arg.yield p.1
        ++ .sign .braceClose :: Derivation.terminator p.2))
      (FollowsEnded Prod.snd) nowhere := by
  refine .congr (.signThen (by decide) (.atKind_ite_bind
    ((Parses.commaListUnless parses_arg ?_).bind (fun ds args hargs => .signThen (by decide)
      (Parses.closing.bind (fun semi span _ =>
        .pure (ds, semi) (erase_eq_map hargs) ?_) ?_)) ?_))) ?_ ?_
  · intro a u
    simp [Derivation.Arg.yield]
  · exact fun v hv => hv
  · rintro semi _ w rest - ⟨rfl, rfl⟩ hF
    exact hF
  · rintro ds _ w rest - ⟨w', rfl, -⟩ -
    exact .intro (by decide) (by decide) (fun _ _ => trivial) (fun _ _ => trivial) ds _
  · rintro _ w ⟨_, rfl, ds, _, rfl, _, rfl, semi, _, rfl, rfl, rfl⟩
    simp [Derivation.terminator]
  · rintro ⟨ds, semi⟩ w rest - rfl -
    exact ⟨_, rfl, ds, _, rfl, _, rfl, semi, [], (List.append_nil _).symm, rfl, rfl⟩

/-- The `segments` of a target are the names of its derivation. -/
theorem segments_of_denotes {d : Derivation.Target} {t : Target}
    (h : Denotes Derivation.Target.tree d t) :
    t.segments = (d.head :: d.tail).map Name.text := by
  rw [← d.segments_tree, ← h, erase, t.segments_mapSpans]

/-- The target that opens a block of variables, `gx.vars`. -/
def varsTarget : Derivation.Target :=
  ⟨⟨"gx", by decide⟩, [⟨"vars", by decide⟩]⟩

/-- Only `varsTarget` has these names. -/
theorem eq_varsTarget {d : Derivation.Target}
    (h : (d.head :: d.tail).map Name.text = ["gx", "vars"]) : d = varsTarget := by
  obtain ⟨⟨n, hn⟩, ns⟩ := d
  simp only [List.map_cons, List.cons.injEq, List.map_eq_cons_iff, List.map_eq_nil_iff] at h
  obtain ⟨rfl, ⟨m, hm⟩, _, rfl, rfl, rfl⟩ := h
  rfl

/-- What is left of a call or a block of variables behind its target `d`. -/
def BehindTarget (d : Derivation.Target) (e : Derivation.EnvironmentEntry) (w : Phrase) : Prop :=
  (∃ args, e = .command (.call d args) ∧ w = Derivation.Command.yieldTail args) ∨
    (d = varsTarget ∧ ∃ args semi, e = .vars args semi ∧
      w = .sign .braceOpen :: (separated Derivation.Arg.yield args
        ++ .sign .braceClose :: Derivation.terminator semi))

/-- A call is read behind its target by `callTail`, where no block of variables can stand. -/
theorem parses_call {d : Derivation.Target} {callee : Target} {start : Span}
    (hcallee : Denotes Derivation.Target.tree d callee)
    (hP : ∀ v, P v → d = varsTarget → Clear .braceOpen v) :
    Parses P (callTail callee start >>= fun c => pure (Environment.Entry.command c))
      (Denotes Derivation.EnvironmentEntry.tree) (BehindTarget d)
      (FollowsEnded Derivation.EnvironmentEntry.ended) nowhere := by
  refine (parses_callTail hcallee).build (fun args => .command (.call d args))
    (fun _ _ => congrArg Environment.Entry.command) (fun args w hw => .inl ⟨args, rfl, hw⟩)
    (fun _ _ _ _ _ _ => nofun) ?_
  rintro _ w rest hv (⟨args, rfl, rfl⟩ | ⟨rfl, args, semi, rfl, rfl⟩) -
  · exact ⟨args, rfl, rfl, trivial⟩
  · exact absurd (hP _ hv rfl) (by simp)

/-- A call or a block of variables is read by `callOrVars`: its target, and what stands
`BehindTarget`. -/
theorem parses_callOrVars {start : Span} :
    Parses P (callOrVars start) (Denotes Derivation.EnvironmentEntry.tree)
      (Then Derivation.Target.yield BehindTarget)
      (FollowsEnded Derivation.EnvironmentEntry.ended) nowhere := by
  refine parses_target.bind (fun d callee hcallee => ?_) ?_
  · rw [segments_of_denotes hcallee]
    by_cases hvars : (d.head :: d.tail).map Name.text = ["gx", "vars"]
    · -- the brace behind the names tells a block of variables from a call
      obtain rfl := eq_varsTarget hvars
      rw [hvars]
      show Parses _ (atKind .braceOpen >>= _) _ _ _ _
      refine .atKind_ite ?_ ?_
      · intro s hs hkind
        refine parses_varsBlock.build (fun p => .vars p.1 p.2) ?_
          (fun p w hw => .inr ⟨rfl, p.1, p.2, rfl, hw⟩) (fun _ _ _ _ _ => id) ?_
        · intro p b hb
          show Environment.Entry.vars ⟨erase b.args, default⟩ = _
          rw [hb]
          rfl
        · rintro _ w rest hv (⟨args, rfl, rfl⟩ | ⟨-, args, semi, rfl, rfl⟩) hF
          · exact absurd (hv.2.kind_eq.trans hkind) (by simp)
          · exact ⟨(args, semi), rfl, rfl, hF⟩
      · intro s hs hkind
        exact parses_call hcallee fun v hv _ => hv.2.clear hkind
    · rw [if_neg (by simpa using hvars)]
      refine parses_call hcallee ?_
      rintro v - rfl
      exact absurd rfl hvars
  · rintro d _ w rest - (⟨args, rfl, rfl⟩ | ⟨-, args, semi, rfl, rfl⟩) -
    · simp [Derivation.Command.yieldTail]
    · simp

/-- A target and what may stand `BehindTarget` make up an entry. -/
theorem yield_of_behindTarget {e : Derivation.EnvironmentEntry} {w : Phrase}
    (h : Then Derivation.Target.yield BehindTarget e w) : w = e.yield := by
  obtain ⟨d, _, rfl, ⟨args, rfl, rfl⟩ | ⟨rfl, args, semi, rfl, rfl⟩⟩ := h <;> rfl

/-- The token `t` behind the first name of a call is a dot or an opening parenthesis. -/
theorem second_of_call {d : Derivation.Target} {args : List Derivation.Arg} {s t : Symbol}
    {rest : Phrase}
    (h : [s, t] <+: d.yield ++ Derivation.Command.yieldTail args ++ rest) :
    t.kind = .dot ∨ t.kind = .parenOpen := by
  obtain ⟨n, _ | ⟨m, ns⟩⟩ := d <;>
    simp [Derivation.Target.yield, Derivation.Command.yieldTail, List.cons_prefix_cons] at h <;>
    simp [h]

/-- The second token of an entry that starts with a word tells a `property` from the rest. -/
theorem second_of_environmentEntry {e : Derivation.EnvironmentEntry} {n : Name} {t : Symbol}
    {rest : Phrase} (h : [n.symbol, t] <+: e.yield ++ rest) :
    (∃ p, e = .property p ∧ t.kind = .equals) ∨
      ((t.kind = .dot ∨ t.kind = .parenOpen) ∧
        Then Derivation.Target.yield BehindTarget e e.yield) := by
  cases e with
  | property p =>
    simp [Derivation.EnvironmentEntry.yield, Derivation.Property.yield, List.cons_prefix_cons] at h
    exact .inl ⟨p, rfl, by simp [h]⟩
  | command c =>
    cases c with
    | builtin b args =>
      simp [Derivation.EnvironmentEntry.yield, Derivation.Command.yield, List.cons_prefix_cons] at h
      exact absurd (congrArg Symbol.kind h.1) (by simp)
    | call d args => exact .inr ⟨second_of_call h, d, _, rfl, .inl ⟨args, rfl, rfl⟩⟩
  | vars args semi =>
    have hdot : t = .sign .dot := by
      simp [Derivation.EnvironmentEntry.yield, List.cons_prefix_cons] at h
      exact h.2
    exact .inr ⟨by simp [hdot], varsTarget, _, rfl, .inr ⟨rfl, args, semi, rfl, rfl⟩⟩

/-- A call or a block of variables is read as an entry by `callOrVars`, where a dot or a parenthesis
stands behind its first name. -/
theorem second_callOrVars {n : Name} {u : Symbol} {start : Span} {E : Phrase → Remark → Prop}
    (hu : u.kind = .dot ∨ u.kind = .parenOpen) :
    Parses.Second (fun v => True ∧ Starts n.symbol v) (Denotes Derivation.EnvironmentEntry.tree)
      (fun e w => w = e.yield) (FollowsEnded Derivation.EnvironmentEntry.ended) E n.symbol u
      (callOrVars start) := by
  refine .reads (fun s => s.kind = .dot ∨ s.kind = .parenOpen) hu
    (.of_nowhere (parses_callOrVars.congr (fun _ _ => yield_of_behindTarget) ?_)) ?_
  · rintro e w rest ⟨-, s, hpair, hs⟩ rfl -
    rcases second_of_environmentEntry hpair with ⟨p, -, hequals⟩ | ⟨-, he⟩
    · simp [hequals] at hs
    · exact he
  · exact ⟨_, .command (.call ⟨n, []⟩ []), _, .sign .parenOpen, .intro _ [] ⟨trivial, rfl⟩ nofun,
      ⟨_, rfl⟩, .inr rfl⟩

/-- An entry of an environment is read by `environmentEntry`.  Behind a word, the second token tells
what it is. -/
theorem parses_environmentEntry :
    Parses P environmentEntry (Denotes Derivation.EnvironmentEntry.tree) (fun e w => w = e.yield)
      (FollowsEnded Derivation.EnvironmentEntry.ended) Parses.Closes := by
  refine .anywhere (.peek_bind fun t ht => ?_)
  split
  · rename_i hkind
    have hcommand := parses_command (P := fun v => True ∧ Starts t.symbol v) fun v hv =>
      .inl ⟨t.symbol, ht, hkind, hv.2⟩
    refine .of_nowhere (hcommand.build .command (fun _ _ => congrArg Environment.Entry.command)
      (fun _ _ => id) (fun _ _ _ _ _ _ => nofun) ?_)
    rintro (p | c | ⟨args, semi⟩) w rest hv rfl -
    · exact absurd (hv.2.kind_eq.trans hkind) (by simp)
    · exact ⟨c, rfl, rfl, trivial⟩
    · exact absurd (hv.2.kind_eq.trans hkind) (by simp)
  · rename_i hkind
    refine parses_wordEntry .property .property ht hkind Derivation.EnvironmentEntry.startsEntry
      (fun _ => rfl) (fun _ _ => congrArg Environment.Entry.property) (fun _ _ => nofun) ?_ ?_ ?_
    · intro u hequals
      rw [hequals]
    · intro n e s rest hpair hs
      rcases second_of_environmentEntry hpair with ⟨p, rfl, -⟩ | ⟨hdot, -⟩
      · exact ⟨p, rfl⟩
      · simp [hs] at hdot
    · intro n u hn hequals
      split
      · rename_i hequals'
        exact absurd hequals' hequals
      · rename_i hparen
        exact second_callOrVars (.inr hparen)
      · rename_i hdot
        exact second_callOrVars (.inl hdot)
      · rename_i hparen hdot
        refine .fails (.of_forall ⟨?_, ?_, ?_⟩) ?_
        · exact .token (s := .sign .equals)
            (.of_tree (.property ⟨n, .string default⟩) _ rfl rfl)
        · exact .token (s := .sign .parenOpen) (.of_tree (.command (.call ⟨n, []⟩ [])) _ rfl rfl)
        · exact .token (s := .sign .dot)
            (.of_tree (.command (.call ⟨n, [default]⟩ [])) _ rfl rfl)
        rintro v e w ⟨rest, rfl, -, rfl, -⟩ hpair
        rcases second_of_environmentEntry hpair with ⟨p, -, h⟩ | ⟨h | h, -⟩
        · exact hequals h
        · exact hdot h
        · exact hparen h
  · rename_i hbuiltin hident
    refine .fail (.of_tree (.vars [] true) _ rfl rfl) (.of_forall ⟨?_, ?_, ?_, .outer ⟨rfl, rfl⟩⟩)
      ?_
    · exact .property default (.of_tree (.property default) [] rfl rfl)
    · exact .command default (.of_tree (.command default) [] rfl rfl)
    · exact .vars [] true (.of_tree (.vars [] true) [] rfl rfl)
    intro e w rest hv hw _
    subst hw
    cases e with
    | property p => exact hident hv.2.kind_eq.symm
    | command c =>
      rcases kind_of_command hv.2 with h | h
      · exact hbuiltin h
      · exact hident h
    | vars args semi => exact hident hv.2.kind_eq.symm

/-! ## Blocks -/

section Braced

variable {α β γ δ : Type} {item : Rule α} {Den : β → α → Prop} {y : β → Phrase}
  {F : β → Phrase → Prop} {E : Phrase → Remark → Prop} {start : Span}
  {f : List α → Span → γ} {g : List β → Bool → δ} {Den' : δ → γ → Prop} {F' : δ → Phrase → Prop}

/-- What may follow an entry (`FollowsEnded`) does follow it within a block: another entry. -/
theorem followsEnded_of_startsEntry {ended : β → Bool} (hy : ∀ b, Derivation.StartsEntry (y b))
    (b b' : β) (u : Phrase) : FollowsEnded ended b (y b' ++ u) :=
  fun _ => (hy b').clear (by decide) u

/-- A `block` and the semicolon that may follow it are read, for entries in which faults may be seen
late. -/
theorem parses_braced' (h : Parses (fun _ => True) item Den (fun b w => w = y b) F E)
    (hE : ∀ w a, E w (.outer a) → Parses.Closes w (.outer a))
    (hy : ∀ b, Derivation.StartsEntry (y b))
    (hclose : ∀ b u, F b (.sign .braceClose :: u)) (hentry : ∀ b b' u, F b (y b' ++ u))
    (hden : ∀ bs as semi span, List.Forall₂ Den bs as → Den' (g bs semi) (f as span))
    (hF : ∀ bs semi rest, F' (g bs semi) rest ↔ (semi = false → Clear .semicolon rest)) :
    Parses P (block item >>= fun as => closing start >>= fun span => pure (f as span)) Den'
      (fun d w => ∃ bs semi, d = g bs semi ∧ w = Derivation.braced y bs semi) F'
      (Parses.Inside y E) := by
  have hfirst : ∀ b, ∃ s u, y b = s :: u ∧ s.kind ≠ .braceClose := by
    intro b
    obtain ⟨s, u, hs, hkind⟩ := hy b
    refine ⟨s, u, hs, ?_⟩
    rcases hkind with hkind | hkind | hkind <;> simp [hkind]
  refine .congr ((Parses.block h hE hfirst hclose hentry).bind (fun bs as has =>
    Parses.closing.bind (fun semi span _ => .pure (g bs semi) (hden bs as semi span has) ?_) ?_) ?_)
    ?_ ?_
  · exact fun v hv => (hF bs semi v).2 hv
  · rintro semi _ w rest - ⟨rfl, rfl⟩ hF'
    exact (hF bs semi rest).1 hF'
  · exact fun _ _ _ _ _ _ _ => trivial
  · rintro _ w ⟨bs, _, rfl, semi, _, rfl, rfl, rfl⟩
    exact ⟨bs, semi, rfl, by simp [Derivation.braced, Derivation.terminator]⟩
  · rintro _ w rest - ⟨bs, semi, rfl, rfl⟩ -
    refine ⟨bs, Derivation.terminator semi, by simp [Derivation.braced], semi, [], ?_, rfl, rfl⟩
    exact (List.append_nil _).symm

/-- A `block` whose entries see faults at once: the case of `parses_braced'` for environments, flows
and the like. -/
theorem parses_braced (h : Parses (fun _ => True) item Den (fun b w => w = y b) F Parses.Closes)
    (hy : ∀ b, Derivation.StartsEntry (y b))
    (hclose : ∀ b u, F b (.sign .braceClose :: u)) (hentry : ∀ b b' u, F b (y b' ++ u))
    (hden : ∀ bs as semi span, List.Forall₂ Den bs as → Den' (g bs semi) (f as span))
    (hF : ∀ bs semi rest, F' (g bs semi) rest ↔ (semi = false → Clear .semicolon rest)) :
    Parses P (block item >>= fun as => closing start >>= fun span => pure (f as span)) Den'
      (fun d w => ∃ bs semi, d = g bs semi ∧ w = Derivation.braced y bs semi) F' nowhere :=
  (parses_braced' h (fun _ _ => id) hy hclose hentry hden hF).widen
    fun _ _ ⟨_, _, _, _, _, hm, hw⟩ => nomatch hm.symm.trans hw.2

/-- The brace that opens a block ends a list of names before it, so that the list is `Clear` of
it. -/
theorem clear_before_braced {sign : Kind} {bs : List β} {semi : Bool} {r : Option Derivation.Refs}
    {rest : Phrase} (hsign : sign ≠ .braceOpen) :
    Clear (if r.isSome then .comma else sign) (Derivation.braced y bs semi ++ rest) := by
  cases r <;> simp [Derivation.braced, hsign.symm]

end Braced

/-- A member that annotations stand before denotes a member with these annotations: `Construct.tree`
up to spans. -/
def DenotesWith (annots : List Annot) (c : Derivation.Construct) (m : Member) : Prop :=
  erase m = c.tree annots

variable {as annots : List Annot} {start : Span}

/-- The start of a phrase is `Viable`, if the construct of the phrase keeps the annotations it is
given. -/
theorem Viable.of_construct {L : Derivation.Construct → Phrase → Prop} {w : Phrase}
    (hannots : erase annots = as) (c : Derivation.Construct) (u : Phrase)
    (hc : erase (c.tree annots) = c.tree (erase annots)) (h : L c (w ++ u)) :
    Viable (DenotesWith as) L w :=
  ⟨c, c.tree annots, u, hc.trans (by rw [hannots]), h⟩

/-- An environment is read by `environment`, behind its annotations. -/
theorem parses_environment (hannots : erase annots = as) :
    Parses P (environment annots start)
      (fun (p : Name × Option Derivation.Refs × List Derivation.EnvironmentEntry × Bool) e =>
        DenotesWith as (.environment p.1 p.2.1 p.2.2.1 p.2.2.2) (.environment e))
      (fun p w => w = (Derivation.Construct.environment p.1 p.2.1 p.2.2.1 p.2.2.2).yield)
      (FollowsEnded fun p => p.2.2.2) nowhere := by
  refine .congr (.wordThen (by decide) (parses_ident.andThen fun n name hname =>
    (parses_refsAfter (by decide)).bind (fun r refs hrefs =>
      parses_braced (g := fun es semi => (n, r, es, semi)) parses_environmentEntry
        Derivation.EnvironmentEntry.startsEntry ?_
        (followsEnded_of_startsEntry Derivation.EnvironmentEntry.startsEntry) ?_ ?_) ?_)) ?_ ?_
  · intro e u _
    simp
  · intro es entries semi span hentries
    show Member.environment ⟨erase annots, erase name, erase refs, erase entries, default⟩ = _
    rw [hannots, hname, hrefs, erase_eq_map hentries]
    rfl
  · exact fun _ _ _ => .rfl
  · rintro r _ w rest - ⟨es, semi, rfl, rfl⟩ -
    exact clear_before_braced (by decide)
  · rintro _ w ⟨_, rfl, n, _, rfl, r, _, rfl, es, semi, rfl, rfl⟩
    rfl
  · rintro ⟨n, r, es, semi⟩ w rest - rfl -
    exact ⟨_, rfl, n, _, rfl, r, _, rfl, es, semi, rfl, rfl⟩

end Rule

end Gxl
