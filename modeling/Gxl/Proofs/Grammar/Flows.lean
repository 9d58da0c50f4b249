import Gxl.Proofs.Grammar.Environments

/-!
# Reading flows

A flow and a name for flows start with the same word.  What stands behind it tells them apart: an
at sign, or a name and the token behind that (`second_of_flow`).
-/

namespace Gxl.Rule

open Gxl.Derivation (Name)

variable {P : Phrase → Prop} {as annots : List Annot} {start : Span}

/-! ## Entries of flows -/

/-- The second token of an entry that starts with a word tells a `property` from a `command`. -/
theorem second_of_flowEntry {e : Derivation.FlowEntry} {n : Name} {t : Symbol} {rest : Phrase}
    (h : [n.symbol, t] <+: e.yield ++ rest) :
    (∃ p, e = .property p ∧ t.kind = .equals) ∨ (∃ c, e = .command c ∧ t.kind ≠ .equals) := by
  cases e with
  | property p =>
    simp [Derivation.FlowEntry.yield, Derivation.Property.yield, List.cons_prefix_cons] at h
    exact .inl ⟨p, rfl, by simp [h]⟩
  | command c =>
    refine .inr ⟨c, rfl, ?_⟩
    cases c with
    | builtin b args =>
      simp [Derivation.FlowEntry.yield, Derivation.Command.yield, List.cons_prefix_cons] at h
      exact absurd (congrArg Symbol.kind h.1) (by simp)
    | call d args => rcases second_of_call h with ht | ht <;> simp [ht]

/-- A command is an entry of a flow, where it cannot be a property (`Flow.Entry.command`). -/
theorem parses_flowCommand (hstarts : ∀ v, P v → At .builtin v ∨ At .ident v)
    (hP : ∀ v, P v → ∀ p rest, v ≠ Derivation.Property.yield p ++ rest) :
    Parses P (command >>= fun c => pure (Flow.Entry.command c)) (Denotes Derivation.FlowEntry.tree)
      (fun e w => w = e.yield) (fun _ _ => True) nowhere := by
  refine (parses_command hstarts).build .command (fun _ _ => congrArg Flow.Entry.command)
    (fun _ _ => id) (fun _ _ _ _ _ => id) ?_
  rintro (c | p) w rest hv rfl -
  · exact ⟨c, rfl, rfl, trivial⟩
  · exact absurd rfl (hP _ hv p rest)

/-- An entry of a flow is read by `flowEntry`.  Behind a word, the second token tells what it is. -/
theorem parses_flowEntry :
    Parses P flowEntry (Denotes Derivation.FlowEntry.tree) (fun e w => w = e.yield)
      (fun _ _ => True) Parses.Closes := by
  refine .anywhere (.peek_bind fun t ht => ?_)
  split
  · rename_i hkind
    refine .of_nowhere (parses_flowCommand (fun v hv => .inl ⟨t.symbol, ht, hkind, hv.2⟩) ?_)
    rintro v hv p rest rfl
    exact absurd (hv.2.kind_eq.trans hkind) (by simp)
  · rename_i hkind
    refine parses_wordEntry .property .property ht hkind Derivation.FlowEntry.startsEntry
      (fun _ => rfl) (fun _ _ => congrArg Flow.Entry.property) (fun _ _ => trivial) ?_ ?_ ?_
    · intro u hequals
      rw [if_pos (by simp [hequals])]
    · intro n e s rest hpair hs
      rcases second_of_flowEntry hpair with ⟨p, rfl, -⟩ | ⟨c, -, hne⟩
      · exact ⟨p, rfl⟩
      · exact absurd hs hne
    · intro n u hn hequals
      rw [if_neg (by simpa using hequals)]
      refine .reads (fun s => s.kind ≠ .equals) hequals (.of_nowhere (parses_flowCommand
        (fun v hv => .inr ⟨n.symbol, .inl n.genuine_symbol, rfl, hv.1.2⟩) ?_)) ?_
      · rintro v ⟨-, s, hpair, hs⟩ p rest rfl
        simp [Derivation.Property.yield, List.cons_prefix_cons] at hpair
        simp [hpair] at hs
      · exact ⟨_, .command (.call ⟨n, []⟩ []), _, .sign .parenOpen,
          .intro _ [] ⟨trivial, rfl⟩ trivial, ⟨_, rfl⟩, by simp⟩
  · rename_i hbuiltin hident
    refine .fail (.of_tree (.command default) _ rfl rfl)
      (.of_forall ⟨?_, ?_, .outer ⟨rfl, rfl⟩⟩) ?_
    · exact .property default (.of_tree (.property default) [] rfl rfl)
    · exact .command default (.of_tree (.command default) [] rfl rfl)
    intro e w rest hv hw _
    subst hw
    cases e with
    | property p => exact hident hv.2.kind_eq.symm
    | command c =>
      rcases kind_of_command hv.2 with h | h
      · exact hbuiltin h
      · exact hident h

/-! ## Flows and names for flows -/

/-- A flow is read by `flowFrom`, once the names before it are. -/
theorem parses_flowFrom {b : Option Derivation.Refs} {before : Option RefList}
    (hannots : erase annots = as) (hbefore : erase before = b.map Derivation.Refs.tree) :
    Parses P (flowFrom annots before start)
      (fun (p : Name × Option Derivation.Refs × List Derivation.FlowEntry × Bool) x =>
        DenotesWith as (.flow b p.1 p.2.1 p.2.2.1 p.2.2.2) (.flow x))
      (fun p w => w = .sign .atSign :: p.1.symbol :: (Derivation.Refs.yieldAfter .pipe p.2.1
        ++ Derivation.braced Derivation.FlowEntry.yield p.2.2.1 p.2.2.2))
      (FollowsEnded fun p => p.2.2.2) nowhere := by
  refine .congr (.signThen (by decide) (parses_ident.andThen fun n name hname =>
    (parses_refsAfter (by decide)).bind (fun r after hafter =>
      parses_braced (g := fun es semi => (n, r, es, semi)) parses_flowEntry
        Derivation.FlowEntry.startsEntry (fun _ _ => trivial) (fun _ _ _ => trivial) ?_ ?_) ?_))
    ?_ ?_
  · intro es entries semi span hentries
    show Member.flow ⟨erase annots, erase before, erase name, erase after, erase entries,
      default⟩ = _
    rw [hannots, hbefore, hname, hafter, erase_eq_map hentries]
    rfl
  · exact fun _ _ _ => .rfl
  · rintro r _ w rest - ⟨es, semi, rfl, rfl⟩ -
    exact clear_before_braced (by decide)
  · rintro _ w ⟨_, rfl, n, _, rfl, r, _, rfl, es, semi, rfl, rfl⟩
    rfl
  · rintro ⟨n, r, es, semi⟩ w rest - rfl -
    exact ⟨_, rfl, n, _, rfl, r, _, rfl, es, semi, rfl, rfl⟩

/-- A name for other flows is read by `flowAlias`, once its keyword is. -/
theorem parses_flowAlias (hannots : erase annots = as) :
    Parses P (flowAlias annots start)
      (fun (p : Name × Derivation.Refs) x => DenotesWith as (.flowAlias p.1 p.2) (.flowAlias x))
      (fun p w => w = p.1.symbol :: .sign .colon :: (p.2.yield ++ [.sign .semicolon]))
      (fun _ _ => True) nowhere := by
  refine .congr (parses_ident.andThen fun n name hname => .signThen (by decide)
    (parses_refList.bind (fun r targets htargets => .signThen (by decide)
      (.spanFrom_bind fun span => .pure (n, r) ?_ fun _ _ => trivial)) ?_)) ?_ ?_
  · show Member.flowAlias ⟨erase annots, erase name, erase targets, default⟩ = _
    rw [hannots, hname, htargets]
    rfl
  · rintro r _ w rest - ⟨w', rfl, -⟩ -
    simp
  · rintro _ w ⟨n, _, rfl, _, rfl, r, _, rfl, _, rfl, rfl, rfl⟩
    rfl
  · rintro ⟨n, r⟩ w rest - rfl -
    exact ⟨n, _, rfl, _, rfl, r, _, rfl, [], rfl, rfl, rfl⟩

/-- What is left of a flow or a name for flows behind its keyword `flow`. -/
def BehindFlow (c : Derivation.Construct) (w : Phrase) : Prop :=
  c.yield = .word "flow" :: w

/-- What starts with the word `flow` is a flow or a name for flows. -/
theorem cases_of_flow {c : Derivation.Construct} {w : Phrase} (h : BehindFlow c w) :
    (∃ before name after entries semi, c = .flow before name after entries semi ∧
      w = Derivation.Construct.yieldBefore before ++ .sign .atSign :: name.symbol ::
        (Derivation.Refs.yieldAfter .pipe after
          ++ Derivation.braced Derivation.FlowEntry.yield entries semi)) ∨
      (∃ name targets, c = .flowAlias name targets ∧
        w = name.symbol :: .sign .colon :: (targets.yield ++ [.sign .semicolon])) := by
  cases c with
  | flow before name after entries semi =>
    exact .inl ⟨before, name, after, entries, semi, rfl, (List.cons.inj h).2.symm⟩
  | flowAlias name targets => exact .inr ⟨name, targets, rfl, (List.cons.inj h).2.symm⟩
  | environment | fn | activity => exact absurd (List.cons.inj h).1 (by decide)

/-- Behind the first name, the next token tells a `flow` from a `flowAlias`. -/
theorem second_of_flow {c : Derivation.Construct} {n : Name} {t : Symbol} {w rest : Phrase}
    (hc : BehindFlow c w) (h : [n.symbol, t] <+: w ++ rest) :
    (∃ name targets, c = .flowAlias name targets ∧ t.kind = .colon) ∨
      ((t.kind = .comma ∨ t.kind = .pipe) ∧
        ∃ r name after entries semi, c = .flow (some r) name after entries semi) := by
  rcases cases_of_flow hc with
    ⟨before, name, after, entries, semi, rfl, rfl⟩ | ⟨name, targets, rfl, rfl⟩
  · rcases before with _ | ⟨m, _ | ⟨m', ns⟩⟩
    · simp [Derivation.Construct.yieldBefore, List.cons_prefix_cons] at h
      exact absurd (congrArg Symbol.kind h.1) (by simp)
    · simp [Derivation.Construct.yieldBefore, Derivation.Refs.yield, separated,
        List.cons_prefix_cons] at h
      exact .inr ⟨by simp [h], _, name, after, entries, semi, rfl⟩
    · simp [Derivation.Construct.yieldBefore, Derivation.Refs.yield, separated,
        List.cons_prefix_cons] at h
      exact .inr ⟨by simp [h], _, name, after, entries, semi, rfl⟩
  · simp [List.cons_prefix_cons] at h
    exact .inl ⟨name, targets, rfl, by simp [h]⟩

/-- A flow without names before it is read by `flowFrom`, at the `@`. -/
theorem parses_flowBare (hannots : erase annots = as) (hP : ∀ v, P v → At .atSign v) :
    Parses P (flowFrom annots none start >>= fun x => pure (Member.flow x)) (DenotesWith as)
      BehindFlow (FollowsEnded Derivation.Construct.ended) nowhere := by
  refine (parses_flowFrom (b := none) hannots rfl).build
    (fun p => .flow none p.1 p.2.1 p.2.2.1 p.2.2.2) (fun _ _ => id) ?_ (fun _ _ _ _ _ => id) ?_
  · rintro p w rfl
    rfl
  · intro c w rest hv hc hF
    obtain ⟨s, -, hkind, hs⟩ := hP _ hv
    rcases cases_of_flow hc with ⟨_ | r, name, after, entries, semi, rfl, rfl⟩ | ⟨n, r, rfl, rfl⟩
    · exact ⟨(name, after, entries, semi), rfl, rfl, hF⟩
    · exact absurd (hs.kind_eq.trans hkind) (by simp)
    · exact absurd (hs.kind_eq.trans hkind) (by simp)

/-- A flow with names before it is read: the part of the rule `flow` for them. -/
theorem parses_flowBehind (hannots : erase annots = as)
    (hP : ∀ v, P v → ∀ c w rest, v = w ++ rest → BehindFlow c w →
      ∃ r name after entries semi, c = Derivation.Construct.flow (some r) name after entries semi) :
    Parses P (do
        let before ← refList
        discard <| expect .pipe
        return .flow (← flowFrom annots (some before) start))
      (DenotesWith as) BehindFlow (FollowsEnded Derivation.Construct.ended) nowhere := by
  refine .congr (parses_refList.bind (fun r before hbefore => .signThen (by decide)
    ((parses_flowFrom (b := some r) hannots ?_).bind (fun p x hx =>
      .pure (Derivation.Construct.flow (some r) p.1 p.2.1 p.2.2.1 p.2.2.2) hx fun _ hv => hv) ?_))
    ?_) ?_ ?_
  · show some (erase before) = _
    rw [hbefore]
    rfl
  · rintro p _ w rest - ⟨rfl, rfl⟩ hF
    exact hF
  · rintro r _ w rest - ⟨w', rfl, -⟩ -
    simp
  · rintro _ w ⟨r, _, rfl, _, rfl, p, _, rfl, rfl, rfl⟩
    simp [BehindFlow, Derivation.Construct.yield, Derivation.Construct.yieldBefore]
  · intro c w rest hv hc _
    obtain ⟨r, name, after, entries, semi, rfl⟩ := hP _ hv c w rest rfl hc
    obtain rfl := (List.cons.inj hc).2
    refine ⟨r, _, ?_, _, rfl, (name, after, entries, semi), [], (List.append_nil _).symm, rfl, rfl⟩
    simp [Derivation.Construct.yieldBefore]

/-- A construct that ends with a semicolon is read from its own phrase, behind its keyword: the form
of `Reads` for it. -/
theorem reads_behindFlow {s : Symbol} {c : Derivation.Construct} {w : Phrase} (hc : BehindFlow c w)
    (hs : Starts s w) (hended : c.ended = true) :
    Reads (fun v => True ∧ Starts s v) BehindFlow (FollowsEnded Derivation.Construct.ended) w c w :=
  ⟨[], (List.append_nil w).symm, ⟨trivial, hs⟩, hc, by simp [FollowsEnded, hended]⟩

/-- What is read behind the first name of a flow or a name for flows, by the kind of the token `u`
behind that name. -/
theorem second_flow (hannots : erase annots = as) (n : Name) (u : Token) :
    Parses.Second (fun v => True ∧ Starts n.symbol v) (DenotesWith as) BehindFlow
      (FollowsEnded Derivation.Construct.ended) nowhere n.symbol u.symbol
      (match u.kind with
        | .colon => flowAlias annots start >>= fun x => pure (Member.flowAlias x)
        | .comma | .pipe => do
          let before ← refList
          discard <| expect .pipe
          return .flow (← flowFrom annots (some before) start)
        | _ => do
          discard advance
          fail [.token .colon, .token .comma, .token .pipe]) := by
  have hbehind : u.kind = .comma ∨ u.kind = .pipe →
      Parses.Second (fun v => True ∧ Starts n.symbol v) (DenotesWith as) BehindFlow
        (FollowsEnded Derivation.Construct.ended) nowhere n.symbol u.symbol (do
          let before ← refList
          discard <| expect .pipe
          return .flow (← flowFrom annots (some before) start)) := by
    intro hu
    refine .reads (fun s => s.kind = .comma ∨ s.kind = .pipe) hu (parses_flowBehind hannots ?_) ?_
    · rintro v ⟨-, s, hpair, hs⟩ c w rest rfl hc
      rcases second_of_flow hc hpair with ⟨_, _, -, hcolon⟩ | ⟨-, hc'⟩
      · simp [hcolon] at hs
      · exact hc'
    · exact ⟨_, .flow (some ⟨n, []⟩) n none [] true, _, .sign .pipe, reads_behindFlow rfl rfl rfl,
        ⟨_, rfl⟩, .inr rfl⟩
  split
  · rename_i hcolon
    refine .reads (fun s => s.kind = .colon) hcolon ((parses_flowAlias hannots).build
      (fun p => .flowAlias p.1 p.2) (fun _ _ => id) ?_ (fun _ _ _ _ _ _ => nofun) ?_) ?_
    · rintro p w rfl
      rfl
    · rintro c w rest ⟨-, s, hpair, hs⟩ hc -
      rcases second_of_flow hc hpair with ⟨name, targets, rfl, -⟩ | ⟨h, -⟩
      · exact ⟨(name, targets), rfl, (List.cons.inj hc).2.symm, trivial⟩
      · simp [hs] at h
    · exact ⟨_, .flowAlias n ⟨n, []⟩, _, .sign .colon, reads_behindFlow rfl rfl rfl, ⟨_, rfl⟩, rfl⟩
  · rename_i hcomma
    exact hbehind (.inl hcomma)
  · rename_i hpipe
    exact hbehind (.inr hpipe)
  · rename_i hcolon hcomma hpipe
    refine .fails (.of_forall ⟨?_, ?_, ?_⟩) ?_
    · exact .token (s := .sign .colon) (.of_construct hannots (.flowAlias n ⟨n, []⟩) _ rfl rfl)
    · exact .token (s := .sign .comma)
        (.of_construct hannots (.flow (some ⟨n, [n]⟩) n none [] true) _ rfl rfl)
    · exact .token (s := .sign .pipe)
        (.of_construct hannots (.flow (some ⟨n, []⟩) n none [] true) _ rfl rfl)
    rintro v c w ⟨rest, rfl, -, hc, -⟩ hpair
    rcases second_of_flow hc hpair with ⟨_, _, -, h⟩ | ⟨h | h, -⟩
    · exact hcolon h
    · exact hcomma h
    · exact hpipe h

/-- A flow or a name for flows is read by `flow`. -/
theorem parses_flow (hannots : erase annots = as) :
    Parses P (flow annots start) (DenotesWith as)
      (fun c w => w = c.yield ∧ Starts (.word "flow") w)
      (FollowsEnded Derivation.Construct.ended) nowhere := by
  -- the keyword tells nothing: both kinds start with it
  suffices h : Parses (fun _ => True) _ (DenotesWith as) BehindFlow
      (FollowsEnded Derivation.Construct.ended) nowhere by
    refine .congr (.wordThen (by decide) h) ?_ ?_
    · rintro c w ⟨w', rfl, hc⟩
      exact ⟨hc.symm, rfl⟩
    · rintro c w rest - ⟨rfl, hs⟩ -
      obtain ⟨w', hw'⟩ := List.head?_eq_some_iff.1 hs
      exact ⟨w', hw', hw'⟩
  refine .peek_bind fun t ht => ?_
  split
  · rename_i hkind
    exact parses_flowBare hannots fun v hv => ⟨t.symbol, ht, hkind, hv.2⟩
  · rename_i hkind
    have hgenuine : t.symbol.genuine = true := ht.resolve_right (by simp [hkind])
    obtain ⟨n, hn⟩ := Name.exists_symbol hgenuine hkind
    rw [← hn] at hgenuine ⊢
    refine .peekSecond_bind hgenuine (fun v hv => hv.2) ?_
      (.of_construct hannots (.flowAlias n ⟨n, []⟩) _ rfl rfl) ?_
    · intro c hnil
      rcases cases_of_flow hnil with ⟨_, _, _, _, _, -, hfalse⟩ | ⟨_, _, -, hfalse⟩ <;>
        simp at hfalse
    · exact fun u _ => second_flow hannots n u
  · rename_i hat hident
    have hflow : Viable (DenotesWith as) BehindFlow [.sign .atSign] :=
      .of_construct hannots (.flow none default none [] true) _ rfl rfl
    refine .fail (hflow.of_append (u := [])) (.of_forall ⟨?_, ?_⟩) ?_
    · exact .token (s := .sign .atSign) hflow
    · exact .token (s := .word "x")
        (.of_construct hannots (.flowAlias default ⟨default, []⟩) _ rfl rfl)
    intro c w rest hv hc _
    rcases cases_of_flow hc with ⟨_ | r, name, after, entries, semi, rfl, rfl⟩ | ⟨n, r, rfl, rfl⟩
    · exact hat hv.2.kind_eq.symm
    · exact hident hv.2.kind_eq.symm
    · exact hident hv.2.kind_eq.symm

end Gxl.Rule
