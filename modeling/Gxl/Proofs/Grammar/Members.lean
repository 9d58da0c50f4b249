import Gxl.Proofs.Grammar.Flows

/-!
# Reading functions, activities and members

The rest of the rules of `Gxl.Grammar.Member`.  A member that starts with a word is told by the
token behind it, since every word may be the key of a property.

This is the one rule that looks ahead and then reports the first of the two tokens: a word that
opens no member and is no key.  `LateMember` says so of the start of a member, and that there the
module may end as well.
-/

namespace Gxl.Rule

open Gxl.Derivation (Name)

variable {P : Phrase → Prop} {as annots : List Annot} {start : Span}

/-! ## Functions -/

/-- A parameter is read from its name on: what is left of the rule `param` once `variadic` is
known. -/
theorem parses_paramTail (variadic : Bool) (start : Span) :
    Parses P (do
        let name ← ident
        let fallback ← do
          match ← eat .equals with
          | some _ => pure (some (← string))
          | none => pure none
        return (⟨variadic, name, fallback, ← spanFrom start⟩ : Param))
      (Denotes Derivation.Param.tree)
      (fun p w => p.variadic = variadic ∧ w = p.name.symbol :: match p.fallback with
        | none => []
        | some value => [.sign .equals, value.symbol])
      (fun p rest => p.fallback = none → Clear .equals rest) nowhere := by
  refine .congr (parses_ident.andThen fun n name hname => .eat_bind (by decide)
    (fun _ _ => parses_string.andThen fun s value hvalue => .pure_bind (.spanFrom_bind fun span =>
      .pure (⟨variadic, n, some s⟩ : Derivation.Param) ?_ ?_))
    (.pure_bind (.spanFrom_bind fun span =>
      .pure (⟨variadic, n, none⟩ : Derivation.Param) ?_ fun _ hv _ => hv)) ?_) ?_ ?_
  · show (⟨variadic, erase name, some (erase value), default⟩ : Param) = _
    rw [hname, hvalue]
    rfl
  · simp
  · show (⟨variadic, erase name, none, default⟩ : Param) = _
    rw [hname]
    rfl
  · rintro p w rest ⟨rfl, rfl⟩ hF
    exact hF rfl
  · rintro p w ⟨n, _, rfl, ⟨_, rfl, s, _, rfl, rfl, rfl⟩ | ⟨rfl, rfl⟩⟩
    · exact ⟨rfl, rfl⟩
    · exact ⟨rfl, rfl⟩
  · rintro ⟨v, n, _ | s⟩ w rest - ⟨rfl, rfl⟩ -
    · exact ⟨n, _, rfl, .inr ⟨rfl, rfl⟩⟩
    · exact ⟨n, _, rfl, .inl ⟨_, rfl, s, [], rfl, rfl, rfl⟩⟩

/-- A parameter is read by `param`. -/
theorem parses_param :
    Parses P param (Denotes Derivation.Param.tree) (fun p w => w = p.yield)
      (fun p rest => p.fallback = none → Clear .equals rest) nowhere := by
  refine .peek_bind fun t ht => .congr (.eat_bind (by decide)
    (fun _ _ => parses_paramTail true t.span) (parses_paramTail false t.span) ?_) ?_ ?_
  · rintro p w rest ⟨-, rfl⟩ -
    simp
  · rintro ⟨v, n, fallback⟩ w (⟨_, rfl, hv, rfl⟩ | ⟨hv, rfl⟩)
    · obtain rfl : v = true := hv
      rfl
    · obtain rfl : v = false := hv
      rfl
  · rintro ⟨_ | _, n, fallback⟩ w rest - rfl -
    · exact .inr ⟨rfl, rfl⟩
    · exact .inl ⟨_, rfl, rfl, rfl⟩

/-- The parameters of a function are read by `params`, also when there are none. -/
theorem parses_params :
    Parses P params (List.Forall₂ (Denotes Derivation.Param.tree))
      (fun ps w => w = .sign .parenOpen :: (separated Derivation.Param.yield ps
        ++ [.sign .parenClose]))
      (fun _ _ => True) nowhere := by
  refine .congr (.signThen (by decide) (.atKind_ite_bind
    ((Parses.commaListUnless parses_param ?_).bind (fun ds ps hps => .signThen (by decide)
      (.pure ds hps fun _ _ => trivial)) ?_))) ?_ ?_
  · rintro ⟨_ | _, n, fallback⟩ u <;> simp [Derivation.Param.yield]
  · rintro ds _ w rest - ⟨w', rfl, -⟩ -
    exact .intro (by decide) (by decide) (by simp) (by simp) ds _
  · rintro _ w ⟨_, rfl, ds, _, rfl, _, rfl, rfl, rfl⟩
    rfl
  · rintro ds w rest - rfl -
    exact ⟨_, rfl, ds, _, rfl, [], rfl, rfl, rfl⟩

/-- A command in the body of a function is read by `fnEntry`, which expects nothing else but the
closing brace. -/
theorem parses_fnEntry :
    Parses P fnEntry (Denotes Derivation.Command.tree) (fun c w => w = c.yield) (fun _ _ => True)
      Parses.Closes := by
  refine .peek_bind fun t ht => ?_
  split
  · rename_i hkind
    exact .of_nowhere (parses_command fun v hv => .inl ⟨t.symbol, ht, hkind, hv.2⟩)
  · rename_i hkind
    exact .of_nowhere (parses_command fun v hv => .inr ⟨t.symbol, ht, hkind, hv.2⟩)
  · rename_i hbuiltin hident
    refine .fail (.of_tree default _ rfl rfl)
      (.of_forall ⟨.command default ?_, .outer ⟨rfl, rfl⟩⟩) ?_
    · exact .of_tree default [] rfl rfl
    intro c w rest hv hw _
    subst hw
    rcases kind_of_command hv.2 with h | h
    · exact hbuiltin h
    · exact hident h

/-- A function is read by `fn`, behind its annotations. -/
theorem parses_fn (hannots : erase annots = as) :
    Parses P (fn annots start)
      (fun (p : Name × List Derivation.Param × List Derivation.Command × Bool) x =>
        DenotesWith as (.fn p.1 p.2.1 p.2.2.1 p.2.2.2) (.fn x))
      (fun p w => w = (Derivation.Construct.fn p.1 p.2.1 p.2.2.1 p.2.2.2).yield)
      (FollowsEnded fun p => p.2.2.2) nowhere := by
  refine .congr (.wordThen (by decide) (parses_ident.andThen fun n name hname =>
    parses_params.andThen fun ds ps hps =>
      parses_braced (g := fun cs semi => (n, ds, cs, semi)) parses_fnEntry
        Derivation.Command.startsEntry (fun _ _ => trivial) (fun _ _ _ => trivial) ?_ ?_)) ?_ ?_
  · intro cs body semi span hbody
    show Member.fn ⟨erase annots, erase name, erase ps, erase body, default⟩ = _
    rw [hannots, hname, erase_eq_map hps, erase_eq_map hbody]
    rfl
  · exact fun _ _ _ => .rfl
  · rintro _ w ⟨_, rfl, n, _, rfl, ds, _, rfl, cs, semi, rfl, rfl⟩
    simp [Derivation.Construct.yield]
  · rintro ⟨n, ds, cs, semi⟩ w rest - rfl -
    refine ⟨_, rfl, n, _, rfl, ds, Derivation.braced Derivation.Command.yield cs semi, ?_, cs, semi,
      rfl, rfl⟩
    simp

/-! ## Activities -/

/-- A property in an activity is read by `activityEntry`. -/
theorem parses_activityEntry :
    Parses P activityEntry (Denotes Derivation.Property.tree) (fun p w => w = p.yield)
      (fun _ _ => True) Parses.Closes := by
  refine .atKind_ite ?_ ?_
  · exact fun s hs hkind => .of_nowhere parses_property
  · intro s hs hkind
    refine .fail (.of_tree default _ rfl rfl)
      (.of_forall ⟨.property default ?_, .outer ⟨rfl, rfl⟩⟩) ?_
    · exact .of_tree default [] rfl rfl
    intro p w rest hv hw _
    subst hw
    exact hkind hv.2.kind_eq.symm

/-- An activity is read by `activity`, behind its annotations. -/
theorem parses_activity (hannots : erase annots = as) :
    Parses P (activity annots start)
      (fun (p : Name × List Derivation.Property × Bool) a =>
        DenotesWith as (.activity p.1 p.2.1 p.2.2) (.activity a))
      (fun p w => w = (Derivation.Construct.activity p.1 p.2.1 p.2.2).yield)
      (FollowsEnded fun p => p.2.2) nowhere := by
  refine .congr (.wordThen (by decide) (parses_ident.andThen fun n name hname =>
    parses_braced (g := fun ps semi => (n, ps, semi)) parses_activityEntry
      Derivation.Property.startsEntry (fun _ _ => trivial) (fun _ _ _ => trivial) ?_ ?_)) ?_ ?_
  · intro ds props semi span hprops
    show Member.activity ⟨erase annots, erase name, erase props, default⟩ = _
    rw [hannots, hname, erase_eq_map hprops]
    rfl
  · exact fun _ _ _ => .rfl
  · rintro _ w ⟨_, rfl, n, _, rfl, ps, semi, rfl, rfl⟩
    rfl
  · rintro ⟨n, ps, semi⟩ w rest - rfl -
    exact ⟨_, rfl, n, _, rfl, ps, semi, rfl, rfl⟩

/-! ## Members -/

/-- A member without annotations starts with one of `memberWords`, and no equals sign follows. -/
theorem yield_construct (c : Derivation.Construct) :
    ∃ word ∈ memberWords, ∃ s u, c.yield = .word word :: s :: u ∧ s.kind ≠ .equals := by
  cases c with
  | environment name refs entries semi =>
    exact ⟨"env", by decide, _, _, rfl, by simp⟩
  | flow before name after entries semi =>
    cases before with
    | none => exact ⟨"flow", by decide, _, _, rfl, by simp⟩
    | some r => exact ⟨"flow", by decide, _, _, rfl, by simp⟩
  | flowAlias name targets => exact ⟨"flow", by decide, _, _, rfl, by simp⟩
  | fn name params body semi => exact ⟨"fn", by decide, _, _, rfl, by simp⟩
  | activity name props semi => exact ⟨"activity", by decide, _, _, rfl, by simp⟩

/-- Each of `memberWords` opens some member. -/
theorem exists_construct {word : String} (h : word ∈ memberWords) :
    ∃ c : Derivation.Construct, Starts (.word word) c.yield ∧ c.ended = true ∧
      ∀ annots, erase (c.tree annots) = c.tree (erase annots) := by
  have hx : Lexeme.isWord "x".toList = true := by decide
  simp only [memberWords, List.mem_cons, List.not_mem_nil, or_false] at h
  rcases h with rfl | rfl | rfl | rfl
  · exact ⟨.environment ⟨"x", hx⟩ none [] true, rfl, rfl, fun _ => rfl⟩
  · exact ⟨.flow none ⟨"x", hx⟩ none [] true, rfl, rfl, fun _ => rfl⟩
  · exact ⟨.fn ⟨"x", hx⟩ [] [] true, rfl, rfl, fun _ => rfl⟩
  · exact ⟨.activity ⟨"x", hx⟩ [] true, rfl, rfl, fun _ => rfl⟩

/-- A member is read by `memberAfter` from the word that opens it on. -/
theorem parses_memberAfter (hannots : erase annots = as) :
    Parses P (memberAfter annots start) (DenotesWith as) (fun c w => w = c.yield)
      (FollowsEnded Derivation.Construct.ended) nowhere := by
  refine .atWord_ite ?_ (.atWord_ite ?_ (.atWord_ite ?_ ?_))
  · refine (parses_environment hannots).build (fun p => .environment p.1 p.2.1 p.2.2.1 p.2.2.2)
      (fun _ _ => id) (fun _ _ => id) (fun _ _ _ _ _ => id) ?_
    intro c w rest hv hw hF
    subst hw
    cases c with
    | environment name refs entries semi => exact ⟨(name, refs, entries, semi), rfl, rfl, hF⟩
    | flow | flowAlias | fn | activity => exact absurd (starts_cons.1 hv.2) (by decide)
  · refine (parses_flow hannots).congr (fun _ _ h => h.1) ?_
    intro c w rest hv hw _
    subst hw
    obtain ⟨word, -, s, u, hc, -⟩ := yield_construct c
    refine ⟨rfl, ?_⟩
    rw [hc] at hv ⊢
    exact hv.2
  · refine (parses_fn hannots).build (fun p => .fn p.1 p.2.1 p.2.2.1 p.2.2.2) (fun _ _ => id)
      (fun _ _ => id) (fun _ _ _ _ _ => id) ?_
    intro c w rest hv hw hF
    subst hw
    cases c with
    | fn name params body semi => exact ⟨(name, params, body, semi), rfl, rfl, hF⟩
    | environment | flow | flowAlias | activity => exact absurd (starts_cons.1 hv.2) (by decide)
  · refine (parses_activity hannots).build (fun p => .activity p.1 p.2.1 p.2.2) (fun _ _ => id)
      (fun _ _ => id) (fun _ _ _ _ _ => id) ?_
    intro c w rest hv hw hF
    subst hw
    -- no word is left but `activity`
    cases c with
    | activity name props semi => exact ⟨(name, props, semi), rfl, rfl, hF⟩
    | environment => exact absurd rfl hv.1.1.2
    | flow | flowAlias => exact absurd rfl hv.1.2
    | fn => exact absurd rfl hv.2

/-- A member starts as entries do (`StartsEntry`), with an annotation or a word. -/
theorem startsEntry_member (m : Derivation.Member) : Derivation.StartsEntry m.yield := by
  rcases m with p | ⟨_ | ⟨a, annots⟩, c⟩
  · exact p.startsEntry
  · obtain ⟨word, -, s, u, hc, -⟩ := yield_construct c
    exact ⟨.word word, s :: u, hc, .inl rfl⟩
  · exact ⟨_, _, rfl, .inr (.inr rfl)⟩

/-- The second token of a member that starts with a word tells a `property` from a `construct`. -/
theorem second_of_member {m : Derivation.Member} {n : Name} {t : Symbol} {rest : Phrase}
    (h : [n.symbol, t] <+: m.yield ++ rest) :
    (∃ p, m = .property p ∧ t.kind = .equals) ∨
      (∃ c, m = .construct [] c ∧ n.text ∈ memberWords ∧ t.kind ≠ .equals) := by
  rcases m with p | ⟨_ | ⟨a, annots⟩, c⟩
  · simp [Derivation.Member.yield, Derivation.Property.yield, List.cons_prefix_cons] at h
    exact .inl ⟨p, rfl, by simp [h]⟩
  · obtain ⟨word, hword, s, u, hc, hs⟩ := yield_construct c
    simp [Derivation.Member.yield, hc, List.cons_prefix_cons] at h
    have htext : n.text = word := congrArg Symbol.text h.1
    exact .inr ⟨c, rfl, htext ▸ hword, h.2 ▸ hs⟩
  · simp [Derivation.Member.yield, Derivation.Annot.yield, List.cons_prefix_cons] at h
    exact absurd (congrArg Symbol.kind h.1) (by simp)

/-- A word that opens no member, and a token behind it that makes it no key either: a remark
`late`. -/
def Strays : Remark → Prop
  | .late s t => s.kind = .ident ∧ s.text ∉ memberWords ∧ t.kind ≠ .equals
  | .outer _ => False

/-- The start of a member, where a word that opens none is reported though it is the token behind it
that tells so (`Strays`), and where the brace that closes the module may stand. -/
def LateMember (w : Phrase) (m : Remark) : Prop :=
  (w = [] ∧ Strays m) ∨ Parses.Closes w m

/-- A word opens a member exactly if it is one of `memberWords`. -/
theorem opensMember_iff {t : Token} (hkind : t.kind = .ident) :
    opensMember t = true ↔ t.text ∈ memberWords := by
  simp [opensMember, hkind]

/-- What else may stand behind annotations: another one, as an `outer` remark. -/
def Reopens (w : Phrase) (m : Remark) : Prop :=
  w = [] ∧ m = .outer (.token .annotOpen)

/-- Behind annotations, some member goes on with each of the `memberWords`. -/
theorem viable_annotated {ds : List Derivation.Annot} {word : String}
    (hannots : List.Forall₂ (Denotes Derivation.Annot.tree) ds annots)
    (hword : word ∈ memberWords) :
    Viable (Denotes Derivation.Member.tree) (fun m w => ∃ c, m = .construct ds c ∧ w = c.yield)
      [.word word] := by
  obtain ⟨c, hstarts, -, hc⟩ := exists_construct hword
  obtain ⟨u, hu⟩ := List.head?_eq_some_iff.1 hstarts
  refine ⟨.construct ds c, c.tree annots, u, ?_, c, rfl, hu.symm⟩
  show erase (c.tree annots) = c.tree (ds.map Derivation.Annot.tree)
  rw [hc, erase_eq_map hannots]

/-- Annotations may be followed by one more: there are longer lists that start with them. -/
theorem exists_reopened {ds : List Derivation.Annot}
    (hannots : List.Forall₂ (Denotes Derivation.Annot.tree) ds annots) :
    ∃ ds' annots' u, List.Forall₂ (Denotes Derivation.Annot.tree) ds' annots' ∧
      ds'.flatMap Derivation.Annot.yield
        = ds.flatMap Derivation.Annot.yield ++ .sign .annotOpen :: u := by
  let d : Derivation.Annot := ⟨default, []⟩
  refine ⟨ds ++ [d], annots ++ [d.tree], [d.name.symbol, .sign .bracketClose],
    List.rel_append hannots (.cons rfl .nil), ?_⟩
  rw [List.flatMap_append]
  rfl

/-- Behind annotations, some member goes on with another one, so `#[` is `Viable` there. -/
theorem viable_reopened {ds : List Derivation.Annot}
    (hannots : List.Forall₂ (Denotes Derivation.Annot.tree) ds annots) :
    Viable (Denotes Derivation.Member.tree) (fun m w => w = m.yield)
      (ds.flatMap Derivation.Annot.yield ++ [.sign .annotOpen]) := by
  obtain ⟨ds', annots', u, hmore, hyield⟩ := exists_reopened hannots
  obtain ⟨_, m, u', hden, c, rfl, hu'⟩ := viable_annotated hmore (by decide : "env" ∈ memberWords)
  refine ⟨_, m, u ++ .word "env" :: u', hden, ?_⟩
  show _ = ds'.flatMap Derivation.Annot.yield ++ c.yield
  rw [hyield, ← hu']
  simp

/-- What is reported where no member starts, `memberStart`: each of these may stand there. -/
theorem offers_memberStart :
    Offers (Denotes Derivation.Member.tree) (fun m w => w = m.yield) LateMember []
      member.memberStart := by
  refine ⟨by simp [member.memberStart], by simp [member.memberStart, memberWords], ?_⟩
  intro a ha
  simp only [member.memberStart, List.cons_append, List.mem_cons, List.mem_append, List.mem_map,
    List.not_mem_nil, or_false] at ha
  rcases ha with rfl | ⟨word, hword, rfl⟩ | rfl | rfl
  · exact .property default (.of_tree (.property default) [] rfl rfl)
  · obtain ⟨_, m, u, hden, c, rfl, hu⟩ := viable_annotated .nil hword
    exact .keyword ⟨_, m, u, hden, hu⟩
  · exact .token (s := .sign .annotOpen) (viable_reopened .nil)
  · exact .outer (.inr ⟨rfl, rfl⟩)

/-- A member with annotations is read, once these are: the part of the rule `member` behind them. -/
theorem parses_annotated {ds : List Derivation.Annot}
    (hannots : List.Forall₂ (Denotes Derivation.Annot.tree) ds annots) :
    Parses P (do
        if opensMember (← peek) then
          memberAfter annots start
        else
          fail (memberWords.map .keyword ++ [.token .annotOpen]))
      (Denotes Derivation.Member.tree)
      (fun m w => ∃ c, m = .construct ds c ∧ w = c.yield) (FollowsEnded Derivation.Member.ended)
      Reopens := by
  refine .peek_bind fun t ht => ?_
  by_cases hopens : opensMember t = true
  · rw [if_pos hopens]
    refine .of_nowhere ((parses_memberAfter (erase_eq_map hannots)).map (.construct ds)
      (fun _ _ => id) ?_ (fun _ _ _ _ _ => id) ?_)
    · exact fun c w hw => ⟨c, rfl, hw⟩
    · rintro _ w rest - ⟨c, rfl, rfl⟩ hF
      exact ⟨c, rfl, rfl, hF⟩
  · rw [if_neg hopens]
    have hviable : Viable _ _ [] :=
      (viable_annotated hannots (by decide : "env" ∈ memberWords)).of_append
    refine .fail hviable ⟨by simp, by simp [memberWords], ?_⟩ ?_
    · intro a ha
      rcases List.mem_append.1 ha with ha | ha
      · obtain ⟨word, hword, rfl⟩ := List.mem_map.1 ha
        exact .keyword (viable_annotated hannots hword)
      · obtain rfl := List.mem_singleton.1 ha
        exact .outer ⟨rfl, rfl⟩
    · rintro _ w rest hv ⟨c, rfl, rfl⟩ -
      obtain ⟨word, hword, s, u, hc, -⟩ := yield_construct c
      rw [hc] at hv
      have hsymbol : Symbol.word word = t.symbol := starts_cons.1 hv.2
      apply hopens
      rw [opensMember_iff (congrArg Symbol.kind hsymbol).symm, ← Token.symbol_text, ← hsymbol]
      exact hword

/-- A member without annotations is read by `memberAfter`, where a word that opens one stands and no
equals sign behind it. -/
theorem second_memberAfter {n : Name} {u : Symbol} (hword : n.text ∈ memberWords)
    (hequals : u.kind ≠ .equals) :
    Parses.Second (fun v => True ∧ Starts n.symbol v) (Denotes Derivation.Member.tree)
      (fun m w => w = m.yield) (FollowsEnded Derivation.Member.ended) LateMember n.symbol u
      (memberAfter [] start) := by
  refine .reads (fun s => s.kind ≠ .equals) hequals (.of_nowhere ((parses_memberAfter rfl).map
    (.construct []) (fun _ _ => id) (fun _ _ => id) (fun _ _ _ _ _ => id) ?_)) ?_
  · rintro m w rest ⟨-, s, hpair, hs⟩ rfl hF
    rcases second_of_member hpair with ⟨p, -, h⟩ | ⟨c, rfl, -, -⟩
    · exact absurd h hs
    · exact ⟨c, rfl, rfl, hF⟩
  · obtain ⟨c, hstarts, hended, -⟩ := exists_construct hword
    obtain ⟨word, -, s, u, hc, hs⟩ := yield_construct c
    have hyield : Derivation.Member.yield (.construct [] c) = n.symbol :: s :: u := by
      rw [hc] at hstarts
      obtain hword : Symbol.word word = n.symbol := starts_cons.1 hstarts
      rw [← hword]
      exact hc
    refine ⟨_, .construct [] c, _, s, .intro _ [] ⟨trivial, ?_⟩ ?_, ?_, hs⟩
    · rw [hyield]
      rfl
    · intro h
      exact absurd (hended.symm.trans h) (by simp)
    · rw [hyield]
      exact ⟨u ++ [], rfl⟩

/-- A member of a module is read by `member`. -/
theorem parses_member :
    Parses P member (Denotes Derivation.Member.tree) (fun m w => w = m.yield)
      (FollowsEnded Derivation.Member.ended) LateMember := by
  refine .anywhere (.peek_bind fun t ht => ?_)
  split
  · rename_i hkind
    refine parses_wordEntry .property .property ht hkind startsEntry_member (fun _ => rfl)
      (fun _ _ => congrArg Member.property) (fun _ _ => nofun) ?_ ?_ ?_
    · intro u hequals
      rw [if_pos (by simp [hequals])]
    · intro n m s rest hpair hs
      rcases second_of_member hpair with ⟨p, rfl, -⟩ | ⟨c, -, -, hne⟩
      · exact ⟨p, rfl⟩
      · exact absurd hs hne
    · intro n u hn hequals
      have htext : n.text = t.text := congrArg Symbol.text hn
      rw [if_neg (by simpa using hequals)]
      by_cases hopens : opensMember t = true
      · rw [if_pos hopens]
        exact second_memberAfter (by rwa [htext, ← opensMember_iff hkind]) hequals
      · -- the word is reported, and the token behind it is why
        rw [if_neg hopens]
        have hword : n.text ∉ memberWords := by
          rwa [htext, ← opensMember_iff hkind]
        refine .late (.inl ⟨rfl, rfl, hword, hequals⟩) offers_memberStart ?_
        rintro v m w ⟨rest, rfl, -, rfl, -⟩ hpair
        rcases second_of_member hpair with ⟨p, -, h⟩ | ⟨c, -, h, -⟩
        · exact hequals h
        · exact hword h
  · rename_i hkind
    refine .settle (.congr (parses_annots.bindRight
      (fun ds annots hannots => parses_annotated hannots) ?_) ?_ ?_) ?_ ?_
    · rintro ds _ w rest - ⟨c, rfl, rfl⟩ -
      obtain ⟨word, -, s, u, hc, -⟩ := yield_construct c
      simp [hc]
    · rintro _ w ⟨ds, _, rfl, c, rfl, rfl⟩
      rfl
    · rintro (p | ⟨ds, c⟩) w rest hv rfl -
      · exact absurd (hv.2.kind_eq.trans hkind) (by simp)
      · exact ⟨ds, _, rfl, c, rfl, rfl⟩
    · rintro _ s t ⟨ds, _, rfl, -, -, hlate⟩
      exact nomatch hlate
    · -- behind some annotations another one may stand
      rintro _ a ⟨ds, _, rfl, ⟨annots, hannots⟩, rfl, ha⟩
      obtain rfl : a = .token .annotOpen := by simpa using ha
      rw [List.append_nil]
      exact .token (s := .sign .annotOpen) (viable_reopened hannots)
  · rename_i hident hannot
    refine .fail (.of_tree (.property default) _ rfl rfl) offers_memberStart ?_
    intro m w rest hv hw _
    subst hw
    rcases m with p | ⟨_ | ⟨a, annots⟩, c⟩
    · exact hident hv.2.kind_eq.symm
    · obtain ⟨word, -, s, u, hc, -⟩ := yield_construct c
      simp only [Derivation.Member.yield, List.flatMap_nil, List.nil_append, hc] at hv
      exact hident hv.2.kind_eq.symm
    · exact hannot hv.2.kind_eq.symm

end Gxl.Rule
