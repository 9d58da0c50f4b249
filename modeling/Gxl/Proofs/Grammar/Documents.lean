import Gxl.Grammar.Document
import Gxl.Proofs.Grammar.Members

/-!
# Reading documents

The rules of `Gxl.Grammar.Document` meet the contract of `Gxl.Proofs.Grammar.Parses`, the last of
them for whole documents (`parses_document`).

The places where a fault is seen late are kept track of on the way up: they are the starts of
members, within a module, behind the items before it (`AtMember`).
-/

namespace Gxl

/-- A phrase that ends where a member of a module may start: behind the brace that opens the module,
or behind another member. -/
def Derivation.AtMember (w : Phrase) : Prop :=
  ∃ (tops : List Top) (annots : List Annot) (name : Name) (refs : Option Refs)
    (members : List Member),
    w = tops.flatMap Top.yield ++ (Top.yieldHeader annots name refs
      ++ .sign .braceOpen :: members.flatMap Member.yield)

/-- An item starts as entries do (`StartsEntry`): with an annotation or a word. -/
theorem Derivation.Top.startsEntry (d : Derivation.Top) :
    Derivation.StartsEntry d.yield := by
  rcases d with ⟨_ | ⟨a, annots⟩, name, refs, members, semi⟩ | ⟨names, origin, semi⟩
  · exact ⟨_, _, rfl, .inl rfl⟩
  · exact ⟨_, _, rfl, .inr (.inr rfl)⟩
  · exact ⟨_, _, rfl, .inl rfl⟩

namespace Rule

open Gxl.Derivation (Name)

variable {P : Phrase → Prop} {as annots : List Annot} {start : Span}

/-! ## Modules -/

/-- The places of members within a module, from the word `mod` on. -/
def InModule (w : Phrase) (m : Remark) : Prop :=
  Strays m ∧ ∃ (name : Name) (refs : Option Derivation.Refs)
    (members : List Derivation.Member),
    w = .word "mod" :: name.symbol :: (Derivation.Refs.yieldAfter .colon refs
      ++ .sign .braceOpen :: members.flatMap Derivation.Member.yield)

/-- A module is read from the word `mod` on. -/
theorem parses_module (hannots : erase annots = as) :
    Parses P (module annots start)
      (fun (p : Name × Option Derivation.Refs × List Derivation.Member × Bool) m =>
        erase m = ⟨as, p.1.tree, p.2.1.map Derivation.Refs.tree,
          p.2.2.1.map Derivation.Member.tree, default⟩)
      (fun p w => w = .word "mod" :: p.1.symbol :: (Derivation.Refs.yieldAfter .colon p.2.1
        ++ Derivation.braced Derivation.Member.yield p.2.2.1 p.2.2.2))
      (FollowsEnded fun p => p.2.2.2) InModule := by
  refine .congr (.widen (.discard_bind ((Parses.expectWord (by decide)).bindRight (fun _ _ _ =>
    parses_ident.bindRight (fun n name hname => (parses_refsAfter (by decide)).bindRight
      (fun r refs hrefs => parses_braced' (g := fun ms semi => (n, r, ms, semi)) parses_member
        ?_ startsEntry_member ?_ (followsEnded_of_startsEntry startsEntry_member) ?_ ?_) ?_) ?_)
    ?_)) ?_) ?_ ?_
  · rintro w a (⟨-, hfalse⟩ | hcloses)
    · exact hfalse.elim
    · exact hcloses
  · intro m u _
    simp
  · intro ms members semi span hmembers
    show (⟨erase annots, erase name, erase refs, erase members, default⟩ : Module) = _
    rw [hannots, hname, hrefs, erase_eq_map hmembers]
  · exact fun _ _ _ => .rfl
  · rintro r _ w rest - ⟨ms, semi, rfl, rfl⟩ -
    exact clear_before_braced (by decide)
  · exact fun _ _ _ _ _ _ _ => trivial
  · exact fun _ _ _ _ _ _ _ => trivial
  · rintro _ _ ⟨_, _, rfl, -, n, _, rfl, -, r, _, rfl, -, ms, _, s, t, rfl, rfl, hlate⟩
    rcases hlate with ⟨rfl, hstrays⟩ | ⟨-, hfalse⟩
    · exact ⟨hstrays, n, r, ms, by simp⟩
    · exact nomatch hfalse
  · rintro _ w ⟨_, _, rfl, n, _, rfl, r, _, rfl, ms, semi, rfl, rfl⟩
    rfl
  · rintro ⟨n, r, ms, semi⟩ w rest - rfl -
    exact ⟨(), _, rfl, n, _, rfl, r, _, rfl, ms, semi, rfl, rfl⟩

/-! ## External modules -/

/-- The origin of external modules is read by `origin`. -/
theorem parses_origin :
    Parses P origin (Denotes Derivation.Origin.tree) (fun o w => w = o.yield) (fun _ _ => True)
      nowhere := by
  refine .peek_bind fun t ht => .atWord_ite ?_ (.atWord_ite ?_ ?_)
  · refine .congr (.discard_bind ((Parses.advance (s := .word "path") rfl fun v hv => hv.2).bind
      (fun _ _ _ => .signThen (by decide) (parses_string.andThen fun p path hpath =>
        .signThen (by decide) (.spanFrom_bind fun span =>
          .pure (Derivation.Origin.path p) ?_ fun _ _ => trivial)))
      fun _ _ _ _ hv _ _ => hv)) ?_ ?_
    · show Origin.path (erase path) default = _
      rw [hpath]
      rfl
    · rintro _ w ⟨_, _, rfl, _, rfl, p, _, rfl, _, rfl, rfl, rfl⟩
      rfl
    · rintro (p | ⟨u, c⟩) w rest hv rfl -
      · exact ⟨(), _, rfl, _, rfl, p, _, rfl, _, rfl, rfl, rfl⟩
      · exact absurd (starts_cons.1 hv.2) (by decide)
  · refine .congr (.discard_bind ((Parses.advance (s := .word "git") rfl fun v hv => hv.2).bind
      (fun _ _ _ => .signThen (by decide) (parses_string.andThen fun u url hurl =>
        .signThen (by decide) (.wordThen (by decide) (.signThen (by decide)
          (parses_string.andThen fun c channel hchannel => .signThen (by decide)
            (.spanFrom_bind fun span =>
              .pure (Derivation.Origin.git u c) ?_ fun _ _ => trivial))))))
      fun _ _ _ _ hv _ _ => hv)) ?_ ?_
    · show Origin.git (erase url) (erase channel) default = _
      rw [hurl, hchannel]
      rfl
    · rintro _ w ⟨_, _, rfl, _, rfl, u, _, rfl, _, rfl, _, rfl, _, rfl, c, _, rfl, _, rfl, rfl, rfl⟩
      rfl
    · rintro (p | ⟨u, c⟩) w rest hv rfl -
      · exact absurd (starts_cons.1 hv.2) (by decide)
      · exact ⟨(), _, rfl, _, rfl, u, _, rfl, _, rfl, _, rfl, _, rfl, c, _, rfl, _, rfl, rfl, rfl⟩
  · refine .fail (.of_tree (.path default) _ rfl rfl) (.of_forall ⟨?_, ?_⟩) ?_
    · exact .keyword (.of_tree (.path default) _ rfl rfl)
    · exact .keyword (.of_tree (.git default default) _ rfl rfl)
    rintro (p | ⟨u, c⟩) w rest hv rfl -
    · exact hv.1.2 rfl
    · exact hv.2 rfl

/-- A declaration of external modules is read by `external`. -/
theorem parses_external :
    Parses P external
      (fun (p : Derivation.Refs × Derivation.Origin × Bool) e =>
        erase e = ⟨(p.1.head :: p.1.tail).map Name.tree, p.2.1.tree, default⟩)
      (fun p w => w = (Derivation.Top.external p.1 p.2.1 p.2.2).yield)
      (FollowsEnded fun p => p.2.2) nowhere := by
  refine .congr ((Parses.expectWord (by decide)).andThen fun _ t _ => .wordThen (by decide)
    (parses_refList.bind (fun r refs hrefs => .signThen (by decide)
      (parses_origin.andThen fun o origin horigin => .signThen (by decide)
        (Parses.closing.bind (fun semi span _ => .pure (r, o, semi) ?_ ?_) ?_))) ?_)) ?_ ?_
  · have hnames : erase refs.names = _ := congrArg RefList.names hrefs
    show (⟨erase refs.names, erase origin, default⟩ : External) = _
    rw [hnames, horigin]
    rfl
  · exact fun v hv => hv
  · rintro semi _ w rest - ⟨rfl, rfl⟩ hF
    exact hF
  · rintro r _ w rest - ⟨_, rfl, -⟩ -
    simp
  · rintro _ w ⟨_, _, rfl, _, rfl, r, _, rfl, _, rfl, o, _, rfl, _, rfl, semi, _, rfl, rfl, rfl⟩
    simp [Derivation.Top.yield, Derivation.terminator]
  · rintro ⟨r, o, semi⟩ w rest - rfl -
    exact ⟨(), _, rfl, _, rfl, r, _, rfl, _, rfl, o, _, rfl, _, rfl, semi, [],
      (List.append_nil _).symm, rfl, rfl⟩

/-! ## Items -/

/-- The places of members within an item: behind the brace that opens a module and some of its
members, for a remark that `Strays`. -/
def InItem (w : Phrase) (m : Remark) : Prop :=
  Strays m ∧ ∃ (annots : List Derivation.Annot) (name : Name)
    (refs : Option Derivation.Refs) (members : List Derivation.Member),
    w = Derivation.Top.yieldHeader annots name refs
      ++ .sign .braceOpen :: members.flatMap Derivation.Member.yield

/-- Behind annotations, some module goes on with its keyword `mod`. -/
theorem viable_itemModule {ds : List Derivation.Annot}
    (hannots : List.Forall₂ (Denotes Derivation.Annot.tree) ds annots) :
    Viable (Denotes Derivation.Top.tree)
      (fun d w => ∃ name refs members semi, d = .module ds name refs members semi ∧
        w = .word "mod" :: name.symbol :: (Derivation.Refs.yieldAfter .colon refs
          ++ Derivation.braced Derivation.Member.yield members semi)) [.word "mod"] := by
  refine ⟨.module ds default none [] true, .module ⟨annots, Name.tree default, none, [], default⟩,
    _, ?_, default, none, [], true, rfl, rfl⟩
  show Item.module ⟨erase annots, _, _, _, _⟩ = _
  rw [erase_eq_map hannots]
  rfl

/-- Behind annotations, some module goes on with another one, which is why `#[` may be expected
there. -/
theorem viable_itemReopened {ds : List Derivation.Annot}
    (hannots : List.Forall₂ (Denotes Derivation.Annot.tree) ds annots) :
    Viable (Denotes Derivation.Top.tree) (fun d w => w = d.yield)
      (ds.flatMap Derivation.Annot.yield ++ [.sign .annotOpen]) := by
  obtain ⟨ds', annots', u, hmore, hyield⟩ := exists_reopened hannots
  obtain ⟨_, t, u', hden, name, refs, members, semi, rfl, hu'⟩ := viable_itemModule hmore
  have htail : u' = _ := (List.cons.inj hu').2
  refine ⟨_, t, u ++ .word "mod" :: u', hden, ?_⟩
  simp [Derivation.Top.yield, Derivation.Top.yieldHeader, hyield, htail]

/-- A module is read as an `Item`, once its annotations are. -/
theorem parses_itemModule {ds : List Derivation.Annot}
    (hannots : List.Forall₂ (Denotes Derivation.Annot.tree) ds annots) :
    Parses P (module annots start >>= fun m => pure (Item.module m))
      (Denotes Derivation.Top.tree)
      (fun d w => ∃ name refs members semi, d = .module ds name refs members semi ∧
        w = .word "mod" :: name.symbol :: (Derivation.Refs.yieldAfter .colon refs
          ++ Derivation.braced Derivation.Member.yield members semi))
      (FollowsEnded Derivation.Top.ended) InModule := by
  refine (parses_module (erase_eq_map hannots)).build
    (fun p => .module ds p.1 p.2.1 p.2.2.1 p.2.2.2) (fun _ _ => congrArg Item.module) ?_
    (fun _ _ _ _ _ => id) ?_
  · rintro ⟨name, refs, members, semi⟩ w rfl
    exact ⟨name, refs, members, semi, rfl, rfl⟩
  · rintro _ w rest - ⟨name, refs, members, semi, rfl, rfl⟩ hF
    exact ⟨(name, refs, members, semi), rfl, rfl, hF⟩

/-- A module with annotations is read as an item, once these are: the part of `item` behind them. -/
theorem parses_itemBehind {ds : List Derivation.Annot}
    (hannots : List.Forall₂ (Denotes Derivation.Annot.tree) ds annots) :
    Parses P (do
        if ← atWord "mod" then
          return .module (← module annots start)
        else
          fail [.keyword "mod", .token .annotOpen])
      (Denotes Derivation.Top.tree)
      (fun d w => ∃ name refs members semi, d = .module ds name refs members semi ∧
        w = .word "mod" :: name.symbol :: (Derivation.Refs.yieldAfter .colon refs
          ++ Derivation.braced Derivation.Member.yield members semi))
      (FollowsEnded Derivation.Top.ended) (fun w m => InModule w m ∨ Reopens w m) := by
  have hmod := viable_itemModule hannots
  refine .atWord_ite ((parses_itemModule hannots).widen fun _ _ => .inl)
    (.fail hmod.of_append (.of_forall ⟨.keyword hmod, .outer (.inr ⟨rfl, rfl⟩)⟩) ?_)
  rintro _ w rest hv ⟨name, refs, members, semi, rfl, rfl⟩ -
  exact hv.2 rfl

/-- A module with annotations is read as an item: the part of `item` that starts with `#[`. -/
theorem parses_itemAnnotated (hP : ∀ v, P v → At .annotOpen v) :
    Parses P (do
        let annots ← Rule.annots
        if ← atWord "mod" then
          return .module (← module annots start)
        else
          fail [.keyword "mod", .token .annotOpen])
      (Denotes Derivation.Top.tree) (fun d w => w = d.yield) (FollowsEnded Derivation.Top.ended)
      InItem := by
  refine .settle (.congr (parses_annots.bindRight
    (fun ds annots hannots => parses_itemBehind hannots) ?_) ?_ ?_) ?_ ?_
  · rintro ds _ w rest - ⟨name, refs, members, semi, rfl, rfl⟩ -
    simp
  · rintro _ w ⟨ds, _, rfl, name, refs, members, semi, rfl, rfl⟩
    simp [Derivation.Top.yield, Derivation.Top.yieldHeader]
  · rintro (⟨ds, name, refs, members, semi⟩ | ⟨names, origin, semi⟩) w rest hv rfl -
    · refine ⟨ds, _, ?_, name, refs, members, semi, rfl, rfl⟩
      simp [Derivation.Top.yield, Derivation.Top.yieldHeader]
    · obtain ⟨s, -, hkind, hs⟩ := hP _ hv
      exact absurd (hs.kind_eq.trans hkind) (by simp)
  · rintro _ s t ⟨ds, _, rfl, -, ⟨hstrays, name, refs, members, rfl⟩ | ⟨-, hfalse⟩⟩
    · exact ⟨hstrays, ds, name, refs, members, by simp [Derivation.Top.yieldHeader]⟩
    · exact nomatch hfalse
  · -- behind some annotations another one may stand
    rintro _ a ⟨ds, _, rfl, ⟨annots, hannots⟩, ⟨hfalse, -⟩ | ⟨rfl, ha⟩⟩
    · exact hfalse.elim
    · obtain rfl : a = .token .annotOpen := by simpa using ha
      rw [List.append_nil]
      exact .token (s := .sign .annotOpen) (viable_itemReopened hannots)

/-- An item of a document is read by `item`.  Its first token tells what it is. -/
theorem parses_item :
    Parses P item (Denotes Derivation.Top.tree) (fun d w => w = d.yield)
      (FollowsEnded Derivation.Top.ended) InItem := by
  refine .peek_bind fun t ht => .note_bind ?_
  split
  · rename_i hkind
    exact parses_itemAnnotated fun v hv => ⟨t.symbol, ht, by simpa using hkind, hv.2⟩
  · rename_i hkind
    have hkind : t.kind ≠ .annotOpen := by simpa using hkind
    refine .atWord_ite ?_ (.atWord_ite ?_ ?_)
    · refine .congr (.widen (parses_itemModule .nil) ?_) ?_ ?_
      · rintro w m ⟨hstrays, name, refs, members, rfl⟩
        exact ⟨hstrays, [], name, refs, members, rfl⟩
      · rintro _ w ⟨name, refs, members, semi, rfl, rfl⟩
        rfl
      · rintro (⟨_ | ⟨a, ds⟩, name, refs, members, semi⟩ | ⟨names, origin, semi⟩) w rest hv rfl -
        · exact ⟨name, refs, members, semi, rfl, rfl⟩
        · exact absurd hv.1.2.kind_eq.symm hkind
        · exact absurd (starts_cons.1 hv.2) (by decide)
    · refine .of_nowhere (parses_external.build (fun p => .external p.1 p.2.1 p.2.2)
        (fun _ _ => congrArg Item.external) (fun _ _ => id) (fun _ _ _ _ _ => id) ?_)
      rintro (⟨_ | ⟨a, ds⟩, name, refs, members, semi⟩ | ⟨names, origin, semi⟩) w rest hv rfl hF
      · exact absurd (starts_cons.1 hv.2) (by decide)
      · exact absurd hv.1.1.2.kind_eq.symm hkind
      · exact ⟨(names, origin, semi), rfl, rfl, hF⟩
    · have hexternal : Viable (Denotes Derivation.Top.tree) (fun d w => w = d.yield)
          [.word "extern"] :=
        .of_tree (.external ⟨default, []⟩ (.path default) true) _ rfl rfl
      refine .fail (hexternal.of_append (u := [])) (.of_forall ⟨?_, .keyword hexternal⟩) ?_
      · exact .keyword (.of_tree (.module [] default none [] true) _ rfl rfl)
      rintro (⟨_ | ⟨a, ds⟩, name, refs, members, semi⟩ | ⟨names, origin, semi⟩) w rest hv rfl -
      · exact hv.1.2 rfl
      · exact hkind hv.1.1.2.kind_eq.symm
      · exact hv.2 rfl

/-! ## Documents -/

/-- The end of the text may follow any items (`Follows`). -/
theorem follows_items {rest : Phrase} (h : At .eof rest) (tops : List Derivation.Top) :
    Follows Derivation.Top.yield (At .eof) (FollowsEnded Derivation.Top.ended) tops rest := by
  refine .intro h ?_ (followsEnded_of_startsEntry Derivation.Top.startsEntry) tops
  intro d _
  obtain ⟨s, -, hkind, hs⟩ := h
  exact hs.clear (by simp [hkind])

/-- A document is read by `document`, up to the end of the text.  Faults that are seen late are
those of members (`AtMember`). -/
theorem parses_document (bytes : Nat) :
    Parses P (document bytes) (Denotes Derivation.File.tree) (fun d w => w = d.yield)
      (fun _ => At .eof) (fun w m => Derivation.AtMember w ∧ Strays m) := by
  refine .congr (.widen (E := Amid (Denotes Derivation.Top.tree) Derivation.Top.yield InItem)
    ((Parses.many'
    (.unlessKind parses_item ?_) ?_ ?_ ?_).bind (fun ds items hitems =>
      .pure (⟨ds⟩ : Derivation.File) ?_ fun _ hv => hv.ends) ?_) ?_) ?_ ?_
  · exact fun d => d.startsEntry.clear (by decide)
  · intro d hnil
    obtain ⟨s, u, hs, -⟩ := d.startsEntry
    simp [hs] at hnil
  · exact fun _ _ => Amid.nil
  · exact fun _ _ hden _ _ => Amid.cons hden
  · show (⟨erase items, default⟩ : Document) = _
    rw [erase_eq_map hitems]
    rfl
  · rintro ds _ w rest - ⟨rfl, rfl⟩ hF
    exact follows_items hF ds
  · rintro _ _ ⟨ds, _, rfl, -, hstrays, annots, name, refs, members, rfl⟩
    exact ⟨⟨ds, annots, name, refs, members, rfl⟩, hstrays⟩
  · rintro _ w ⟨ds, _, rfl, rfl, rfl⟩
    exact List.append_nil _
  · rintro ⟨ds⟩ w rest - rfl -
    exact ⟨ds, [], (List.append_nil _).symm, rfl, rfl⟩

end Rule

end Gxl
