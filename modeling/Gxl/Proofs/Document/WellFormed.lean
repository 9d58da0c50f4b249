import Gxl.Proofs.Document.SameTree
import Gxl.Proofs.Grammar.Acceptance
import Gxl.Proofs.Token.Literals

/-!
# The trees of source texts

A tree is well-formed if each of its names is a word, each of its literals a text that can stand
for one, and if it has a name in every place that asks for one.  Nothing else is asked of a tree:
the trees that sources are read as are the well-formed ones, spans aside
(`exists_parse_sameTree_iff`).

Well-formedness is stated by recursion over the tree and says nothing of tokens.  It is tied to the
grammar piece by piece: a piece of tree is well-formed if and only if a derivation denotes it.
-/

namespace Gxl

open Rule (Denotes)

/-! ## Well-formed trees -/

/-- The name is a word (`Lexeme.isWord`). -/
def Ident.WellFormed (i : Ident) : Prop :=
  Lexeme.isWord i.name.toList = true

/-- The literal has a text that may stand between quotes (`Lexeme.isRaw`). -/
def StrLit.WellFormed (s : StrLit) : Prop :=
  Lexeme.isRaw s.raw.toList = true

/-- The literal spells a decimal number (`Lexeme.IsDecimal`). -/
def NumLit.WellFormed (n : NumLit) : Prop :=
  Lexeme.IsDecimal n.text.toList

/-- There is at least one name, and all of the `names` are well-formed. -/
def RefList.WellFormed (r : RefList) : Prop :=
  r.names ≠ [] ∧ ∀ n ∈ r.names, n.WellFormed

def Annot.Arg.WellFormed : Annot.Arg → Prop
  | .keyed key value => key.WellFormed ∧ value.WellFormed
  | .bare value => value.WellFormed

def Annot.WellFormed (a : Annot) : Prop :=
  a.name.WellFormed ∧ ∀ arg ∈ a.args, arg.WellFormed

def Literal.WellFormed : Literal → Prop
  | .string value => value.WellFormed
  | .number value => value.WellFormed

def Property.WellFormed (p : Property) : Prop :=
  p.key.WellFormed ∧ p.value.WellFormed

def Arg.Value.WellFormed : Arg.Value → Prop
  | .string value => value.WellFormed
  | .variable name => name.WellFormed

def Arg.WellFormed (a : Arg) : Prop :=
  a.key.WellFormed ∧ a.value.WellFormed

/-- A path has two `segments` or more. -/
def Target.WellFormed : Target → Prop
  | .name id => id.WellFormed
  | .path p => 2 ≤ p.segments.length ∧ ∀ n ∈ p.segments, n.WellFormed

def Command.WellFormed : Command → Prop
  | .builtin c => ∀ a ∈ c.args, a.WellFormed
  | .call c => c.target.WellFormed ∧ ∀ a ∈ c.args, a.WellFormed

def Environment.Entry.WellFormed : Environment.Entry → Prop
  | .property p => p.WellFormed
  | .command c => c.WellFormed
  | .vars b => ∀ a ∈ b.args, a.WellFormed

def Environment.WellFormed (e : Environment) : Prop :=
  (∀ a ∈ e.annots, a.WellFormed) ∧ e.name.WellFormed ∧ (∀ r ∈ e.refs, r.WellFormed) ∧
    ∀ x ∈ e.entries, x.WellFormed

def Flow.Entry.WellFormed : Flow.Entry → Prop
  | .command c => c.WellFormed
  | .property p => p.WellFormed

def Flow.WellFormed (x : Flow) : Prop :=
  (∀ a ∈ x.annots, a.WellFormed) ∧ (∀ r ∈ x.before, r.WellFormed) ∧ x.name.WellFormed ∧
    (∀ r ∈ x.after, r.WellFormed) ∧ ∀ e ∈ x.entries, e.WellFormed

def FlowAlias.WellFormed (x : FlowAlias) : Prop :=
  (∀ a ∈ x.annots, a.WellFormed) ∧ x.name.WellFormed ∧ x.targets.WellFormed

def Param.WellFormed (p : Param) : Prop :=
  p.name.WellFormed ∧ ∀ s ∈ p.fallback, s.WellFormed

def Fn.WellFormed (x : Fn) : Prop :=
  (∀ a ∈ x.annots, a.WellFormed) ∧ x.name.WellFormed ∧ (∀ p ∈ x.params, p.WellFormed) ∧
    ∀ c ∈ x.body, c.WellFormed

def Activity.WellFormed (a : Activity) : Prop :=
  (∀ n ∈ a.annots, n.WellFormed) ∧ a.name.WellFormed ∧ ∀ p ∈ a.props, p.WellFormed

def Member.WellFormed : Member → Prop
  | .property p => p.WellFormed
  | .environment e => e.WellFormed
  | .flow x => x.WellFormed
  | .flowAlias x => x.WellFormed
  | .fn x => x.WellFormed
  | .activity a => a.WellFormed

def Module.WellFormed (m : Module) : Prop :=
  (∀ a ∈ m.annots, a.WellFormed) ∧ m.name.WellFormed ∧ (∀ r ∈ m.refs, r.WellFormed) ∧
    ∀ x ∈ m.members, x.WellFormed

def Origin.WellFormed : Origin → Prop
  | .path place _ => place.WellFormed
  | .git url channel _ => url.WellFormed ∧ channel.WellFormed

/-- There is at least one of the `names`. -/
def External.WellFormed (e : External) : Prop :=
  e.names ≠ [] ∧ (∀ n ∈ e.names, n.WellFormed) ∧ e.origin.WellFormed

def Item.WellFormed : Item → Prop
  | .module m => m.WellFormed
  | .external e => e.WellFormed

/-- Every name is a word, every literal a text that can stand for one, every row of names has a
name, and every path has two: all `items` are well-formed. -/
def Document.WellFormed (d : Document) : Prop :=
  ∀ x ∈ d.items, x.WellFormed

/-! ## What derivations denote -/

/-- A piece of tree that a derivation denotes (`Denotes`), up to spans. -/
def Derivable {α β : Type} [Placed α] (tree : β → α) (a : α) : Prop :=
  ∃ b, Denotes tree b a

section Placed

variable {α β : Type} [Placed α] {W : α → Prop} {tree : β → α}

/-- Lists are denoted entry by entry: if `W` is what can be derived, then so for lists. -/
theorem derivable_list (h : ∀ a, W a ↔ Derivable tree a) (as : List α) :
    (∀ a ∈ as, W a) ↔ Derivable (List.map tree) as := by
  constructor
  · intro has
    induction as with
    | nil => exact ⟨[], rfl⟩
    | cons a as ih =>
      obtain ⟨ha, has⟩ := List.forall_mem_cons.1 has
      obtain ⟨b, hb⟩ := (h a).1 ha
      obtain ⟨bs, hbs⟩ := ih has
      refine ⟨b :: bs, ?_⟩
      show erase a :: erase as = tree b :: bs.map tree
      rw [hb, hbs]
  · rintro ⟨bs, hbs⟩
    induction bs generalizing as with
    | nil =>
      obtain rfl : as = [] := List.map_eq_nil_iff.1 hbs
      simp
    | cons b bs ih =>
      cases as with
      | nil => exact absurd hbs.symm (List.cons_ne_nil _ _)
      | cons a as =>
        obtain ⟨hb, hbs⟩ := List.cons.inj hbs
        exact List.forall_mem_cons.2 ⟨(h a).2 ⟨b, hb⟩, ih as hbs⟩

/-- A derivation of a list has as many entries as the list, which matters where a path needs two. -/
theorem length_eq_of_denotes {as : List α} {bs : List β} (h : Denotes (List.map tree) bs as) :
    as.length = bs.length := by
  have hlength : (as.map (mapSpans fun _ => default)).length = (bs.map tree).length :=
    congrArg List.length h
  rwa [List.length_map, List.length_map] at hlength

/-- What may be missing is denoted if it is there, and by `none` if not. -/
theorem derivable_option (h : ∀ a, W a ↔ Derivable tree a) (o : Option α) :
    (∀ a ∈ o, W a) ↔ Derivable (Option.map tree) o := by
  cases o with
  | none => exact ⟨fun _ => ⟨none, rfl⟩, fun _ => by simp⟩
  | some a =>
    constructor
    · intro ha
      obtain ⟨b, hb⟩ := (h a).1 (ha a rfl)
      exact ⟨some b, congrArg some hb⟩
    · rintro ⟨_ | b, hb⟩
      · exact absurd hb (Option.some_ne_none _)
      · intro a' ha'
        obtain rfl := Option.some.inj ha'
        exact (h _).2 ⟨b, Option.some.inj hb⟩

end Placed

open Gxl.Derivation (Name Quoted Numeral Refs File)

/-- A name is denoted by a word if it is well-formed, and the same is shown below for every
construct of the tree with its derivations. -/
theorem Ident.derivable (i : Ident) : i.WellFormed ↔ Derivable Name.tree i := by
  constructor
  · intro h
    exact ⟨⟨i.name, h⟩, rfl⟩
  · rintro ⟨n, h⟩
    obtain ⟨hname, -⟩ := Ident.mk.inj h
    rw [WellFormed, hname]
    exact n.isWord

theorem StrLit.derivable (s : StrLit) : s.WellFormed ↔ Derivable Quoted.tree s := by
  rw [WellFormed, ← Lexeme.isQuoted_iff_isRaw]
  constructor
  · intro h
    exact ⟨⟨s.raw, h⟩, rfl⟩
  · rintro ⟨q, h⟩
    obtain ⟨hraw, -⟩ := StrLit.mk.inj h
    rw [hraw]
    exact q.isQuoted

theorem NumLit.derivable (n : NumLit) : n.WellFormed ↔ Derivable Numeral.tree n := by
  rw [WellFormed, ← Lexeme.isNumeral_iff_isDecimal]
  constructor
  · intro h
    exact ⟨⟨n.text, h⟩, rfl⟩
  · rintro ⟨m, h⟩
    obtain ⟨htext, -⟩ := NumLit.mk.inj h
    rw [htext]
    exact m.isNumeral

/-- A row of well-formed names with a first one is that of a derivation (`Refs`). -/
theorem derivable_names (names : List Ident) :
    (names ≠ [] ∧ ∀ n ∈ names, n.WellFormed) ↔
      ∃ r : Refs, erase names = (r.head :: r.tail).map Name.tree := by
  rw [derivable_list Ident.derivable]
  constructor
  · rintro ⟨hne, _ | ⟨n, ns⟩, h⟩
    · exact absurd (List.map_eq_nil_iff.1 h) hne
    · exact ⟨⟨n, ns⟩, h⟩
  · rintro ⟨r, h⟩
    refine ⟨?_, r.head :: r.tail, h⟩
    rintro rfl
    exact List.cons_ne_nil _ _ h.symm

theorem RefList.derivable (r : RefList) : r.WellFormed ↔ Derivable Refs.tree r := by
  rw [WellFormed, derivable_names]
  constructor
  · rintro ⟨d, h⟩
    exact ⟨d, congrArg (RefList.mk · default) h⟩
  · rintro ⟨d, h⟩
    exact ⟨d, (RefList.mk.inj h).1⟩

/-! ## Annotations, properties and commands -/

theorem Annot.Arg.derivable (a : Annot.Arg) :
    a.WellFormed ↔ Derivable Derivation.AnnotArg.tree a := by
  cases a with
  | keyed key value =>
    rw [WellFormed, key.derivable, value.derivable]
    constructor
    · rintro ⟨⟨k, hk⟩, v, hv⟩
      exact ⟨.keyed k v, congrArg₂ Annot.Arg.keyed hk hv⟩
    · rintro ⟨k | v, h⟩
      · obtain ⟨hk, hv⟩ := Annot.Arg.keyed.inj h
        exact ⟨⟨_, hk⟩, _, hv⟩
      · exact Annot.Arg.noConfusion h
  | bare value =>
    rw [WellFormed, value.derivable]
    constructor
    · rintro ⟨v, hv⟩
      exact ⟨.bare v, congrArg Annot.Arg.bare hv⟩
    · rintro ⟨k | v, h⟩
      · exact Annot.Arg.noConfusion h
      · exact ⟨v, Annot.Arg.bare.inj h⟩

theorem Annot.derivable (a : Annot) : a.WellFormed ↔ Derivable Derivation.Annot.tree a := by
  rw [WellFormed, a.name.derivable, derivable_list Annot.Arg.derivable]
  constructor
  · rintro ⟨⟨n, hn⟩, args, hargs⟩
    refine ⟨⟨n, args⟩, ?_⟩
    show (⟨erase a.name, erase a.args, default⟩ : Annot) = ⟨n.tree, _, default⟩
    rw [hn, hargs]
  · rintro ⟨d, h⟩
    obtain ⟨hn, hargs, -⟩ := Annot.mk.inj h
    exact ⟨⟨_, hn⟩, _, hargs⟩

theorem Literal.derivable (l : Literal) : l.WellFormed ↔ Derivable Derivation.Literal.tree l := by
  cases l with
  | string value =>
    rw [WellFormed, value.derivable]
    constructor
    · rintro ⟨v, hv⟩
      exact ⟨.string v, congrArg Literal.string hv⟩
    · rintro ⟨v | n, h⟩
      · exact ⟨v, Literal.string.inj h⟩
      · exact Literal.noConfusion h
  | number value =>
    rw [WellFormed, value.derivable]
    constructor
    · rintro ⟨n, hn⟩
      exact ⟨.number n, congrArg Literal.number hn⟩
    · rintro ⟨v | n, h⟩
      · exact Literal.noConfusion h
      · exact ⟨n, Literal.number.inj h⟩

theorem Property.derivable (p : Property) :
    p.WellFormed ↔ Derivable Derivation.Property.tree p := by
  rw [WellFormed, p.key.derivable, p.value.derivable]
  constructor
  · rintro ⟨⟨k, hk⟩, v, hv⟩
    exact ⟨⟨k, v⟩, congrArg₂ (Property.mk · · default) hk hv⟩
  · rintro ⟨d, h⟩
    obtain ⟨hk, hv, -⟩ := Property.mk.inj h
    exact ⟨⟨_, hk⟩, _, hv⟩

theorem Arg.Value.derivable (v : Arg.Value) :
    v.WellFormed ↔ Derivable Derivation.ArgValue.tree v := by
  obtain value | name := v
  · rw [WellFormed, value.derivable]
    constructor
    · rintro ⟨v, hv⟩
      exact ⟨.string v, congrArg Arg.Value.string hv⟩
    · rintro ⟨v | n, h⟩
      · exact ⟨v, Arg.Value.string.inj h⟩
      · exact Arg.Value.noConfusion h
  · rw [WellFormed, name.derivable]
    constructor
    · rintro ⟨n, hn⟩
      exact ⟨.variable n, congrArg Arg.Value.variable hn⟩
    · rintro ⟨v | n, h⟩
      · exact Arg.Value.noConfusion h
      · exact ⟨n, Arg.Value.variable.inj h⟩

theorem Arg.derivable (a : Arg) : a.WellFormed ↔ Derivable Derivation.Arg.tree a := by
  rw [WellFormed, a.key.derivable, a.value.derivable]
  constructor
  · rintro ⟨⟨k, hk⟩, v, hv⟩
    exact ⟨⟨k, v⟩, congrArg₂ (Arg.mk · · default) hk hv⟩
  · rintro ⟨d, h⟩
    obtain ⟨hk, hv, -⟩ := Arg.mk.inj h
    exact ⟨⟨_, hk⟩, _, hv⟩

theorem Target.derivable (t : Target) : t.WellFormed ↔ Derivable Derivation.Target.tree t := by
  cases t with
  | name id =>
    rw [WellFormed, id.derivable]
    constructor
    · rintro ⟨n, hn⟩
      exact ⟨⟨n, []⟩, congrArg Target.name hn⟩
    · rintro ⟨⟨n, _ | ⟨m, ns⟩⟩, h⟩
      · exact ⟨n, Target.name.inj h⟩
      · exact Target.noConfusion h
  | path p =>
    rw [WellFormed, derivable_list Ident.derivable]
    constructor
    · rintro ⟨hlen, segments, hsegments⟩
      rw [length_eq_of_denotes hsegments] at hlen
      -- only one name would not be a path
      rcases segments with _ | ⟨n, _ | ⟨m, ns⟩⟩
      · simp at hlen
      · simp at hlen
      · exact ⟨⟨n, m :: ns⟩, congrArg (fun names => Target.path ⟨names, default⟩) hsegments⟩
    · rintro ⟨⟨n, _ | ⟨m, ns⟩⟩, h⟩
      · exact Target.noConfusion h
      · obtain ⟨hsegments, -⟩ := Path.mk.inj (Target.path.inj h)
        have hdenotes : Denotes (List.map Name.tree) (n :: m :: ns) p.segments := hsegments
        refine ⟨?_, _, hdenotes⟩
        rw [length_eq_of_denotes hdenotes]
        simp

theorem Command.derivable (c : Command) : c.WellFormed ↔ Derivable Derivation.Command.tree c := by
  cases c with
  | builtin c =>
    rw [WellFormed, derivable_list Arg.derivable]
    constructor
    · rintro ⟨args, hargs⟩
      refine ⟨.builtin c.builtin args, ?_⟩
      exact congrArg (fun args => Command.builtin ⟨c.builtin, args, default⟩) hargs
    · rintro ⟨b | t, h⟩
      · obtain ⟨-, hargs, -⟩ := BuiltinCall.mk.inj (Command.builtin.inj h)
        exact ⟨_, hargs⟩
      · exact Command.noConfusion h
  | call c =>
    rw [WellFormed, c.target.derivable, derivable_list Arg.derivable]
    constructor
    · rintro ⟨⟨t, ht⟩, args, hargs⟩
      refine ⟨.call t args, ?_⟩
      exact congrArg₂ (fun t args => Command.call ⟨t, args, default⟩) ht hargs
    · rintro ⟨b | t, h⟩
      · exact Command.noConfusion h
      · obtain ⟨ht, hargs, -⟩ := Call.mk.inj (Command.call.inj h)
        exact ⟨⟨_, ht⟩, _, hargs⟩

/-! ## The members of a module -/

theorem Environment.Entry.derivable (e : Environment.Entry) :
    e.WellFormed ↔ Derivable Derivation.EnvironmentEntry.tree e := by
  cases e with
  | property p =>
    rw [WellFormed, p.derivable]
    constructor
    · rintro ⟨q, hq⟩
      exact ⟨.property q, congrArg Environment.Entry.property hq⟩
    · rintro ⟨q | c | _, h⟩
      · exact ⟨q, Environment.Entry.property.inj h⟩
      · exact Environment.Entry.noConfusion h
      · exact Environment.Entry.noConfusion h
  | command c =>
    rw [WellFormed, c.derivable]
    constructor
    · rintro ⟨d, hd⟩
      exact ⟨.command d, congrArg Environment.Entry.command hd⟩
    · rintro ⟨q | d | _, h⟩
      · exact Environment.Entry.noConfusion h
      · exact ⟨d, Environment.Entry.command.inj h⟩
      · exact Environment.Entry.noConfusion h
  | vars b =>
    rw [WellFormed, derivable_list Arg.derivable]
    constructor
    · rintro ⟨args, hargs⟩
      refine ⟨.vars args true, ?_⟩
      exact congrArg (fun args => Environment.Entry.vars ⟨args, default⟩) hargs
    · rintro ⟨q | d | _, h⟩
      · exact Environment.Entry.noConfusion h
      · exact Environment.Entry.noConfusion h
      · exact ⟨_, (VarsBlock.mk.inj (Environment.Entry.vars.inj h)).1⟩

theorem Flow.Entry.derivable (e : Flow.Entry) :
    e.WellFormed ↔ Derivable Derivation.FlowEntry.tree e := by
  cases e with
  | command c =>
    rw [WellFormed, c.derivable]
    constructor
    · rintro ⟨d, hd⟩
      exact ⟨.command d, congrArg Flow.Entry.command hd⟩
    · rintro ⟨d | q, h⟩
      · exact ⟨d, Flow.Entry.command.inj h⟩
      · exact Flow.Entry.noConfusion h
  | property p =>
    rw [WellFormed, p.derivable]
    constructor
    · rintro ⟨q, hq⟩
      exact ⟨.property q, congrArg Flow.Entry.property hq⟩
    · rintro ⟨d | q, h⟩
      · exact Flow.Entry.noConfusion h
      · exact ⟨q, Flow.Entry.property.inj h⟩

theorem Param.derivable (p : Param) : p.WellFormed ↔ Derivable Derivation.Param.tree p := by
  rw [WellFormed, p.name.derivable, derivable_option StrLit.derivable]
  constructor
  · rintro ⟨⟨n, hn⟩, s, hs⟩
    refine ⟨⟨p.variadic, n, s⟩, ?_⟩
    exact congrArg₂ (Param.mk p.variadic · · default) hn hs
  · rintro ⟨d, h⟩
    obtain ⟨-, hn, hs, -⟩ := Param.mk.inj h
    exact ⟨⟨_, hn⟩, _, hs⟩

/-- An environment is a `Derivation.Member`, as its annotations are read before it. -/
theorem Environment.derivable (e : Environment) :
    e.WellFormed ↔ Derivable Derivation.Member.tree (.environment e) := by
  rw [WellFormed, derivable_list Annot.derivable, e.name.derivable,
    derivable_option RefList.derivable, derivable_list Environment.Entry.derivable]
  constructor
  · rintro ⟨⟨as, has⟩, ⟨n, hn⟩, ⟨r, hr⟩, es, hes⟩
    refine ⟨.construct as (.environment n r es true), congrArg Member.environment ?_⟩
    show (⟨erase e.annots, erase e.name, erase e.refs, erase e.entries, default⟩ : Environment)
      = ⟨_, n.tree, _, _, default⟩
    rw [has, hn, hr, hes]
  · rintro ⟨p | ⟨as, ⟨n, r, es, _⟩ | _ | _ | _ | _⟩, h⟩
    case construct.environment =>
      obtain ⟨has, hn, hr, hes, -⟩ := Environment.mk.inj (Member.environment.inj h)
      exact ⟨⟨_, has⟩, ⟨_, hn⟩, ⟨_, hr⟩, _, hes⟩
    all_goals exact Member.noConfusion h

theorem Flow.derivable (x : Flow) :
    x.WellFormed ↔ Derivable Derivation.Member.tree (.flow x) := by
  rw [WellFormed, derivable_list Annot.derivable, derivable_option RefList.derivable,
    x.name.derivable, derivable_option RefList.derivable, derivable_list Flow.Entry.derivable]
  constructor
  · rintro ⟨⟨as, has⟩, ⟨r, hr⟩, ⟨n, hn⟩, ⟨r', hr'⟩, es, hes⟩
    refine ⟨.construct as (.flow r n r' es true), congrArg Member.flow ?_⟩
    show (⟨erase x.annots, erase x.before, erase x.name, erase x.after, erase x.entries,
      default⟩ : Flow) = ⟨_, _, n.tree, _, _, default⟩
    rw [has, hr, hn, hr', hes]
  · rintro ⟨p | ⟨as, _ | _ | _ | _ | _⟩, h⟩
    case construct.flow =>
      obtain ⟨has, hr, hn, hr', hes, -⟩ := Flow.mk.inj (Member.flow.inj h)
      exact ⟨⟨_, has⟩, ⟨_, hr⟩, ⟨_, hn⟩, ⟨_, hr'⟩, _, hes⟩
    all_goals exact Member.noConfusion h

theorem FlowAlias.derivable (x : FlowAlias) :
    x.WellFormed ↔ Derivable Derivation.Member.tree (.flowAlias x) := by
  rw [WellFormed, derivable_list Annot.derivable, x.name.derivable, x.targets.derivable]
  constructor
  · rintro ⟨⟨as, has⟩, ⟨n, hn⟩, r, hr⟩
    refine ⟨.construct as (.flowAlias n r), congrArg Member.flowAlias ?_⟩
    show (⟨erase x.annots, erase x.name, erase x.targets, default⟩ : FlowAlias)
      = ⟨_, n.tree, r.tree, default⟩
    rw [has, hn, hr]
  · rintro ⟨p | ⟨as, _ | _ | _ | _ | _⟩, h⟩
    case construct.flowAlias =>
      obtain ⟨has, hn, hr, -⟩ := FlowAlias.mk.inj (Member.flowAlias.inj h)
      exact ⟨⟨_, has⟩, ⟨_, hn⟩, _, hr⟩
    all_goals exact Member.noConfusion h

theorem Fn.derivable (x : Fn) : x.WellFormed ↔ Derivable Derivation.Member.tree (.fn x) := by
  rw [WellFormed, derivable_list Annot.derivable, x.name.derivable,
    derivable_list Param.derivable, derivable_list Command.derivable]
  constructor
  · rintro ⟨⟨as, has⟩, ⟨n, hn⟩, ⟨ps, hps⟩, cs, hcs⟩
    refine ⟨.construct as (.fn n ps cs true), congrArg Member.fn ?_⟩
    show (⟨erase x.annots, erase x.name, erase x.params, erase x.body, default⟩ : Fn)
      = ⟨_, n.tree, _, _, default⟩
    rw [has, hn, hps, hcs]
  · rintro ⟨p | ⟨as, _ | _ | _ | _ | _⟩, h⟩
    case construct.fn =>
      obtain ⟨has, hn, hps, hcs, -⟩ := Fn.mk.inj (Member.fn.inj h)
      exact ⟨⟨_, has⟩, ⟨_, hn⟩, ⟨_, hps⟩, _, hcs⟩
    all_goals exact Member.noConfusion h

theorem Activity.derivable (a : Activity) :
    a.WellFormed ↔ Derivable Derivation.Member.tree (.activity a) := by
  rw [WellFormed, derivable_list Annot.derivable, a.name.derivable,
    derivable_list Property.derivable]
  constructor
  · rintro ⟨⟨as, has⟩, ⟨n, hn⟩, ps, hps⟩
    refine ⟨.construct as (.activity n ps true), congrArg Member.activity ?_⟩
    show (⟨erase a.annots, erase a.name, erase a.props, default⟩ : Activity)
      = ⟨_, n.tree, _, default⟩
    rw [has, hn, hps]
  · rintro ⟨p | ⟨as, _ | _ | _ | _ | _⟩, h⟩
    case construct.activity =>
      obtain ⟨has, hn, hps, -⟩ := Activity.mk.inj (Member.activity.inj h)
      exact ⟨⟨_, has⟩, ⟨_, hn⟩, _, hps⟩
    all_goals exact Member.noConfusion h

/-- A member is well-formed exactly if a derivation denotes it; the constructs by their own
lemmas. -/
theorem Member.derivable (m : Member) : m.WellFormed ↔ Derivable Derivation.Member.tree m := by
  cases m with
  | property p =>
    rw [WellFormed, p.derivable]
    constructor
    · rintro ⟨q, hq⟩
      exact ⟨.property q, congrArg Member.property hq⟩
    · rintro ⟨q | ⟨as, _ | _ | _ | _ | _⟩, h⟩
      case property => exact ⟨q, Member.property.inj h⟩
      all_goals exact Member.noConfusion h
  | environment e => exact e.derivable
  | flow x => exact x.derivable
  | flowAlias x => exact x.derivable
  | fn x => exact x.derivable
  | activity a => exact a.derivable

/-! ## Modules and documents -/

theorem Origin.derivable (o : Origin) : o.WellFormed ↔ Derivable Derivation.Origin.tree o := by
  cases o with
  | path place span =>
    rw [WellFormed, place.derivable]
    constructor
    · rintro ⟨q, hq⟩
      exact ⟨.path q, congrArg (Origin.path · default) hq⟩
    · rintro ⟨q | _, h⟩
      · exact ⟨q, (Origin.path.inj h).1⟩
      · exact Origin.noConfusion h
  | git url channel span =>
    rw [WellFormed, url.derivable, channel.derivable]
    constructor
    · rintro ⟨⟨u, hu⟩, c, hc⟩
      exact ⟨.git u c, congrArg₂ (Origin.git · · default) hu hc⟩
    · rintro ⟨q | ⟨u, c⟩, h⟩
      · exact Origin.noConfusion h
      · obtain ⟨hu, hc, -⟩ := Origin.git.inj h
        exact ⟨⟨u, hu⟩, c, hc⟩

theorem Item.derivable (x : Item) : x.WellFormed ↔ Derivable Derivation.Top.tree x := by
  cases x with
  | module m =>
    rw [WellFormed, Module.WellFormed, derivable_list Annot.derivable, m.name.derivable,
      derivable_option RefList.derivable, derivable_list Member.derivable]
    constructor
    · rintro ⟨⟨as, has⟩, ⟨n, hn⟩, ⟨r, hr⟩, ms, hms⟩
      refine ⟨.module as n r ms true, congrArg Item.module ?_⟩
      show (⟨erase m.annots, erase m.name, erase m.refs, erase m.members, default⟩ : Module)
        = ⟨_, n.tree, _, _, default⟩
      rw [has, hn, hr, hms]
    · rintro ⟨_ | _, h⟩
      · obtain ⟨has, hn, hr, hms, -⟩ := Module.mk.inj (Item.module.inj h)
        exact ⟨⟨_, has⟩, ⟨_, hn⟩, ⟨_, hr⟩, _, hms⟩
      · exact Item.noConfusion h
  | external e =>
    rw [WellFormed, External.WellFormed, ← and_assoc, derivable_names, e.origin.derivable]
    constructor
    · rintro ⟨⟨r, hr⟩, o, ho⟩
      refine ⟨.external r o true, congrArg Item.external ?_⟩
      exact congrArg₂ (External.mk · · default) hr ho
    · rintro ⟨_ | ⟨r, o, _⟩, h⟩
      · exact Item.noConfusion h
      · obtain ⟨hr, ho, -⟩ := External.mk.inj (Item.external.inj h)
        exact ⟨⟨r, hr⟩, o, ho⟩

/-- A document is well-formed exactly if a `Derivation.File` denotes it. -/
theorem Document.derivable (d : Document) : d.WellFormed ↔ Derivable File.tree d := by
  rw [WellFormed, derivable_list Item.derivable]
  constructor
  · rintro ⟨tops, htops⟩
    exact ⟨⟨tops⟩, congrArg (Document.mk · default) htops⟩
  · rintro ⟨f, h⟩
    exact ⟨f.tops, (Document.mk.inj h).1⟩

/-- The trees that sources are read as are the trees that are `WellFormed`, spans aside. -/
theorem exists_parse_sameTree_iff (t : Document) :
    (∃ source t', parse source = .ok t' ∧ Document.sameTree t t' = true) ↔ t.WellFormed := by
  rw [t.derivable]
  constructor
  · rintro ⟨source, t', ht', hsame⟩
    obtain ⟨ts, d, -, -, htree⟩ := exists_derivation ht'
    exact ⟨d, (Document.erase_eq_of_sameTree hsame).trans htree⟩
  · rintro ⟨d, hd⟩
    obtain ⟨source, ts, hts, hphrase⟩ := d.exists_source
    obtain ⟨t', ht', htree, -⟩ := parse_of_derivation hts hphrase.symm
    exact ⟨source, t', ht', Document.sameTree_of_erase_eq (hd.trans htree.symm)⟩

end Gxl
