import Gxl.Grammar.Command
import Gxl.Proofs.Document.Spans
import Gxl.Proofs.Grammar.Combine
import Gxl.Proofs.Grammar.Derivation
import Mathlib.Tactic.Choose

/-!
# Reading names, annotations and commands

Each rule of `Gxl.Grammar.Command` meets the contract of `Gxl.Proofs.Grammar.Parses` with the
derivations of `Gxl.Proofs.Grammar.Derivation`.
-/

namespace Gxl

open Gxl.Derivation (Name Quoted Numeral)

/-! ## Leaves -/

namespace Derivation

/-- The symbol of a name can be spelled, since the name is a word (`Name.isWord`). -/
theorem Name.genuine_symbol (n : Name) : n.symbol.genuine = true :=
  n.isWord

/-- The symbol of a string literal can be spelled (`Quoted.isQuoted`). -/
theorem Quoted.genuine_symbol (s : Quoted) : s.symbol.genuine = true :=
  s.isQuoted

@[simp] theorem Name.kind_symbol (n : Name) : n.symbol.kind = .ident := rfl

@[simp] theorem Quoted.kind_symbol (s : Quoted) : s.symbol.kind = .str := rfl

@[simp] theorem Numeral.kind_symbol (n : Numeral) : n.symbol.kind = .number := rfl

/-- A `genuine` symbol of the kind of words is that of a name. -/
theorem Name.exists_symbol {s : Symbol} (hs : s.genuine = true) (hk : s.kind = .ident) :
    ∃ n : Name, n.symbol = s := by
  obtain ⟨kind, text⟩ := s
  subst hk
  exact ⟨⟨text, hs⟩, rfl⟩

/-- A `genuine` symbol of the kind of numbers is that of a number literal. -/
theorem Numeral.exists_symbol {s : Symbol} (hs : s.genuine = true) (hk : s.kind = .number) :
    ∃ n : Numeral, n.symbol = s := by
  obtain ⟨kind, text⟩ := s
  subst hk
  exact ⟨⟨text, hs⟩, rfl⟩

/-- A name is told by its symbol. -/
theorem Name.symbol_injective {m n : Name} (h : m.symbol = n.symbol) : m = n := by
  cases m
  cases n
  simpa [symbol, Symbol.word] using h

/-- A string literal is told by its symbol. -/
theorem Quoted.symbol_injective {s t : Quoted} (h : s.symbol = t.symbol) : s = t := by
  cases s
  cases t
  simpa [symbol, Symbol.quoted] using h

/-- A number literal is told by its symbol. -/
theorem Numeral.symbol_injective {m n : Numeral} (h : m.symbol = n.symbol) : m = n := by
  cases m
  cases n
  simpa [symbol, Symbol.numeral] using h

/-- A `genuine` symbol of the kind of strings is that of a string literal, by the text between its
quotes. -/
theorem Quoted.exists_symbol {s : Symbol} (hs : s.genuine = true) (hk : s.kind = .str) :
    ∃ q : Quoted, q.symbol = s := by
  obtain ⟨kind, text⟩ := s
  subst hk
  have hquoted : Lexeme.isQuoted text.toList = true := hs
  obtain ⟨inner, hinner⟩ : ∃ inner, text = "\"" ++ String.ofList inner ++ "\"" := by
    cases htext : text.toList with
    | nil => simp [htext, Lexeme.isQuoted] at hquoted
    | cons c cs =>
      simp only [htext, Lexeme.isQuoted, Bool.and_eq_true, beq_iff_eq] at hquoted
      obtain ⟨inner, rfl⟩ := Lexeme.closeString_last hquoted.2
      refine ⟨inner, ?_⟩
      rw [← String.toList_inj, htext, hquoted.1]
      simp
  subst hinner
  exact ⟨⟨String.ofList inner, hquoted⟩, rfl⟩

/-- Without its quotes (`Rule.unquote`) a string literal is the text between them. -/
theorem Quoted.unquote_text (q : Quoted) : Rule.unquote q.symbol.text = q.raw := by
  simp [Rule.unquote, symbol, Symbol.quoted]

end Derivation

namespace Rule

/-- A derivation `b` denotes the pieces of tree that differ from its own at most in their spans. -/
def Denotes {α β : Type} [Placed α] (tree : β → α) (b : β) (a : α) : Prop :=
  erase a = tree b

/-- The start of a phrase is `Viable`, if the derivation of the phrase denotes its own tree. -/
theorem Viable.of_tree {α β : Type} [Placed α] {tree : β → α} {L : β → Phrase → Prop}
    {w : Phrase} (b : β) (u : Phrase) (htree : Denotes tree b (tree b)) (h : L b (w ++ u)) :
    Viable (Denotes tree) L w :=
  ⟨b, tree b, u, htree, h⟩

/-- Lists are denoted entry by entry: `List.Forall₂` of `Denotes` is denoting the list of trees. -/
theorem erase_eq_map {α β : Type} [Placed α] {tree : β → α} {bs : List β} {as : List α}
    (h : List.Forall₂ (Denotes tree) bs as) : erase as = bs.map tree := by
  induction h with
  | nil => rfl
  | @cons b a bs as hden _ ih =>
    show erase a :: erase as = tree b :: bs.map tree
    rw [ih, hden]

variable {P : Phrase → Prop}

/-- A token with a text of its own is read as the leaf `sym` has for it: the rules `ident`, `string`
and those of numbers are cases of this. -/
theorem Parses.leaf {α β : Type} {kind : Kind} {sym : β → Symbol} {f : Token → α}
    {Den : β → α → Prop} (b₀ : β) (hsym : ∀ b, (sym b).genuine = true ∧ (sym b).kind = kind)
    (hof : ∀ s : Symbol, s.genuine = true → s.kind = kind → ∃ b, sym b = s)
    (hinj : ∀ b b', sym b = sym b' → b = b')
    (hden : ∀ b (t : Token), t.symbol = sym b → Den b (f t)) :
    Parses P (Rule.expect kind >>= fun t => pure (f t)) Den (fun b w => w = [sym b])
      (fun _ _ => True) nowhere := by
  -- the symbol that is taken tells which derivation it is of
  have hchoice : ∀ s : { s : Symbol // s.genuine = true ∧ s.kind = kind }, ∃ b, sym b = s.1 :=
    fun s => hof s.1 s.2.1 s.2.2
  choose g hg using hchoice
  refine .congr ((Parses.expect ⟨sym b₀, hsym b₀⟩).andThen fun s t ht =>
    .pure (g s) (hden _ t ?_) fun _ _ => trivial) ?_ ?_
  · rw [hg, ht]
  · rintro _ w ⟨s, _, rfl, rfl, rfl⟩
    rw [hg]
    rfl
  · rintro b w rest - rfl -
    refine ⟨⟨sym b, hsym b⟩, [], rfl, hinj _ _ ?_, rfl⟩
    rw [hg]

/-- A name is read by `ident`. -/
theorem parses_ident :
    Parses P ident (Denotes Name.tree) (fun n w => w = [n.symbol]) (fun _ _ => True) nowhere := by
  refine .leaf ⟨"x", by decide⟩ (fun n => ⟨n.genuine_symbol, rfl⟩)
    (fun s => Name.exists_symbol) (fun _ _ => Name.symbol_injective) ?_
  intro n t ht
  show (⟨t.text, default⟩ : Ident) = n.tree
  rw [← Token.symbol_text, ht]
  rfl

/-- A string literal is read by `string`. -/
theorem parses_string :
    Parses P string (Denotes Quoted.tree) (fun s w => w = [s.symbol]) (fun _ _ => True)
      nowhere := by
  refine .leaf ⟨"", by decide⟩ (fun s => ⟨s.genuine_symbol, rfl⟩)
    (fun s => Quoted.exists_symbol) (fun _ _ => Quoted.symbol_injective) ?_
  intro s t ht
  show (⟨unquote t.text, default⟩ : StrLit) = s.tree
  rw [← Token.symbol_text, ht, s.unquote_text]
  rfl

/-! ## Lists of names -/

/-- Names with commas between them are read, up to the first that no comma follows:
`Derivation.Refs`. -/
theorem parses_refList :
    Parses P refList (Denotes Derivation.Refs.tree) (fun r w => w = r.yield)
      (fun _ rest => Clear .comma rest) nowhere := by
  refine .congr (parses_ident.andThen fun n first hfirst =>
    (Parses.eachAfter_free (by decide) parses_ident).bind (fun ns others hothers =>
      .spanFrom_bind fun span => .pure (⟨n, ns⟩ : Derivation.Refs) ?_ fun _ hv => hv) ?_) ?_ ?_
  · show (⟨erase first :: erase others, default⟩ : RefList) = _
    rw [hfirst, erase_eq_map hothers]
    rfl
  · rintro ns _ w rest - ⟨rfl, rfl⟩ hF
    exact hF
  · rintro _ w ⟨n, _, rfl, ns, _, rfl, rfl, rfl⟩
    simp [Derivation.Refs.yield, separated]
  · rintro ⟨n, ns⟩ w rest - rfl -
    exact ⟨n, _, rfl, ns, [], by simp, rfl, rfl⟩

/-- Names behind a sign are read by `refsAfter`, if the sign is there. -/
theorem parses_refsAfter {sign : Kind} (hsign : sign.spelling ≠ "") :
    Parses P (refsAfter sign) (Denotes (Option.map Derivation.Refs.tree))
      (fun r w => w = Derivation.Refs.yieldAfter sign r)
      (fun r rest => Clear (if r.isSome then .comma else sign) rest) nowhere := by
  refine .congr (.eat_bind hsign (fun _ _ => parses_refList.bind
    (fun r refs hrefs => .pure (some r) ?_ fun _ hv => hv) ?_) (.pure none rfl fun _ hv => hv) ?_)
    ?_ ?_
  · show some (erase refs) = _
    rw [hrefs]
    rfl
  · rintro r _ w rest - ⟨rfl, rfl⟩ hF
    exact hF
  · rintro r w rest ⟨rfl, rfl⟩ hF
    exact hF
  · rintro _ w (⟨_, rfl, r, _, rfl, rfl, rfl⟩ | ⟨rfl, rfl⟩)
    · simp [Derivation.Refs.yieldAfter]
    · rfl
  · rintro (_ | r) w rest - rfl -
    · exact .inr ⟨rfl, rfl⟩
    · exact .inl ⟨_, rfl, r, [], by simp, rfl, rfl⟩

/-! ## Annotations -/

/-- An argument of an annotation is read.  Its first token tells which constructor of
`Derivation.AnnotArg` it is. -/
theorem parses_annotArg :
    Parses P annotArg (Denotes Derivation.AnnotArg.tree) (fun a w => w = a.yield)
      (fun _ _ => True) nowhere := by
  refine .peek_bind fun t ht => ?_
  split
  · rename_i hkind
    refine parses_string.build .bare (fun _ _ => congrArg Annot.Arg.bare) (fun _ _ => id)
      (fun _ _ _ _ _ => id) ?_
    rintro (⟨n, s⟩ | s) w rest hv rfl -
    · exact absurd (hv.2.kind_eq.trans hkind) (by simp)
    · exact ⟨s, rfl, rfl, trivial⟩
  · rename_i hkind
    refine .congr (parses_ident.andThen fun n key hkey => .signThen (by decide)
      (parses_string.andThen fun s value hvalue =>
        .pure (Derivation.AnnotArg.keyed n s) ?_ fun _ _ => trivial)) ?_ ?_
    · show Annot.Arg.keyed (erase key) (erase value) = _
      rw [hkey, hvalue]
      rfl
    · rintro _ w ⟨n, _, rfl, _, rfl, s, _, rfl, rfl, rfl⟩
      rfl
    · rintro (⟨n, s⟩ | s) w rest hv rfl -
      · exact ⟨n, _, rfl, _, rfl, s, [], rfl, rfl, rfl⟩
      · exact absurd (hv.2.kind_eq.trans hkind) (by simp)
  · rename_i hstr hident
    refine .fail (.of_tree (.bare default) _ rfl rfl) (.of_forall ⟨?_, ?_⟩) ?_
    · exact .token (s := .quoted "") (.of_tree (.bare default) [] rfl rfl)
    · exact .token (s := .word "x") (.of_tree (.keyed default default) _ rfl rfl)
    rintro (⟨n, s⟩ | s) w rest hv rfl -
    · exact hident hv.2.kind_eq.symm
    · exact hstr hv.2.kind_eq.symm

/-- The arguments of an annotation are read by `annotArgs`, if a parenthesis opens them. -/
theorem parses_annotArgs :
    Parses P annotArgs (Denotes (List.map Derivation.AnnotArg.tree))
      (fun args w => w = Derivation.Annot.yieldArgs args)
      (fun args rest => args = [] → Clear .parenOpen rest) nowhere := by
  refine .congr (.eat_bind (by decide) (fun _ _ => (Parses.commaList_free parses_annotArg).bind
    (fun p args hargs => .signThen (by decide) (.pure (p.1 :: p.2) (erase_eq_map hargs) ?_)) ?_)
    (.pure [] rfl fun _ hv _ => hv) ?_) ?_ ?_
  · simp
  · rintro p _ w rest - ⟨w', rfl, rfl, rfl⟩ -
    simp
  · rintro args w rest ⟨rfl, rfl⟩ hF
    exact hF rfl
  · rintro _ w (⟨_, rfl, p, _, rfl, _, rfl, rfl, rfl⟩ | ⟨rfl, rfl⟩) <;> rfl
  · rintro (_ | ⟨a, args⟩) w rest - rfl -
    · exact .inr ⟨rfl, rfl⟩
    · exact .inl ⟨_, rfl, (a, args), _, rfl, [], rfl, rfl, rfl⟩

/-- Annotations are read by `annots`, as many as there are. -/
theorem parses_annots :
    Parses P annots (List.Forall₂ (Denotes Derivation.Annot.tree))
      (fun as w => w = as.flatMap Derivation.Annot.yield) (fun _ rest => Clear .annotOpen rest)
      nowhere := by
  refine .many_free (.congr (.eat_bind (by decide) (fun t _ => parses_ident.andThen
    fun n name hname => parses_annotArgs.bind (fun ds args hargs => .signThen (by decide)
      (.spanFrom_bind fun span => .pure (some (⟨n, ds⟩ : Derivation.Annot)) (Option.Rel.some ?_)
        fun _ _ => trivial)) ?_)
    (.pure none .none fun _ hv => hv) ?_) ?_ ?_) ?_
  · show (⟨erase name, erase args, default⟩ : Annot) = _
    rw [hname, hargs]
    rfl
  · rintro ds _ w rest - ⟨w', rfl, rfl, rfl⟩ - -
    simp
  · rintro o w rest ⟨rfl, rfl⟩ hF
    exact hF
  · rintro _ w (⟨_, rfl, n, _, rfl, ds, _, rfl, _, rfl, rfl, rfl⟩ | ⟨rfl, rfl⟩) <;> rfl
  · rintro (_ | ⟨n, ds⟩) w rest - rfl -
    · exact .inr ⟨rfl, rfl⟩
    · exact .inl ⟨_, rfl, n, _, rfl, ds, _, rfl, [], rfl, rfl, rfl⟩
  · intro a
    simp [Derivation.Annot.yield]

/-! ## Commands -/

/-- The value of an argument is read.  Its token tells which constructor of `Derivation.ArgValue` it
is. -/
theorem parses_argValue :
    Parses P argValue (Denotes Derivation.ArgValue.tree) (fun v w => w = [v.symbol])
      (fun _ _ => True) nowhere := by
  refine .peek_bind fun t ht => ?_
  split
  · rename_i hkind
    refine parses_string.build .string (fun _ _ => congrArg Arg.Value.string) (fun _ _ => id)
      (fun _ _ _ _ _ => id) ?_
    rintro (s | n) w rest hv rfl -
    · exact ⟨s, rfl, rfl, trivial⟩
    · exact absurd (hv.2.kind_eq.trans hkind) (by simp [Derivation.ArgValue.symbol])
  · rename_i hkind
    refine parses_ident.build .variable (fun _ _ => congrArg Arg.Value.variable) (fun _ _ => id)
      (fun _ _ _ _ _ => id) ?_
    rintro (s | n) w rest hv rfl -
    · exact absurd (hv.2.kind_eq.trans hkind) (by simp [Derivation.ArgValue.symbol])
    · exact ⟨n, rfl, rfl, trivial⟩
  · rename_i hstr hident
    refine .fail (.of_tree (.string default) _ rfl rfl) (.of_forall ⟨?_, ?_⟩) ?_
    · exact .token (s := .quoted "") (.of_tree (.string default) [] rfl rfl)
    · exact .token (s := .word "x") (.of_tree (.variable default) [] rfl rfl)
    rintro (s | n) w rest hv rfl -
    · exact hstr hv.2.kind_eq.symm
    · exact hident hv.2.kind_eq.symm

/-- An argument is read by `arg`: a name, a colon and a value. -/
theorem parses_arg :
    Parses P arg (Denotes Derivation.Arg.tree) (fun a w => w = a.yield) (fun _ _ => True)
      nowhere := by
  refine .congr (parses_ident.andThen fun n key hkey => .signThen (by decide)
    (parses_argValue.andThen fun v value hvalue => .spanFrom_bind fun span =>
      .pure (⟨n, v⟩ : Derivation.Arg) ?_ fun _ _ => trivial)) ?_ ?_
  · show (⟨erase key, erase value, default⟩ : Arg) = _
    rw [hkey, hvalue]
    rfl
  · rintro _ w ⟨n, _, rfl, _, rfl, v, _, rfl, rfl, rfl⟩
    rfl
  · rintro ⟨n, v⟩ w rest - rfl -
    exact ⟨n, _, rfl, _, rfl, v, [], rfl, rfl, rfl⟩

/-- Arguments between parentheses are read by `callArgs`, also when there are none. -/
theorem parses_callArgs :
    Parses P callArgs (Denotes (List.map Derivation.Arg.tree))
      (fun args w => w = .sign .parenOpen :: (separated Derivation.Arg.yield args
        ++ [.sign .parenClose]))
      (fun _ _ => True) nowhere := by
  refine .congr (.signThen (by decide) (.eat_bind (by decide)
    (fun _ _ => .pure [] rfl fun _ _ => trivial)
    ((Parses.commaList_free parses_arg).bind (fun p args hargs => .signThen (by decide)
      (.pure (p.1 :: p.2) (erase_eq_map hargs) fun _ _ => trivial)) ?_) ?_)) ?_ ?_
  · rintro p _ w rest - ⟨w', rfl, rfl, rfl⟩ -
    simp
  · rintro args w rest ⟨p, _, rfl, _, rfl, rfl, rfl⟩ -
    simp [separated, Derivation.Arg.yield]
  · rintro args w ⟨_, rfl, ⟨_, rfl, rfl, rfl⟩ | ⟨p, _, rfl, _, rfl, rfl, rfl⟩⟩ <;> rfl
  · rintro (_ | ⟨a, args⟩) w rest - rfl -
    · exact ⟨_, rfl, .inl ⟨[], rfl, rfl, rfl⟩⟩
    · exact ⟨_, rfl, .inr ⟨(a, args), _, rfl, [], rfl, rfl, rfl⟩⟩

/-- The names behind the first one of a target are read, if a dot stands there: what is left of the
rule `target` behind its first name. -/
theorem parses_targetTail {n : Name} {first : Ident} (hfirst : Denotes Name.tree n first) :
    Parses P (atKind .dot >>= fun c => if c = true then (do
        let rest ← eachAfter .dot ident
        return .path ⟨first :: rest, ← spanFrom first.span⟩) else pure (.name first))
      (Denotes Derivation.Target.tree)
      (fun t w => t.head = n ∧ w = t.tail.flatMap fun n => [.sign .dot, n.symbol])
      (fun _ rest => Clear .dot rest) nowhere := by
  refine .atKind_ite ?_ ?_
  · intro s hs hkind
    refine .congr ((Parses.eachAfter_free (by decide) parses_ident).keep.bind
      (M := fun ns t w => t = ⟨n, ns⟩ ∧ w = []) (fun ns rest hrest => ?_) ?_) ?_ ?_
    · cases ns with
      | nil =>
        -- a dot stands next, so there is a name behind it
        refine .of_false ⟨⟨n, []⟩, .name n.tree, [], rfl, rfl, rfl⟩ ?_
        rintro v ⟨hv, hclear⟩
        exact hclear s hv.2 hkind
      | cons m ns =>
        refine .spanFrom_bind fun span => .pure (⟨n, m :: ns⟩ : Derivation.Target) ?_
          fun v hv => hv.2
        show Target.path ⟨erase first :: erase rest, default⟩ = _
        rw [hfirst, erase_eq_map hrest]
        rfl
    · rintro ns _ w rest hv ⟨rfl, rfl⟩ hF
      exact ⟨hv, hF⟩
    · rintro _ w ⟨ns, _, rfl, rfl, rfl⟩
      exact ⟨rfl, List.append_nil _⟩
    · rintro ⟨m, ns⟩ w rest - ⟨rfl, rfl⟩ -
      exact ⟨ns, [], (List.append_nil _).symm, rfl, rfl⟩
  · intro s hs hkind
    refine .congr (.pure (⟨n, []⟩ : Derivation.Target) ?_ ?_) ?_ ?_
    · show Target.name (erase first) = _
      rw [hfirst]
      rfl
    · exact fun v hv => hv.2.clear hkind
    · rintro t w ⟨rfl, rfl⟩
      exact ⟨rfl, rfl⟩
    · rintro ⟨m, _ | ⟨m', ns⟩⟩ w rest hv ⟨rfl, rfl⟩ -
      · exact ⟨rfl, rfl⟩
      · exact absurd hv.2.kind_eq.symm hkind

/-- A target is read by `target`, up to the first name that no dot follows. -/
theorem parses_target :
    Parses P target (Denotes Derivation.Target.tree) (fun t w => w = t.yield)
      (fun _ rest => Clear .dot rest) nowhere := by
  refine .congr (parses_ident.andThen fun n first hfirst => parses_targetTail hfirst) ?_ ?_
  · rintro ⟨m, ns⟩ w ⟨n, _, rfl, rfl, rfl⟩
    rfl
  · rintro ⟨n, ns⟩ w rest - rfl -
    exact ⟨n, _, rfl, rfl, rfl⟩

/-- The arguments of a call and its semicolon are read by `callTail`. -/
theorem parses_callTail {d : Derivation.Target} {callee : Target} {start : Span}
    (hcallee : Denotes Derivation.Target.tree d callee) :
    Parses P (callTail callee start)
      (fun args => Denotes Derivation.Command.tree (.call d args))
      (fun args w => w = Derivation.Command.yieldTail args) (fun _ _ => True) nowhere := by
  refine .congr (parses_callArgs.andThen fun ds args hargs => .spanFrom_bind fun span =>
    .signThen (by decide) (.pure ds ?_ fun _ _ => trivial)) ?_ ?_
  · show Command.call ⟨erase callee, erase args, default⟩ = _
    rw [hcallee, hargs]
    rfl
  · rintro _ w ⟨ds, _, rfl, _, rfl, rfl, rfl⟩
    simp [Derivation.Command.yieldTail]
  · rintro ds w rest - rfl -
    refine ⟨ds, [.sign .semicolon], ?_, [], rfl, rfl, rfl⟩
    simp [Derivation.Command.yieldTail]

/-- The names of builtin commands are all different (`Symbol.builtin`). -/
theorem builtin_injective {b c : Builtin} (h : Symbol.builtin b = .builtin c) : b = c := by
  have hname : b.name = c.name := congrArg Symbol.text h
  have hb : Builtin.ofName? c.name = some b := Builtin.ofName?_eq_some_iff.2 hname
  have hc : Builtin.ofName? c.name = some c := Builtin.ofName?_eq_some_iff.2 rfl
  exact Option.some.inj (hb.symm.trans hc)

/-- A genuine token of the kind of builtin commands is the name of one, which `Builtin.ofName?`
finds. -/
theorem exists_builtin {t : Token} (ht : Stands t.symbol) (hkind : t.kind = .builtin) :
    ∃ b, Builtin.ofName? t.text = some b ∧ t.symbol = .builtin b := by
  have hgenuine : t.symbol.genuine = true := ht.resolve_right (by simp [hkind])
  have hname : (Builtin.ofName? t.text).isSome = true := by
    simpa [Symbol.genuine, hkind] using hgenuine
  obtain ⟨b, hb⟩ := Option.isSome_iff_exists.1 hname
  refine ⟨b, hb, ?_⟩
  rw [Token.symbol, hkind, ← Builtin.ofName?_eq_some_iff.1 hb]
  rfl

/-- A command that calls a builtin is read, where the name of the builtin stands: that case of the
rule `command`. -/
theorem parses_builtin {b : Builtin} {start : Span} (hP : ∀ v, P v → Starts (.builtin b) v) :
    Parses P (do
        discard advance
        let args ← callArgs
        let span ← spanFrom start
        discard <| expect .semicolon
        return .builtin ⟨b, args, span⟩)
      (Denotes Derivation.Command.tree) (fun c w => w = c.yield) (fun _ _ => True) nowhere := by
  refine .congr (.discard_bind ((Parses.advance (Symbol.genuine_builtin b) hP).bind
    (fun _ _ _ => parses_callArgs.andThen fun ds args hargs => .spanFrom_bind fun span =>
      .signThen (by decide) (.pure (Derivation.Command.builtin b ds) ?_ fun _ _ => trivial))
    fun _ _ _ _ hv _ _ => hv)) ?_ ?_
  · show Command.builtin ⟨b, erase args, default⟩ = _
    rw [hargs]
    rfl
  · rintro _ w ⟨_, _, rfl, ds, _, rfl, _, rfl, rfl, rfl⟩
    simp [Derivation.Command.yield, Derivation.Command.yieldTail]
  · rintro (⟨b', ds⟩ | ⟨d, ds⟩) w rest hv rfl -
    · obtain rfl : b' = b := builtin_injective (starts_cons.1 (hP _ hv))
      refine ⟨(), _, rfl, ds, [.sign .semicolon], ?_, [], rfl, rfl, rfl⟩
      simp
    · exact absurd (hP _ hv).kind_eq (by simp)

/-- A command is read by `command` where the name of a builtin or a word stands, and its first token
tells which of the two it calls.  Nowhere else is a command looked for, so none is ever reported
missing. -/
theorem parses_command (hP : ∀ v, P v → At .builtin v ∨ At .ident v) :
    Parses P command (Denotes Derivation.Command.tree) (fun c w => w = c.yield) (fun _ _ => True)
      nowhere := by
  refine .peek_bind fun t ht => ?_
  split
  · rename_i hkind
    obtain ⟨b, hb, hsymbol⟩ := exists_builtin ht hkind
    rw [hb, hsymbol]
    exact parses_builtin fun v hv => hv.2
  · rename_i hkind
    refine .congr (parses_target.bind
      (M := fun d c w => ∃ ds, c = .call d ds ∧ w = Derivation.Command.yieldTail ds)
      (fun d callee hcallee => ?_) ?_) ?_ ?_
    · refine (parses_callTail hcallee).map (.call d) (fun _ _ => id) ?_ (fun _ _ _ _ _ => id) ?_
      · exact fun ds w hw => ⟨ds, rfl, hw⟩
      · rintro _ w rest - ⟨ds, rfl, rfl⟩ -
        exact ⟨ds, rfl, rfl, trivial⟩
    · rintro d _ w rest - ⟨ds, rfl, rfl⟩ -
      simp [Derivation.Command.yieldTail]
    · rintro _ w ⟨d, _, rfl, ds, rfl, rfl⟩
      rfl
    · rintro (⟨b, ds⟩ | ⟨d, ds⟩) w rest hv rfl -
      · exact absurd (hv.2.kind_eq.trans hkind) (by simp)
      · exact ⟨d, _, rfl, ds, rfl, rfl⟩
  · rename_i hbuiltin hident
    refine .of_false (.of_tree default _ rfl rfl) ?_
    rintro v ⟨hv, hs⟩
    rcases hP v hv with ⟨s, -, hkind, hs'⟩ | ⟨s, -, hkind, hs'⟩
    · exact hbuiltin ((congrArg Symbol.kind (hs.unique hs')).trans hkind)
    · exact hident ((congrArg Symbol.kind (hs.unique hs')).trans hkind)

end Rule

end Gxl
