import Gxl.Proofs.Grammar.Takes

/-!
# The tokens that the tree is read from

The nodes that a rule builds are read from the tokens that it takes (`Forest.ReadFrom`), one lemma
for each rule.  A rule that goes on from tokens taken before, such as the annotations of a construct
or the target of a call, is given what these are read as, and that its node starts with the first of
them.

A semicolon behind a command or a closing brace is taken and belongs to no node.
-/

namespace Gxl.Rule

variable {β : Type} {u held rest : List Token} {t : Token}

/-- The first of the tokens taken and held is the first taken, once there is one token `x` more. -/
theorem head?_of_cons {x : Token} (ht : (u ++ held).head? = some t) (hheld : held = x :: rest) :
    (u ++ [x]).head? = some t := by
  subst hheld
  cases u <;> exact ht

/-! ## Names, annotations and commands -/

/-- A name is read from its token, a leaf of the forest. -/
theorem takes_ident : Takes [] held ident fun w _ i => i.forest.ReadFrom w :=
  .expect_bind nofun fun t _ _ _ _ => .pure (.leaf t)

/-- A name on its own, read by `ident`, is a token. -/
theorem Takes.name_bind {k : Ident → Rule β} {Q : List Token → List Token → β → Prop}
    (h : ∀ t rest, held = t :: rest → t.kind = .ident →
      Takes (u ++ [t]) rest (k ⟨t.text, t.span⟩) Q) : Takes u held (ident >>= k) Q := by
  have hident : Takes [] held ident fun w _ i =>
      ∃ t, w = [t] ∧ i = ⟨t.text, t.span⟩ ∧ t.kind = .ident :=
    .expect_bind nofun fun t _ _ ht _ => .pure ⟨t, rfl, rfl, ht⟩
  refine hident.bind fun i w rest hheld ⟨t, hw, hi, ht⟩ => ?_
  subst hw hi
  exact h t rest hheld ht

/-- The same without its kind. -/
theorem Takes.ident_bind {k : Ident → Rule β} {Q : List Token → List Token → β → Prop}
    (h : ∀ t rest, held = t :: rest → Takes (u ++ [t]) rest (k ⟨t.text, t.span⟩) Q) :
    Takes u held (ident >>= k) Q :=
  .name_bind fun t rest hheld _ => h t rest hheld

/-- A string literal is read from its token, whose text is the `raw` text between two quotes. -/
theorem takes_string : Takes [] held string fun w _ s => s.forest.ReadFrom w := by
  refine .expect_bind nofun fun t _ _ ht hgenuine => .pure ?_
  -- the text of the token is the text of the literal between its quotes
  obtain ⟨q, hq⟩ := Derivation.Quoted.exists_symbol hgenuine ht
  have htext : t.text = "\"" ++ unquote t.text ++ "\"" := by
    rw [← Token.symbol_text, ← hq, q.unquote_text]
    rfl
  show (Forest.leaf t.span ("\"" ++ unquote t.text ++ "\"")).ReadFrom [t]
  rw [← htext]
  exact .leaf t

/-- Names with commas are read from all tokens taken, the list as a node and the names side by
side. -/
theorem takes_refList :
    Takes [] held refList fun w _ r =>
      r.forest.ReadFrom w ∧ (Forest.ofList Ident.forest r.names).ReadFrom w := by
  refine .ident_bind fun t rest _ => ?_
  refine (Takes.eachAfter (by decide) steady_ident fun _ => takes_ident).bind fun is w _ _ his => ?_
  have hnames := (Forest.ReadFrom.leaf t).append his
  exact .spanFrom_bind rfl fun s hs => .pure ⟨hnames.node hs, hnames⟩

/-- Names behind a sign are read without the sign, and nothing is read if it is missing. -/
theorem takes_refsAfter {sign : Kind} (hsign : sign ≠ .eof) :
    Takes [] held (refsAfter sign) fun w _ o => (Forest.ofOption RefList.forest o).ReadFrom w := by
  refine .eat_bind hsign (fun t rest _ _ _ => ?_) (.pure (.empty _))
  refine takes_refList.bind fun r w _ _ hr => .pure ?_
  exact (Forest.ReadFrom.empty [t]).append hr.1

/-- An argument of an annotation is read from its tokens, in both of its forms. -/
theorem takes_annotArg : Takes [] held annotArg fun w _ a => a.forest.ReadFrom w := by
  refine .peek_bind fun t rest _ => ?_
  split
  · exact takes_string.bind fun s w _ _ hs => .pure hs
  · refine .ident_bind fun key _ _ => .sign_bind nofun fun equals _ _ => ?_
    refine takes_string.bind fun s w _ _ hs => .pure ?_
    exact ((Forest.ReadFrom.leaf key).before [equals]).append hs
  · exact .fail

/-- The arguments of an annotation are read side by side, without the parentheses. -/
theorem takes_annotArgs :
    Takes [] held annotArgs fun w _ as => (Forest.ofList Annot.Arg.forest as).ReadFrom w := by
  refine .eat_bind nofun (fun t rest _ _ _ => ?_) (.pure (.empty _))
  refine (Takes.commaList steady_annotArg fun _ => takes_annotArg).bind fun as w _ _ has => ?_
  refine .sign_bind nofun fun z _ _ => .pure ?_
  exact ((Forest.ReadFrom.empty [t]).append has).before [z]

/-- Annotations are read side by side, each from the tokens between `#[` and its end. -/
theorem takes_annots :
    Takes [] held annots fun w _ as => (Forest.ofList Annot.forest as).ReadFrom w := by
  refine (Takes.many (E := fun _ => True) steady_annots fun held => ?_).imp
    fun _ _ _ h => h.1.readFrom
  refine .eat_bind nofun (fun t rest _ _ _ => ?_) (.pure ⟨nofun, fun _ => ⟨rfl, trivial⟩⟩)
  refine .ident_bind fun name _ _ => takes_annotArgs.bind fun as w _ _ has => ?_
  refine .sign_bind nofun fun z _ _ => .spanFrom_bind rfl fun s hs => .pure ⟨?_, nofun⟩
  rintro _ ⟨⟩
  have hname := (Forest.ReadFrom.empty [t]).append (.leaf name)
  exact ((hname.append has).before [z]).node hs

/-- The value of an argument is read from its token. -/
theorem takes_argValue : Takes [] held argValue fun w _ v => v.forest.ReadFrom w := by
  refine .peek_bind fun t rest _ => ?_
  split
  · exact takes_string.bind fun s w _ _ hs => .pure hs
  · exact takes_ident.bind fun i w _ _ hi => .pure hi
  · exact .fail

/-- An argument is read from its tokens, its key and its value side by side below it. -/
theorem takes_arg : Takes [] held arg fun w _ a => a.forest.ReadFrom w := by
  refine .ident_bind fun key _ _ => .sign_bind nofun fun colon _ _ => ?_
  refine takes_argValue.bind fun v w _ _ hv => .spanFrom_bind rfl fun s hs => .pure ?_
  exact (((Forest.ReadFrom.leaf key).before [colon]).append hv).node hs

/-- The arguments of a call are read side by side, without the parentheses. -/
theorem takes_callArgs :
    Takes [] held callArgs fun w _ as => (Forest.ofList Arg.forest as).ReadFrom w := by
  refine .sign_bind nofun fun t rest _ => .eat_bind nofun (fun z _ _ _ _ => ?_) ?_
  · exact .pure (.empty _)
  · refine (Takes.commaList steady_arg fun _ => takes_arg).bind fun as w _ _ has => ?_
    refine .sign_bind nofun fun z _ _ => .pure ?_
    exact ((Forest.ReadFrom.empty [t]).append has).before [z]

/-- A target is read from its tokens, of which the first comes next. -/
theorem takes_target :
    Takes [] held target fun w _ x => x.forest.ReadFrom w ∧ w.head? = held.head? := by
  refine .ident_bind fun t rest hheld => ?_
  subst hheld
  refine .atKind_ite (fun _ _ _ _ => ?_) (.pure ⟨.leaf t, rfl⟩)
  refine (Takes.eachAfter (by decide) steady_ident fun _ => takes_ident).bind fun is w _ _ his => ?_
  refine .spanFrom_bind rfl fun s hs => .pure ⟨?_, rfl⟩
  exact ((Forest.ReadFrom.leaf t).append his).node hs

/-- A call is read by `callTail` from its target, which has been read before, and its arguments.
The semicolon behind it is no part of it. -/
theorem takes_callTail {x : Target} (hx : x.forest.ReadFrom u) (ht : u.head? = some t) :
    Takes u held (callTail x t.span) fun w _ c => c.forest.ReadFrom w := by
  refine takes_callArgs.bind fun as w _ _ has => .spanFrom_bind ?_ fun s hs => ?_
  · rw [List.head?_append, ht, Option.some_or]
  · exact .sign_bind nofun fun z _ _ => .pure (((hx.append has).node hs).before [z])

/-- A command is read from its tokens, by `takes_callTail` where it calls a target. -/
theorem takes_command : Takes [] held command fun w _ c => c.forest.ReadFrom w := by
  refine .peek_bind fun t rest hheld => ?_
  subst hheld
  split
  · rename_i ht
    split
    · refine .discard_bind (.advance_bind (by simp [ht]) fun _ => ?_)
      refine takes_callArgs.bind fun as w _ _ has => .spanFrom_bind rfl fun s hs => ?_
      refine .sign_bind nofun fun z _ _ => .pure ?_
      exact (((Forest.ReadFrom.empty [t]).append has).node hs).before [z]
    · exact .fail
  · exact takes_target.bind fun x w _ _ hx => takes_callTail hx.1 hx.2
  · exact .fail

/-! ## The members of a module -/

/-- The value of a property is read from its token. -/
theorem takes_literal : Takes [] held literal fun w _ v => v.forest.ReadFrom w := by
  refine .peek_bind fun t rest hheld => ?_
  subst hheld
  split
  · exact takes_string.bind fun s w _ _ hs => .pure hs
  · rename_i ht
    exact .advance_bind (by simp [ht]) fun _ => .pure (.leaf t)
  · exact .fail

/-- A property is read from its tokens, its semicolon among them. -/
theorem takes_property : Takes [] held property fun w _ p => p.forest.ReadFrom w := by
  refine .ident_bind fun key _ _ => .sign_bind nofun fun equals _ _ => ?_
  refine takes_literal.bind fun v w _ _ hv => .sign_bind nofun fun z _ _ => ?_
  refine .spanFrom_bind rfl fun s hs => .pure ?_
  exact ((((Forest.ReadFrom.leaf key).before [equals]).append hv).before [z]).node hs

/-- The names before a block of variables are no nodes: `varsBlock` is read from its arguments. -/
theorem takes_varsBlock (ht : u.head? = some t) :
    Takes u held (varsBlock t.span) fun w _ b => b.forest.ReadFrom w := by
  refine .sign_bind nofun fun brace rest _ => ?_
  have hclose : ∀ (as : List Arg) (w rest : List Token),
      (Forest.ofList Arg.forest as).ReadFrom w →
      Takes (u ++ [brace] ++ w) rest (discard (expect .braceClose) >>= fun _ =>
        closing t.span >>= fun span => Pure.pure (⟨as, span⟩ : VarsBlock))
        fun w _ b => b.forest.ReadFrom w := by
    intro as w rest has
    refine .sign_bind nofun fun z _ _ => .closing_bind ?_ fun s v _ hs => .pure ?_
    · simp [List.head?_append, ht]
    · exact ((((Forest.ReadFrom.empty _).append has).before [z]).node hs).before v
  refine .atKind_ite (fun _ _ _ _ => .pure_bind ?_) ?_
  · have hnone := hclose [] [] rest (.empty [])
    rwa [List.append_nil] at hnone
  · exact (Takes.commaList steady_arg fun _ => takes_arg).bind fun as w rest _ => hclose as w rest

/-- A call or a block of variables is read from its tokens, whichever it is. -/
theorem takes_callOrVars (ht : held.head? = some t) :
    Takes [] held (callOrVars t.span) fun w _ e => e.forest.ReadFrom w := by
  refine takes_target.bind fun x w rest _ hx => ?_
  have hw : w.head? = some t := hx.2.trans ht
  have hcall : Takes w rest (callTail x t.span >>= fun c => Pure.pure (Environment.Entry.command c))
      fun w _ e => e.forest.ReadFrom w :=
    (takes_callTail hx.1 hw).seq fun c _ _ _ hc => .pure hc
  split
  · refine .atKind_ite (fun _ _ _ _ => ?_) hcall
    exact (takes_varsBlock hw).seq fun b _ _ _ hb => .pure hb
  · exact hcall

/-- An entry of an environment is read from its tokens. -/
theorem takes_environmentEntry :
    Takes [] held environmentEntry fun w _ e => e.forest.ReadFrom w := by
  refine .peek_bind fun t rest hheld => ?_
  subst hheld
  split
  · exact takes_command.bind fun c w _ _ hc => .pure hc
  · rename_i ht
    refine .peekSecond_bind (by simp [ht]) fun second => ?_
    split
    · exact takes_property.bind fun p w _ _ hp => .pure hp
    · exact takes_callOrVars rfl
    · exact takes_callOrVars rfl
    · exact .discard_bind (.advance_bind (by simp [ht]) fun _ => .fail)
  · exact .fail

/-- An entry of a flow is read from its tokens. -/
theorem takes_flowEntry : Takes [] held flowEntry fun w _ e => e.forest.ReadFrom w := by
  refine .peek_bind fun t rest hheld => ?_
  subst hheld
  split
  · exact takes_command.bind fun c w _ _ hc => .pure hc
  · rename_i ht
    refine .peekSecond_bind (by simp [ht]) fun second => ?_
    split
    · exact takes_property.bind fun p w _ _ hp => .pure hp
    · exact takes_command.bind fun c w _ _ hc => .pure hc
  · exact .fail

/-- A command in a function is read from its tokens. -/
theorem takes_fnEntry : Takes [] held fnEntry fun w _ c => c.forest.ReadFrom w := by
  refine .peek_bind fun t rest _ => ?_
  split
  · exact takes_command
  · exact takes_command
  · exact .fail

/-- A property in an activity is read from its tokens. -/
theorem takes_activityEntry : Takes [] held activityEntry fun w _ p => p.forest.ReadFrom w :=
  .atKind_ite (fun _ _ _ _ => takes_property) .fail

/-- A parameter from its name on, behind the star that it may start with: what is left of the rule
`param`. -/
theorem takes_paramName {variadic : Bool} (ht : (u ++ held).head? = some t) :
    Takes u held (ident >>= fun name => eat .equals >>= fun o =>
      match o with
      | some _ => string >>= fun s => Pure.pure (some s) >>= fun fallback =>
          spanFrom t.span >>= fun span => Pure.pure (⟨variadic, name, fallback, span⟩ : Param)
      | none => Pure.pure none >>= fun fallback =>
          spanFrom t.span >>= fun span => Pure.pure ⟨variadic, name, fallback, span⟩)
      fun w _ p => p.forest.ReadFrom w := by
  refine .ident_bind fun name rest hheld => ?_
  have hhead := head?_of_cons ht hheld
  have hname := (Forest.ReadFrom.empty u).append (.leaf name)
  refine .eat_bind nofun (fun equals _ _ _ _ => ?_) (.pure_bind ?_)
  · refine takes_string.bind fun value w _ _ hvalue => .pure_bind ?_
    refine .spanFrom_bind ?_ fun s hs => .pure (((hname.before [equals]).append hvalue).node hs)
    exact List.mem_head?_append_of_mem_head? (List.mem_head?_append_of_mem_head? hhead)
  · refine .spanFrom_bind hhead fun s hs => .pure (.node ?_ hs)
    rwa [← Forest.append_empty (∅ ++ _)] at hname

/-- A parameter is read from its tokens. -/
theorem takes_param : Takes [] held param fun w _ p => p.forest.ReadFrom w := by
  refine .peek_bind fun t rest hheld => .eat_bind nofun (fun star _ hstar _ _ => ?_) ?_
  · exact takes_paramName (congrArg List.head? (hstar.symm.trans hheld))
  · exact takes_paramName (congrArg List.head? hheld)

/-- Parameters are read side by side, without the parentheses. -/
theorem takes_params :
    Takes [] held params fun w _ ps => (Forest.ofList Param.forest ps).ReadFrom w := by
  refine .sign_bind nofun fun t rest _ => ?_
  have hclose : ∀ (ps : List Param) (w rest : List Token),
      (Forest.ofList Param.forest ps).ReadFrom w →
      Takes ([t] ++ w) rest (discard (expect .parenClose) >>= fun _ => Pure.pure ps)
        fun w _ ps => (Forest.ofList Param.forest ps).ReadFrom w := by
    intro ps w rest hps
    refine .sign_bind nofun fun z _ _ => .pure ?_
    exact ((Forest.ReadFrom.empty [t]).append hps).before [z]
  refine .atKind_ite (fun _ _ _ _ => .pure_bind (hclose [] [] rest (.empty []))) ?_
  exact (Takes.commaList steady_param fun _ => takes_param).bind fun ps w rest _ => hclose ps w rest

/-- An environment is read from its annotations, which have been read before, and what `environment`
takes. -/
theorem takes_environment {annots : List Annot}
    (hannots : (Forest.ofList Annot.forest annots).ReadFrom u) (ht : (u ++ held).head? = some t) :
    Takes u held (environment annots t.span) fun w _ e => e.forest.ReadFrom w := by
  refine .word_bind fun env _ hheld => .ident_bind fun name _ _ => ?_
  refine (takes_refsAfter (by decide)).bind fun refs w _ _ hrefs => ?_
  refine .body (fun _ _ => rfl) (((hannots.before [env]).append (.leaf name)).append hrefs) ?_
    (steady_block steady_environmentEntry parses_environmentEntry
      Derivation.EnvironmentEntry.startsEntry) fun _ => takes_environmentEntry
  exact List.mem_head?_append_of_mem_head?
    (List.mem_head?_append_of_mem_head? (head?_of_cons ht hheld))

/-- A flow is read by `flowFrom` from what stands before its name as well, its annotations and the
names before it. -/
theorem takes_flowFrom {annots : List Annot} {before : Option RefList}
    (hbefore : (Forest.ofList Annot.forest annots ++
      Forest.ofOption RefList.forest before).ReadFrom u) (ht : u.head? = some t) :
    Takes u held (flowFrom annots before t.span) fun w _ x => x.forest.ReadFrom w := by
  refine .sign_bind nofun fun sign _ _ => .ident_bind fun name _ _ => ?_
  refine (takes_refsAfter (by decide)).bind fun refs w _ _ hrefs => ?_
  refine .body (fun _ _ => rfl) (((hbefore.before [sign]).append (.leaf name)).append hrefs) ?_
    (steady_block steady_flowEntry parses_flowEntry Derivation.FlowEntry.startsEntry)
    fun _ => takes_flowEntry
  exact List.mem_head?_append_of_mem_head?
    (List.mem_head?_append_of_mem_head? (List.mem_head?_append_of_mem_head? ht))

/-- A name for other flows is read from its annotations and what `flowAlias` takes. -/
theorem takes_flowAlias {annots : List Annot}
    (hannots : (Forest.ofList Annot.forest annots).ReadFrom u) (ht : u.head? = some t) :
    Takes u held (flowAlias annots t.span) fun w _ x => x.forest.ReadFrom w := by
  refine .ident_bind fun name _ _ => .sign_bind nofun fun colon _ _ => ?_
  refine takes_refList.bind fun targets w _ _ htargets => .sign_bind nofun fun z _ _ => ?_
  refine .spanFrom_bind ?_ fun s hs => .pure ?_
  · simp [List.head?_append, ht]
  · exact ((((hannots.append (.leaf name)).before [colon]).append htargets.1).before [z]).node hs

/-- A member that starts with `flow` is read from its tokens, be it a flow or a name for others. -/
theorem takes_flow {annots : List Annot}
    (hannots : (Forest.ofList Annot.forest annots).ReadFrom u) (ht : (u ++ held).head? = some t) :
    Takes u held (flow annots t.span) fun w _ m => m.forest.ReadFrom w := by
  refine .word_bind fun flow rest hheld => ?_
  have hhead := head?_of_cons ht hheld
  have hannots := hannots.before [flow]
  refine .peek_bind fun x ts hrest => ?_
  subst hrest
  split
  · refine (takes_flowFrom ?_ hhead).seq fun y _ _ _ hy => .pure hy
    rwa [← Forest.append_empty (Forest.ofList _ _)] at hannots
  · rename_i hx
    have hflow : Takes (u ++ [flow]) (x :: ts)
        (refList >>= fun before => discard (expect .pipe) >>= fun _ =>
          flowFrom annots (some before) t.span >>= fun x => Pure.pure (Member.flow x))
        fun w _ m => m.forest.ReadFrom w := by
      refine takes_refList.bind fun before w _ _ hbefore => .sign_bind nofun fun z _ _ => ?_
      refine (takes_flowFrom ((hannots.append hbefore.1).before [z]) ?_).seq
        fun y _ _ _ hy => .pure hy
      exact List.mem_head?_append_of_mem_head? (List.mem_head?_append_of_mem_head? hhead)
    refine .peekSecond_bind (by simp [hx]) fun second => ?_
    split
    · exact (takes_flowAlias hannots hhead).seq fun y _ _ _ hy => .pure hy
    · exact hflow
    · exact hflow
    · exact .discard_bind (.advance_bind (by simp [hx]) fun _ => .fail)
  · exact .fail

/-- A function is read from its annotations and what `fn` takes. -/
theorem takes_fn {annots : List Annot}
    (hannots : (Forest.ofList Annot.forest annots).ReadFrom u) (ht : (u ++ held).head? = some t) :
    Takes u held (fn annots t.span) fun w _ x => x.forest.ReadFrom w := by
  refine .word_bind fun fn _ hheld => .ident_bind fun name _ _ => ?_
  refine takes_params.bind fun params w _ _ hparams => ?_
  refine .body (fun _ _ => rfl) (((hannots.before [fn]).append (.leaf name)).append hparams) ?_
    (steady_block steady_fnEntry parses_fnEntry Derivation.Command.startsEntry)
    fun _ => takes_fnEntry
  exact List.mem_head?_append_of_mem_head?
    (List.mem_head?_append_of_mem_head? (head?_of_cons ht hheld))

/-- An activity is read from its annotations and what `activity` takes. -/
theorem takes_activity {annots : List Annot}
    (hannots : (Forest.ofList Annot.forest annots).ReadFrom u) (ht : (u ++ held).head? = some t) :
    Takes u held (activity annots t.span) fun w _ a => a.forest.ReadFrom w := by
  refine .word_bind fun activity _ hheld => .ident_bind fun name _ _ => ?_
  refine .body (fun _ _ => rfl) ((hannots.before [activity]).append (.leaf name)) ?_
    (steady_block steady_activityEntry parses_activityEntry Derivation.Property.startsEntry)
    fun _ => takes_activityEntry
  exact List.mem_head?_append_of_mem_head? (head?_of_cons ht hheld)

/-- A member behind its annotations is read from all its tokens, one case a keyword. -/
theorem takes_memberAfter {annots : List Annot}
    (hannots : (Forest.ofList Annot.forest annots).ReadFrom u) (ht : (u ++ held).head? = some t) :
    Takes u held (memberAfter annots t.span) fun w _ m => m.forest.ReadFrom w := by
  refine .atWord_ite (fun _ _ _ _ => ?_) (.atWord_ite (fun _ _ _ _ => ?_)
    (.atWord_ite (fun _ _ _ _ => ?_) ?_))
  · exact (takes_environment hannots ht).seq fun e _ _ _ he => .pure he
  · exact takes_flow hannots ht
  · exact (takes_fn hannots ht).seq fun x _ _ _ hx => .pure hx
  · exact (takes_activity hannots ht).seq fun a _ _ _ ha => .pure ha

/-- A member is read from its tokens, its annotations included. -/
theorem takes_member : Takes [] held member fun w _ m => m.forest.ReadFrom w := by
  refine .peek_bind fun t rest hheld => ?_
  subst hheld
  split
  · rename_i ht
    refine .peekSecond_bind (by simp [ht]) fun second => ?_
    split
    · exact takes_property.bind fun p w _ _ hp => .pure hp
    · split
      · exact takes_memberAfter (.empty []) rfl
      · exact .fail
  · refine takes_annots.bind fun annots w rest' hheld hannots => .peek_bind fun _ _ _ => ?_
    split
    · exact takes_memberAfter hannots (congrArg List.head? hheld.symm)
    · exact .fail
  · exact .fail

/-! ## Documents -/

/-- A module is read from its annotations and what `module` takes. -/
theorem takes_module {annots : List Annot}
    (hannots : (Forest.ofList Annot.forest annots).ReadFrom u) (ht : (u ++ held).head? = some t) :
    Takes u held (module annots t.span) fun w _ m => m.forest.ReadFrom w := by
  refine .word_bind fun mod _ hheld => .ident_bind fun name _ _ => ?_
  refine (takes_refsAfter (by decide)).bind fun refs w _ _ hrefs => ?_
  refine .body (fun _ _ => rfl) (((hannots.before [mod]).append (.leaf name)).append hrefs) ?_
    (steady_block steady_member parses_member startsEntry_member) fun _ => takes_member
  exact List.mem_head?_append_of_mem_head?
    (List.mem_head?_append_of_mem_head? (head?_of_cons ht hheld))

/-- The origin of external modules is read from its tokens. -/
theorem takes_origin : Takes [] held origin fun w _ o => o.forest.ReadFrom w := by
  refine .peek_bind fun t rest hheld => ?_
  subst hheld
  refine .atWord_ite (fun x _ hx ht => ?path)
    (.atWord_ite (fun x _ hx ht => ?git) .fail)
  case path =>
    obtain ⟨rfl, -⟩ := List.cons.inj hx
    refine .discard_bind (.advance_bind (by simp [ht]) fun _ => .sign_bind nofun ?_)
    intro equals _ _
    refine takes_string.bind fun place w _ _ hplace => .sign_bind nofun fun z _ _ => ?_
    refine .spanFrom_bind rfl fun s hs => .pure (.node ?_ hs)
    exact ((Forest.ReadFrom.empty [t, equals]).append hplace).before [z]
  case git =>
    obtain ⟨rfl, -⟩ := List.cons.inj hx
    refine .discard_bind (.advance_bind (by simp [ht]) fun _ => .sign_bind nofun ?_)
    intro equals _ _
    refine takes_string.bind fun url w _ _ hurl => .sign_bind nofun fun comma _ _ => ?_
    refine .word_bind fun word _ _ => .sign_bind nofun fun equals' _ _ => ?_
    refine takes_string.bind fun channel w' _ _ hchannel => .sign_bind nofun fun z _ _ => ?_
    refine .spanFrom_bind rfl fun s hs => .pure (.node ?_ hs)
    have hurl := (Forest.ReadFrom.empty [t, equals]).append hurl
    exact (((((hurl.before [comma]).before [word]).before [equals']).append hchannel).before [z])

/-- External modules are read from their tokens. -/
theorem takes_external : Takes [] held external fun w _ e => e.forest.ReadFrom w := by
  refine .expectWord_bind fun t _ _ _ => .word_bind fun mod _ _ => ?_
  refine takes_refList.bind fun refs w _ _ hrefs => .sign_bind nofun fun brace _ _ => ?_
  refine takes_origin.bind fun origin w' _ _ horigin => .sign_bind nofun fun z _ _ => ?_
  refine .closing_bind rfl fun s v _ hs => .pure ?_
  have hnames := ((Forest.ReadFrom.empty [t, mod]).append hrefs.2).before [brace]
  exact (((hnames.append horigin).before [z]).node hs).before v

/-- An item is read from its tokens. -/
theorem takes_item : Takes [] held item fun w _ i => i.forest.ReadFrom w := by
  refine .peek_bind fun t rest hheld => .note_bind ?_
  subst hheld
  split
  · refine takes_annots.bind fun annots w rest' hheld hannots =>
      .atWord_ite (fun _ _ _ _ => ?_) .fail
    exact (takes_module hannots (congrArg List.head? hheld.symm)).seq fun m _ _ _ hm => .pure hm
  · refine .atWord_ite (fun _ _ _ _ => ?_) (.atWord_ite (fun _ _ _ _ => ?_) .fail)
    · have hnone : (Forest.ofList Annot.forest []).ReadFrom [] := .empty []
      exact (takes_module hnone rfl).seq fun m _ _ _ hm => .pure hm
    · exact takes_external.bind fun e w _ _ he => .pure he

/-- A document is read from all tokens up to the end of the text: the forest `below` it, with the
span of the whole text above. -/
theorem takes_document (bytes : Nat) :
    Takes [] held (document bytes) fun w rest d =>
      d.span = ⟨0, bytes, 1, 1⟩ ∧ d.below.ReadFrom w ∧ ∃ t ts, rest = t :: ts ∧ t.kind = .eof :=
  (Takes.entries (steady_document bytes).1 fun _ => takes_item).bind
    fun _ _ _ _ h => .pure ⟨rfl, h.1.readFrom, h.2⟩

end Gxl.Rule
