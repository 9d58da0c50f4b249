import Gxl.Proofs.Document.RoundTrip
import Gxl.Proofs.Grammar.ReadFrom

/-!
# The tokens of members and items

The tokens of a document fall into chunks, one for each item, and those of a module into chunks, one
for each member, with nothing between them.  A chunk is the phrase of a derivation that denotes the
item or the member (`Takes.parsed`), its span covers the chunk but for a semicolon behind the last
brace (`Span.Encloses`), and the names of builtin commands in the chunk are those of the calls in
the tree, each at the place where its call starts (`Names`).

Only commands hold names of builtin commands.  The tokens of all other phrases are `Quiet`, which is
read off their derivations.
-/

namespace Gxl

/-! ## Names of builtin commands -/

/-- A phrase without the name of a builtin command, a symbol of kind `builtin`. -/
def Quiet (w : Phrase) : Prop :=
  ∀ s ∈ w, s.kind ≠ .builtin

@[simp] theorem quiet_nil : Quiet [] := by simp [Quiet]

/-- A phrase is quiet if its first symbol names nothing and the rest is quiet. -/
@[simp] theorem quiet_cons {s : Symbol} {w : Phrase} :
    Quiet (s :: w) ↔ s.kind ≠ .builtin ∧ Quiet w := by
  simp [Quiet]

/-- A phrase is quiet if both of its parts are. -/
@[simp] theorem quiet_append {u w : Phrase} : Quiet (u ++ w) ↔ Quiet u ∧ Quiet w :=
  List.forall_mem_append

/-- Quiet phrases one behind the other are quiet. -/
theorem quiet_flatMap {β : Type} {y : β → Phrase} (hy : ∀ b, Quiet (y b)) (bs : List β) :
    Quiet (bs.flatMap y) := by
  intro s hs
  obtain ⟨b, -, hb⟩ := List.mem_flatMap.1 hs
  exact hy b s hb

/-- Quiet phrases `separated` by commas are quiet. -/
theorem quiet_separated {β : Type} {y : β → Phrase} (hy : ∀ b, Quiet (y b)) (bs : List β) :
    Quiet (separated y bs) := by
  cases bs with
  | nil => exact quiet_nil
  | cons b bs => simpa [separated, hy] using quiet_flatMap (by simp [hy]) bs

namespace Derivation

/-- No word in a list of names is the name of a builtin command. -/
theorem Refs.quiet (r : Refs) : Quiet r.yield :=
  quiet_separated (by simp) _

/-- Nor is a list of names behind a sign that is no `builtin` itself. -/
theorem Refs.quiet_after {sign : Kind} (hsign : sign ≠ .builtin) (r : Option Refs) :
    Quiet (Refs.yieldAfter sign r) := by
  cases r with
  | none => exact quiet_nil
  | some r => exact quiet_cons.2 ⟨hsign, r.quiet⟩

/-- An annotation is quiet, its name a word and its arguments words and literals. -/
theorem Annot.quiet (a : Annot) : Quiet a.yield := by
  have harg : ∀ b : AnnotArg, Quiet b.yield := by
    intro b
    cases b <;> simp [AnnotArg.yield]
  obtain ⟨name, _ | ⟨arg, args⟩⟩ := a
  · simp [yield, yieldArgs]
  · simp [yield, yieldArgs, quiet_separated harg]

/-- A property is quiet. -/
theorem Property.quiet (p : Property) : Quiet p.yield := by
  obtain ⟨key, value | value⟩ := p <;> simp [yield, Literal.symbol]

/-- An argument is quiet. -/
theorem Arg.quiet (a : Arg) : Quiet a.yield := by
  obtain ⟨key, value | value⟩ := a <;> simp [yield, ArgValue.symbol]

/-- A target is quiet: a call of `gx.name` that is no builtin command is words and dots. -/
theorem Target.quiet (t : Target) : Quiet t.yield := by
  simp [yield, quiet_flatMap]

/-- A parameter of a function is quiet. -/
theorem Param.quiet (p : Param) : Quiet p.yield := by
  obtain ⟨_ | _, name, _ | value⟩ := p <;> simp [yield]

/-- Where external modules come from is quiet. -/
theorem Origin.quiet (o : Origin) : Quiet o.yield := by
  cases o <;> simp [yield]

end Derivation

/-- The names of builtin commands among tokens, each with its `startPosition`. -/
def builtinNames (u : List Token) : List (String × Position) :=
  (u.filter fun t => t.kind = .builtin).map fun t => (t.text, t.span.startPosition)

/-- The name of the builtin command that is called, with the `startPosition` of the call. -/
def BuiltinCall.named (c : BuiltinCall) : String × Position :=
  (c.builtin.name, c.span.startPosition)

/-- The `builtinNames` among tokens are those of some calls, at their places. -/
def Names (u : List Token) (calls : List BuiltinCall) : Prop :=
  builtinNames u = calls.map BuiltinCall.named

namespace Names

variable {u v : List Token} {calls calls' : List BuiltinCall}

/-- Tokens whose phrase is `Quiet` name no calls. -/
theorem of_quiet (h : Quiet (symbols u)) : Names u [] := by
  have hnone : u.filter (fun t => t.kind = .builtin) = [] := by
    refine List.filter_eq_nil_iff.2 fun t ht => ?_
    simpa using h t.symbol (List.mem_map_of_mem ht)
  rw [Names, builtinNames, hnone, List.map_nil, List.map_nil]

/-- The names in two parts are those of the calls of both. -/
theorem append (h : Names u calls) (h' : Names v calls') : Names (u ++ v) (calls ++ calls') := by
  unfold Names builtinNames at h h' ⊢
  rw [List.filter_append, List.map_append, List.map_append, h, h']

/-- Quiet tokens may stand before those that name calls. -/
theorem behind (h : Names v calls) (hu : Quiet (symbols u)) : Names (u ++ v) calls :=
  (of_quiet hu).append h

/-- Quiet tokens may stand behind those that name calls. -/
theorem before (h : Names u calls) (hv : Quiet (symbols v)) : Names (u ++ v) calls := by
  have hnames := h.append (of_quiet hv)
  rwa [List.append_nil] at hnames

/-- A token that names a builtin command, and tokens of the call that starts with it: its span
`Covers` them. -/
theorem call {t : Token} {c : BuiltinCall} (ht : t.kind = .builtin)
    (hname : c.builtin.name = t.text) (hcovers : c.span.Covers (t :: u))
    (hu : Quiet (symbols v)) : Names (t :: v) [c] := by
  obtain ⟨x, hx, z, -, hspan⟩ := hcovers
  obtain rfl : t = x := Option.some.inj hx
  have hfirst : Names [t] [c] := by
    simp [Names, builtinNames, BuiltinCall.named, ht, hname, hspan, Span.startPosition]
  exact hfirst.before hu

end Names

/-- Where pieces of tree are read one behind the other and each names its calls, together they name
all of them. -/
theorem EachFrom.names {α : Type} {calls : α → List BuiltinCall} {R : List Token → α → Prop}
    {u : List Token} {as : List α} (h : EachFrom R u as) (hR : ∀ v a, R v a → Names v (calls a)) :
    Names u (as.flatMap calls) := by
  induction h with
  | nil => rfl
  | cons head _ ih =>
    rw [List.flatMap_cons]
    exact (hR _ _ head).append ih

/-! ## Chunks -/

/-- A span covers the tokens of a construct (`Span.Covers`), but for a semicolon behind its closing
brace. -/
inductive Span.Encloses (s : Span) : List Token → Prop where
  | whole {w : List Token} (covers : s.Covers w) : s.Encloses w
  | terminated {w : List Token} {brace semi : Token} (hbrace : brace.kind = .braceClose)
      (hsemi : semi.kind = .semicolon) (covers : s.Covers (w ++ [brace])) :
      s.Encloses (w ++ [brace, semi])

/-- The tokens that a span covers are the first of those that it encloses, and only a semicolon is
left behind them. -/
theorem Span.Encloses.exists_covers {s : Span} {w : List Token} (h : s.Encloses w) :
    ∃ v, v <+: w ∧ s.Covers v ∧ ∀ t ∈ w, t ∈ v ∨ t.kind = .semicolon := by
  cases h with
  | whole covers => exact ⟨w, List.prefix_rfl, covers, fun t => .inl⟩
  | @terminated w brace semi _ hsemi covers =>
    have hsplit : w ++ [brace, semi] = w ++ [brace] ++ [semi] := by simp
    rw [hsplit]
    refine ⟨w ++ [brace], List.prefix_append _ _, covers, fun t ht => ?_⟩
    rcases List.mem_append.1 ht with ht | ht
    · exact .inl ht
    · rw [List.mem_singleton.1 ht]
      exact .inr hsemi

/-- Tokens are the chunk of a construct with a span and some calls of builtin commands: the span
`Encloses` them, and they name the calls (`Names`). -/
structure Chunk (w : List Token) (s : Span) (calls : List BuiltinCall) : Prop where
  encloses : s.Encloses w
  names : Names w calls

/-- Tokens are the chunk of a construct with a body: `Quiet` tokens, the entries one behind the
other (`EachFrom`), and quiet tokens. -/
structure Bodied {α : Type} (R : List Token → α → Prop) (w : List Token) (s : Span)
    (entries : List α) : Prop where
  encloses : s.Encloses w
  body : ∃ front inner back, w = front ++ (inner ++ back) ∧ Quiet (symbols front) ∧
    EachFrom R inner entries ∧ Quiet (symbols back)

namespace Bodied

variable {α : Type} {R : List Token → α → Prop} {w : List Token} {s : Span} {entries : List α}

/-- A construct with a body is a `Chunk` with the calls of its entries. -/
theorem chunk {calls : α → List BuiltinCall} (h : Bodied R w s entries)
    (hR : ∀ v a, R v a → Names v (calls a)) : Chunk w s (entries.flatMap calls) := by
  obtain ⟨hencloses, front, inner, back, rfl, hfront, heach, hback⟩ := h
  exact ⟨hencloses, ((heach.names hR).before hback).behind hfront⟩

/-- Each entry of a body is read from a stretch of its tokens. -/
theorem exists_stretch (h : Bodied R w s entries) {a : α} (ha : a ∈ entries) :
    ∃ v, v <:+: w ∧ R v a := by
  obtain ⟨-, front, inner, back, rfl, -, heach, -⟩ := h
  obtain ⟨v, hv, hR⟩ := heach.exists_stretch ha
  have hinner : inner <:+: front ++ (inner ++ back) :=
    ((List.prefix_append inner back).isInfix).trans (List.suffix_append front _).isInfix
  exact ⟨v, hv.trans hinner, hR⟩

end Bodied

/-- Tokens are the `Chunk` of a member, and the phrase of a derivation of it. -/
structure Member.ReadFrom (w : List Token) (m : Member) : Prop where
  chunk : Chunk w m.span m.builtinCalls
  derives : ∃ d : Derivation.Member, d.yield = symbols w ∧ erase m = d.tree

/-- Tokens are the `Chunk` of an item, and the phrase of a derivation of it.  The members of a
module have chunks of their own there. -/
structure Item.ReadFrom (w : List Token) (i : Item) : Prop where
  chunk : Chunk w i.span i.builtinCalls
  derives : ∃ d : Derivation.Top, d.yield = symbols w ∧ erase i = d.tree
  members : ∀ m, i = .module m → ∀ j ∈ m.members, ∃ v, v <:+: w ∧ j.ReadFrom v

namespace Rule

open Reader

variable {α β γ : Type} {u held : List Token} {x : Rule α} {t : Token}

/-- What a rule takes is a phrase of its language: the contracts `Takes` and `Parses` put
together. -/
theorem Takes.parsed {Q : List Token → List Token → α → Prop} {Den : γ → α → Prop}
    {L F : γ → Phrase → Prop} {E : Phrase → Remark → Prop} (h : Takes [] held x Q)
    (hparses : Parses (fun _ => True) x Den L F E) :
    Takes [] held x fun w rest a => Q w rest a ∧ ∃ b, Den b a ∧ L b (symbols w) := by
  intro r r' n fault a hr hrun
  obtain ⟨w, rest, hheld, hr', hQ⟩ := h r r' n fault a hr hrun
  refine ⟨w, rest, hheld, hr', hQ, ?_⟩
  have houtcome := hparses.outcome hr.holds trivial
  rw [hrun] at houtcome
  cases houtcome with
  | @built _ _ b w' rest' split holds _ denotes derives _ _ =>
    -- the two contracts leave the same tokens, so they take the same
    obtain rfl := holds.unique hr'.holds
    obtain rfl : w' = w := List.append_cancel_right (split.symm.trans hheld)
    exact ⟨b, denotes, derives⟩

/-- A rule whose phrases are `Quiet` takes quiet tokens. -/
theorem Takes.quiet {Q : List Token → List Token → α → Prop} {Den : γ → α → Prop}
    {y : γ → Phrase} {F : γ → Phrase → Prop} {E : Phrase → Remark → Prop} (h : Takes [] held x Q)
    (hparses : Parses (fun _ => True) x Den (fun b w => w = y b) F E) (hy : ∀ b, Quiet (y b)) :
    Takes [] held x fun w _ _ => Quiet (symbols w) := by
  refine (h.parsed hparses).imp fun w rest a ⟨_, b, _, hw⟩ => ?_
  rw [hw]
  exact hy b

/-! ## Quiet rules -/

/-- The rule `refList` takes quiet tokens. -/
theorem quiet_refList : Takes [] held refList fun w _ _ => Quiet (symbols w) :=
  takes_refList.quiet parses_refList Derivation.Refs.quiet

/-- So does `refsAfter` a sign, be there names or not. -/
theorem quiet_refsAfter {sign : Kind} (hsign : sign.spelling ≠ "") :
    Takes [] held (refsAfter sign) fun w _ _ => Quiet (symbols w) := by
  have heof : sign ≠ .eof := fun h => hsign (h ▸ rfl)
  have hbuiltin : sign ≠ .builtin := fun h => hsign (h ▸ rfl)
  exact (takes_refsAfter heof).quiet (parses_refsAfter hsign) (Derivation.Refs.quiet_after hbuiltin)

/-- So does `annots`. -/
theorem quiet_annots : Takes [] held annots fun w _ _ => Quiet (symbols w) :=
  takes_annots.quiet parses_annots (quiet_flatMap Derivation.Annot.quiet)

/-- So does `callArgs`, which reads no command. -/
theorem quiet_callArgs : Takes [] held callArgs fun w _ _ => Quiet (symbols w) :=
  takes_callArgs.quiet parses_callArgs fun args => by
    simp [quiet_separated Derivation.Arg.quiet]

/-- So does `property`. -/
theorem quiet_property : Takes [] held property fun w _ _ => Quiet (symbols w) :=
  takes_property.quiet parses_property Derivation.Property.quiet

/-- So does `params`. -/
theorem quiet_params : Takes [] held params fun w _ _ => Quiet (symbols w) :=
  takes_params.quiet parses_params fun ps => by simp [quiet_separated Derivation.Param.quiet]

/-- So does `origin`. -/
theorem quiet_origin : Takes [] held origin fun w _ _ => Quiet (symbols w) :=
  takes_origin.quiet parses_origin Derivation.Origin.quiet

/-! ## Commands and entries -/

/-- A `command` takes tokens that name its calls: the name of a builtin command is noted at the
place where its call starts. -/
theorem names_command : Takes [] held command fun w _ c => Names w c.builtinCalls := by
  refine .peek_bind fun t rest hheld => ?_
  subst hheld
  split
  · rename_i ht
    split
    · rename_i builtin hbuiltin
      refine .discard_bind (.advance_bind (by simp [ht]) fun _ => ?_)
      refine quiet_callArgs.bind fun args w _ _ hargs => .spanFrom_bind rfl fun s hs => ?_
      refine .kind_bind nofun fun z _ _ hz => .pure ?_
      exact .call ht (Builtin.ofName?_eq_some_iff.1 hbuiltin) hs (by simp [hargs, hz])
    · exact .fail
  · refine (takes_target.parsed parses_target).bind fun callee w _ _ ⟨⟨_, hhead⟩, d, _, hw⟩ => ?_
    refine quiet_callArgs.bind fun args v _ _ hargs => .spanFrom_bind ?_ fun s hs => ?_
    · exact List.mem_head?_append_of_mem_head? hhead
    · refine .kind_bind nofun fun z _ _ hz => .pure (.of_quiet ?_)
      simp [hw, d.quiet, hargs, hz]
  · exact .fail

/-- A call or a block of variables takes tokens that name its calls, behind the token it starts
with. -/
theorem names_callOrVars (ht : held.head? = some t) :
    Takes [] held (callOrVars t.span) fun w _ e => Names w e.builtinCalls := by
  refine ((takes_callOrVars ht).parsed parses_callOrVars).imp fun w _ e ⟨_, d, hden, hw⟩ => ?_
  obtain ⟨callee, v, hsymbols, hv⟩ := hw
  -- what follows the target is quiet, and the entry is no call of a builtin command
  obtain ⟨hquiet, hcalls⟩ : Quiet v ∧ e.builtinCalls = [] := by
    obtain ⟨args, rfl, rfl⟩ | ⟨-, args, semi, rfl, rfl⟩ := hv
    · refine ⟨by simp [Derivation.Command.yieldTail, quiet_separated Derivation.Arg.quiet], ?_⟩
      obtain _ | (_ | _) | _ := e
      · rfl
      · cases hden
      · rfl
      · rfl
    · refine ⟨?_, ?_⟩
      · cases semi <;> simp [Derivation.terminator, quiet_separated Derivation.Arg.quiet]
      · obtain _ | (_ | _) | _ := e
        · rfl
        · cases hden
        · rfl
        · rfl
  rw [hcalls]
  refine .of_quiet ?_
  rw [hsymbols]
  exact quiet_append.2 ⟨callee.quiet, hquiet⟩

/-- An entry of an environment takes tokens that name its calls. -/
theorem names_environmentEntry :
    Takes [] held environmentEntry fun w _ e => Names w e.builtinCalls := by
  refine .peek_bind fun t rest hheld => ?_
  subst hheld
  split
  · exact names_command.bind fun c w _ _ hc => .pure hc
  · rename_i ht
    refine .peekSecond_bind (by simp [ht]) fun second => ?_
    split
    · exact quiet_property.bind fun p w _ _ hp => .pure (.of_quiet hp)
    · exact names_callOrVars rfl
    · exact names_callOrVars rfl
    · exact .discard_bind (.advance_bind (by simp [ht]) fun _ => .fail)
  · exact .fail

/-- An entry of a flow takes tokens that name its calls. -/
theorem names_flowEntry : Takes [] held flowEntry fun w _ e => Names w e.builtinCalls := by
  refine .peek_bind fun t rest hheld => ?_
  subst hheld
  split
  · exact names_command.bind fun c w _ _ hc => .pure hc
  · rename_i ht
    refine .peekSecond_bind (by simp [ht]) fun second => ?_
    split
    · exact quiet_property.bind fun p w _ _ hp => .pure (.of_quiet hp)
    · exact names_command.bind fun c w _ _ hc => .pure hc
  · exact .fail

/-- A command in the body of a function takes tokens that name its calls. -/
theorem names_fnEntry : Takes [] held fnEntry fun w _ c => Names w c.builtinCalls := by
  refine .peek_bind fun t rest _ => ?_
  split
  · exact names_command
  · exact names_command
  · exact .fail

/-! ## Constructs -/

/-- The end of a construct behind its closing brace `z`: the span that `Rule.closing` gives encloses
what was read, with the semicolon if there is one. -/
theorem Takes.brace_bind {w : List Token} {z : Token} {k : Span → Rule β}
    {Q : List Token → List Token → β → Prop} (ht : (w ++ [z]).head? = some t)
    (hz : z.kind = .braceClose)
    (h : ∀ s v rest, s.Encloses (w ++ [z] ++ v) → Quiet (symbols v) →
      Takes (w ++ [z] ++ v) rest (k s) Q) :
    Takes (w ++ [z]) held (Rule.closing t.span >>= k) Q := by
  refine (Takes.closing ht).seq fun s v rest _ ⟨hs, hv⟩ => h s v rest ?_ ?_
  · rcases hv with hv | ⟨semi, hv, hsemi⟩
    · rw [hv]
      exact .whole hs
    · rw [hv, List.append_assoc]
      exact .terminated hz hsemi hs
  · rcases hv with hv | ⟨semi, hv, hsemi⟩
    · rw [List.append_right_eq_self.1 hv]
      exact quiet_nil
    · rw [List.append_cancel_left hv]
      simp [hsemi]

/-- A construct that ends with entries between braces (`Rule.block`), once what stands before these
is read: its tokens are `Bodied`. -/
theorem Takes.bodied {item : Rule α} {R : List Token → α → Prop} {build : List α → Span → β}
    {Q : List Token → β → Prop} (hu : Quiet (symbols u)) (ht : u.head? = some t)
    (hsteady : (Rule.block item).Steady) (hitem : ∀ held, Takes [] held item fun w _ a => R w a)
    (hbuild : ∀ w as s, Bodied R w s as → Q w (build as s)) :
    Takes u held (Rule.block item >>= fun as => Rule.closing t.span >>= fun s =>
      Pure.pure (build as s)) fun w _ b => Q w b := by
  refine (entriesBetween hsteady hitem).bind fun as w rest _ ⟨a, inner, z, hw, ha, heach, hz⟩ => ?_
  have hsplit : u ++ w = (u ++ [a] ++ inner) ++ [z] := by simp [hw]
  rw [hsplit]
  refine .brace_bind ?_ hz fun s v _ hs hv => .pure (hbuild _ as s ⟨hs, ?_⟩)
  · rw [← hsplit]
    exact List.mem_head?_append_of_mem_head? ht
  · exact ⟨u ++ [a], inner, z :: v, by simp, by simp [hu, ha], heach, by simp [hz, hv]⟩

/-- An environment takes its chunk, behind its annotations and its name. -/
theorem chunk_environment {annots : List Annot} (hu : Quiet (symbols u))
    (ht : (u ++ held).head? = some t) :
    Takes u held (environment annots t.span) fun w _ e =>
      Chunk w e.span (Member.environment e).builtinCalls := by
  refine .discard_bind (.expectWord_bind fun env _ hheld henv => ?_)
  refine .name_bind fun name _ _ hname => ?_
  refine (quiet_refsAfter (by decide)).bind fun refs w _ _ hrefs => ?_
  refine .bodied (by simp [hu, henv, hname, hrefs]) ?_
    (steady_block steady_environmentEntry parses_environmentEntry
      Derivation.EnvironmentEntry.startsEntry) (fun _ => names_environmentEntry)
    fun _ _ _ h => h.chunk fun _ _ => id
  exact List.mem_head?_append_of_mem_head?
    (List.mem_head?_append_of_mem_head? (head?_of_cons ht hheld))

/-- A flow takes its chunk, once the names before it are read. -/
theorem chunk_flowFrom {annots : List Annot} {before : Option RefList} (hu : Quiet (symbols u))
    (ht : u.head? = some t) :
    Takes u held (flowFrom annots before t.span) fun w _ x =>
      Chunk w x.span (Member.flow x).builtinCalls := by
  refine .kind_bind nofun fun sign _ _ hsign => .name_bind fun name _ _ hname => ?_
  refine (quiet_refsAfter (by decide)).bind fun refs w _ _ hrefs => ?_
  refine .bodied (by simp [hu, hsign, hname, hrefs]) ?_
    (steady_block steady_flowEntry parses_flowEntry Derivation.FlowEntry.startsEntry)
    (fun _ => names_flowEntry) fun _ _ _ h => h.chunk fun _ _ => id
  exact List.mem_head?_append_of_mem_head?
    (List.mem_head?_append_of_mem_head? (List.mem_head?_append_of_mem_head? ht))

/-- The semicolon behind a name for other flows has to be there, and is covered by the span. -/
theorem chunk_flowAlias {annots : List Annot} (hu : Quiet (symbols u)) (ht : u.head? = some t) :
    Takes u held (flowAlias annots t.span) fun w _ x => Chunk w x.span [] := by
  refine .name_bind fun name _ _ hname => .kind_bind nofun fun colon _ _ hcolon => ?_
  refine quiet_refList.bind fun targets w _ _ htargets => ?_
  refine .kind_bind nofun fun z _ _ hz => .spanFrom_bind ?_ fun s hs => .pure ⟨.whole hs, ?_⟩
  · simp [List.head?_append, ht]
  · exact .of_quiet (by simp [hu, hname, hcolon, htargets, hz])

/-- A member that starts with `flow` takes its chunk, be it a flow or a name for others. -/
theorem chunk_flow {annots : List Annot} (hu : Quiet (symbols u))
    (ht : (u ++ held).head? = some t) :
    Takes u held (flow annots t.span) fun w _ m => Chunk w m.span m.builtinCalls := by
  refine .discard_bind (.expectWord_bind fun flow rest hheld hflow => ?_)
  have hhead := head?_of_cons ht hheld
  have hu : Quiet (symbols (u ++ [flow])) := by simp [hu, hflow]
  refine .peek_bind fun x ts hrest => ?_
  subst hrest
  split
  · exact (chunk_flowFrom hu hhead).seq fun y _ _ _ hy => .pure hy
  · rename_i hx
    have hbefore : Takes (u ++ [flow]) (x :: ts)
        (refList >>= fun before => discard (expect .pipe) >>= fun _ =>
          flowFrom annots (some before) t.span >>= fun x => Pure.pure (Member.flow x))
        fun w _ m => Chunk w m.span m.builtinCalls := by
      refine quiet_refList.bind fun before w _ _ hbefore => .kind_bind nofun fun z _ _ hz => ?_
      refine (chunk_flowFrom (by simp_all) ?_).seq fun y _ _ _ hy => .pure hy
      exact List.mem_head?_append_of_mem_head? (List.mem_head?_append_of_mem_head? hhead)
    refine .peekSecond_bind (by simp [hx]) fun second => ?_
    split
    · exact (chunk_flowAlias hu hhead).seq fun y _ _ _ hy => .pure hy
    · exact hbefore
    · exact hbefore
    · exact .discard_bind (.advance_bind (by simp [hx]) fun _ => .fail)
  · exact .fail

/-- A function takes its chunk. -/
theorem chunk_fn {annots : List Annot} (hu : Quiet (symbols u)) (ht : (u ++ held).head? = some t) :
    Takes u held (fn annots t.span) fun w _ x => Chunk w x.span (Member.fn x).builtinCalls := by
  refine .discard_bind (.expectWord_bind fun fn _ hheld hfn => ?_)
  refine .name_bind fun name _ _ hname => quiet_params.bind fun params w _ _ hparams => ?_
  refine .bodied (by simp [hu, hfn, hname, hparams]) ?_
    (steady_block steady_fnEntry parses_fnEntry Derivation.Command.startsEntry)
    (fun _ => names_fnEntry) fun _ _ _ h => h.chunk fun _ _ => id
  exact List.mem_head?_append_of_mem_head?
    (List.mem_head?_append_of_mem_head? (head?_of_cons ht hheld))

/-- An activity takes its chunk, which calls nothing. -/
theorem chunk_activity {annots : List Annot} (hu : Quiet (symbols u))
    (ht : (u ++ held).head? = some t) :
    Takes u held (activity annots t.span) fun w _ a => Chunk w a.span [] := by
  refine .discard_bind (.expectWord_bind fun activity _ hheld hactivity => ?_)
  refine .name_bind fun name _ _ hname => ?_
  refine .bodied (R := fun v _ => Quiet (symbols v)) (by simp [hu, hactivity, hname]) ?_
    (steady_block steady_activityEntry parses_activityEntry Derivation.Property.startsEntry)
    (fun _ => .atKind_ite (fun _ _ _ _ => quiet_property) .fail) fun _ props _ h => ?_
  · exact List.mem_head?_append_of_mem_head? (head?_of_cons ht hheld)
  · have hchunk : Chunk _ _ (props.flatMap fun _ => []) := h.chunk fun _ _ => .of_quiet
    rwa [List.flatMap_eq_nil_iff.2 fun _ _ => rfl] at hchunk

/-- Whatever member stands behind annotations takes its chunk, one case a keyword. -/
theorem chunk_memberAfter {annots : List Annot} (hu : Quiet (symbols u))
    (ht : (u ++ held).head? = some t) :
    Takes u held (memberAfter annots t.span) fun w _ m => Chunk w m.span m.builtinCalls := by
  refine .atWord_ite (fun _ _ _ _ => ?_) (.atWord_ite (fun _ _ _ _ => ?_)
    (.atWord_ite (fun _ _ _ _ => ?_) ?_))
  · exact (chunk_environment hu ht).seq fun e _ _ _ he => .pure he
  · exact chunk_flow hu ht
  · exact (chunk_fn hu ht).seq fun x _ _ _ hx => .pure hx
  · exact (chunk_activity hu ht).seq fun a _ _ _ ha => .pure ha

/-- A property is covered with its semicolon, as `property` reads it. -/
theorem chunk_property : Takes [] held property fun w _ p => Chunk w p.span [] := by
  have hcovers : Takes [] held property fun w _ p => p.span.Covers w := by
    refine .ident_bind fun key _ _ => .sign_bind nofun fun equals _ _ => ?_
    refine takes_literal.bind fun value w _ _ _ => .sign_bind nofun fun z _ _ => ?_
    exact .spanFrom_bind rfl fun s hs => .pure hs
  refine (hcovers.parsed parses_property).imp fun w _ p ⟨hs, d, _, hw⟩ => ?_
  exact ⟨.whole hs, .of_quiet (hw ▸ d.quiet)⟩

/-- A member takes its chunk, its annotations included. -/
theorem chunk_member : Takes [] held member fun w _ m => Chunk w m.span m.builtinCalls := by
  refine .peek_bind fun t rest hheld => ?_
  subst hheld
  split
  · rename_i ht
    refine .peekSecond_bind (by simp [ht]) fun second => ?_
    split
    · exact chunk_property.bind fun p w _ _ hp => .pure hp
    · split
      · exact chunk_memberAfter quiet_nil rfl
      · exact .fail
  · refine quiet_annots.bind fun annots w rest' hheld hannots => .peek_bind fun _ _ _ => ?_
    split
    · exact chunk_memberAfter hannots (congrArg List.head? hheld.symm)
    · exact .fail
  · exact .fail

/-- What `member` takes is a member with its chunk and a derivation (`Member.ReadFrom`). -/
theorem readFrom_member : Takes [] held member fun w _ m => m.ReadFrom w := by
  refine (chunk_member.parsed parses_member).imp fun w _ m ⟨hchunk, d, hden, hw⟩ => ?_
  exact ⟨hchunk, d, hw.symm, hden⟩

/-! ## Items -/

/-- A module is `Bodied`, with its members for entries. -/
theorem bodied_module {annots : List Annot} (hu : Quiet (symbols u))
    (ht : (u ++ held).head? = some t) :
    Takes u held (module annots t.span) fun w _ m =>
      Bodied (fun v j => j.ReadFrom v) w m.span m.members := by
  refine .discard_bind (.expectWord_bind fun mod _ hheld hmod => ?_)
  refine .name_bind fun name _ _ hname => ?_
  refine (quiet_refsAfter (by decide)).bind fun refs w _ _ hrefs => ?_
  refine .bodied (by simp [hu, hmod, hname, hrefs]) ?_
    (steady_block steady_member parses_member startsEntry_member) (fun _ => readFrom_member)
    fun _ _ _ h => h
  exact List.mem_head?_append_of_mem_head?
    (List.mem_head?_append_of_mem_head? (head?_of_cons ht hheld))

/-- External modules take their chunk, which calls nothing. -/
theorem chunk_external : Takes [] held external fun w _ e => Chunk w e.span [] := by
  refine .expectWord_bind fun t _ _ ht => .discard_bind (.expectWord_bind fun mod _ _ hmod => ?_)
  refine quiet_refList.bind fun refs w _ _ hrefs => .kind_bind nofun fun brace _ _ hbrace => ?_
  refine quiet_origin.bind fun origin w' _ _ horigin => .kind_bind nofun fun z _ _ hz => ?_
  refine .brace_bind rfl hz fun s v _ hs hv => .pure ⟨hs, .of_quiet ?_⟩
  simp [ht, hmod, hrefs, hbrace, horigin, hz, hv]

/-- A module as an `Item`, once its annotations are read. -/
theorem chunk_itemModule {annots : List Annot} (hu : Quiet (symbols u))
    (ht : (u ++ held).head? = some t) :
    Takes u held (module annots t.span >>= fun m => Pure.pure (Item.module m)) fun w _ i =>
      Chunk w i.span i.builtinCalls ∧
        ∀ m, i = .module m → ∀ j ∈ m.members, ∃ v, v <:+: w ∧ j.ReadFrom v := by
  refine (bodied_module hu ht).seq fun m w _ _ hm => .pure ⟨?_, ?_⟩
  · exact hm.chunk fun _ _ hj => hj.chunk.names
  · rintro _ ⟨⟩ j hj
    exact hm.exists_stretch hj

/-- An item takes its chunk, and the members of a module in it have stretches of that. -/
theorem chunk_item : Takes [] held item fun w _ i => Chunk w i.span i.builtinCalls ∧
    ∀ m, i = .module m → ∀ j ∈ m.members, ∃ v, v <:+: w ∧ j.ReadFrom v := by
  refine .peek_bind fun t rest hheld => .note_bind ?_
  subst hheld
  split
  · refine quiet_annots.bind fun annots w rest' hheld hannots =>
      .atWord_ite (fun _ _ _ _ => ?_) .fail
    exact chunk_itemModule hannots (congrArg List.head? hheld.symm)
  · refine .atWord_ite (fun _ _ _ _ => ?_) (.atWord_ite (fun _ _ _ _ => ?_) .fail)
    · exact chunk_itemModule quiet_nil rfl
    · exact chunk_external.bind fun e w _ _ he => .pure ⟨he, nofun⟩

/-- What `item` takes is an item with its chunk and a derivation (`Item.ReadFrom`). -/
theorem readFrom_item : Takes [] held item fun w _ i => i.ReadFrom w := by
  refine (chunk_item.parsed parses_item).imp fun w _ i ⟨⟨hchunk, hmembers⟩, d, hden, hw⟩ => ?_
  exact ⟨hchunk, ⟨d, hw.symm, hden⟩, hmembers⟩

/-- The tokens of a document are the chunks of its items, one behind the other (`EachFrom`), up to
the end of the text. -/
theorem readFrom_document (bytes : Nat) :
    Takes [] held (document bytes) fun w rest d =>
      EachFrom (fun v i => i.ReadFrom v) w d.items ∧ ∃ t ts, rest = t :: ts ∧ t.kind = .eof :=
  (Takes.entries (steady_document bytes).1 fun _ => readFrom_item).bind
    fun _ _ _ _ h => .pure h

end Rule

/-- At the start of a source nothing is taken: a reader there is `Between` nothing and all
`significantTokens`. -/
theorem Reader.between_ofSource (source : String) :
    (ofSource source).Between 0 [] (significantTokens source) (lexFault source) :=
  ⟨holds_ofFeed (Cursor.gives_stream _), rfl⟩

/-- The tokens of an accepted source but for its comments are the chunks of its items, as
`Item.ReadFrom` says. -/
theorem exists_chunks_of_parse {source : String} {t : Document} (h : parse source = .ok t) :
    ∃ ts, tokenize source = .ok ts ∧ EachFrom (fun v i => i.ReadFrom v)
      (ts.filter fun x => x.kind != .comment && x.kind != .eof) t.items := by
  obtain ⟨w, rest, hsplit, -, heach, x, rest', rfl, hx⟩ :=
    Rule.readFrom_document (sourceSize source) _ _ 0 _ t (Reader.between_ofSource source)
      (Prod.ext h rfl)
  obtain ⟨ts, hts, rfl⟩ := tokens_of_eof hsplit hx
  exact ⟨ts, hts, heach⟩

end Gxl
