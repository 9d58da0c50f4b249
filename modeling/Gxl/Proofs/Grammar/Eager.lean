import Gxl.Proofs.Grammar.FirstFault
import Gxl.Proofs.Grammar.Steady
import Gxl.Proofs.Token.Lossless

/-!
# Reading tokens when they are asked for

The grammar asks for one token after the other, and a token is read when it is asked for.  That
makes no difference to what is built: reading all tokens first and then running the grammar over
them gives the same tree or the same error (`parse_eager`).  All rules of the grammar are steady, so
the readers of the two ways stay alike from the first token to the last.

An error of the grammar is about a token that is read before any fault of the characters, and so the
one that is reported is the one that stands first.
-/

namespace Gxl

open Gxl.Derivation

namespace Rule

/-! ## Every rule of the grammar is steady -/

/-- A list of entries is `Steady`: every entry takes the tokens that it starts with. -/
theorem steady_entries {α β : Type} {item : Rule α} {Den : β → α → Prop} {y : β → Phrase}
    {F : β → Phrase → Prop} {E : Phrase → Remark → Prop} (kind : Kind)
    (hkind : kind ∉ [.ident, .builtin, .annotOpen]) (h : item.Steady)
    (hparses : Parses (fun _ => True) item Den (fun b w => w = y b) F E)
    (hy : ∀ b, StartsEntry (y b)) :
    (many (atKind kind >>= fun c =>
      if c = true then pure none else item >>= fun a => pure (some a))).Steady := by
  refine ⟨by simp [h], .of_parses (.unlessKind hparses fun b => (hy b).clear hkind) ?_⟩
  intro b hnil
  obtain ⟨s, u, hs, -⟩ := hy b
  simp [hs] at hnil

/-- Entries between braces make up a `Steady` rule. -/
theorem steady_block {α β : Type} {item : Rule α} {Den : β → α → Prop} {y : β → Phrase}
    {F : β → Phrase → Prop} {E : Phrase → Remark → Prop} (h : item.Steady)
    (hparses : Parses (fun _ => True) item Den (fun b w => w = y b) F E)
    (hy : ∀ b, StartsEntry (y b)) : (block item).Steady := by
  have hentries := steady_entries .braceClose (by decide) h hparses hy
  simp only [block, steady_bind, steady_discard, steady_expect, steady_advance, steady_pure,
    implies_true, and_true, true_and]
  exact fun _ => hentries

/-- Every rule of the grammar is `Steady`, and the lemmas from here to `steady_document` say so of
one after the other. -/
@[simp] theorem steady_ident : ident.Steady := by simp [ident]

@[simp] theorem steady_string : string.Steady := by simp [string]

@[simp] theorem steady_refList : refList.Steady := by simp [refList, steady_eachAfter]

/-- The rule `refsAfter` is steady, whether the sign is there or not. -/
@[simp] theorem steady_refsAfter (sign : Kind) : (refsAfter sign).Steady := by
  simp only [refsAfter, steady_bind, steady_eat, true_and]
  rintro (_ | t) <;> simp

/-- The rule `annotArg` is steady, whatever its first token is. -/
@[simp] theorem steady_annotArg : annotArg.Steady := by
  simp only [annotArg, steady_bind, steady_peek, true_and]
  intro t
  split <;> simp

/-- The rule `annotArgs` is steady, whether a parenthesis opens or not. -/
@[simp] theorem steady_annotArgs : annotArgs.Steady := by
  simp only [annotArgs, steady_bind, steady_eat, true_and]
  rintro (_ | t) <;> simp [steady_commaList]

/-- The rule `annots` is steady: every round takes the token `#[`. -/
@[simp] theorem steady_annots : annots.Steady := by
  refine ⟨?_, strides_eat (by decide) (fun t => by simp) rfl⟩
  simp only [steady_bind, steady_eat, true_and]
  rintro (_ | t) <;> simp

/-- The rule `argValue` is steady, whatever its token is. -/
@[simp] theorem steady_argValue : argValue.Steady := by
  simp only [argValue, steady_bind, steady_peek, true_and]
  intro t
  split <;> simp

@[simp] theorem steady_arg : arg.Steady := by simp [arg]

/-- The rule `callArgs` is steady, with arguments and without. -/
@[simp] theorem steady_callArgs : callArgs.Steady := by
  simp only [callArgs, steady_bind, steady_discard, steady_expect, steady_eat, true_and]
  rintro _ (_ | t) <;> simp [steady_commaList]

@[simp] theorem steady_target : target.Steady := by simp [target, steady_eachAfter]

@[simp] theorem steady_callTail (t : Target) (start : Span) : (callTail t start).Steady := by
  simp [callTail]

/-- The rule `command` is steady: it looks at one token and takes it in either case. -/
@[simp] theorem steady_command : command.Steady := by
  simp only [command, steady_bind, steady_peek, true_and]
  intro t
  split
  · split <;> simp
  · simp
  · simp

@[simp] theorem steady_literal : literal.Steady := by
  simp only [literal, steady_bind, steady_peek, true_and]
  intro t
  split <;> simp

@[simp] theorem steady_property : property.Steady := by simp [property]

@[simp] theorem steady_varsBlock (start : Span) : (varsBlock start).Steady := by
  simp [varsBlock, steady_commaList]

@[simp] theorem steady_callOrVars (start : Span) : (callOrVars start).Steady := by
  simp [callOrVars]

/-- The rule `environmentEntry` is steady: it looks at two tokens at most. -/
@[simp] theorem steady_environmentEntry : environmentEntry.Steady := by
  simp only [environmentEntry, steady_bind, steady_peek, true_and]
  intro t
  split
  · simp
  · simp only [steady_bind, steady_peekSecond, true_and]
    intro u
    split <;> simp
  · simp

/-- The rule `environment` is steady, its body by `steady_block`. -/
@[simp] theorem steady_environment (annots : List Annot) (start : Span) :
    (environment annots start).Steady := by
  simp [environment, steady_block steady_environmentEntry parses_environmentEntry
    EnvironmentEntry.startsEntry]

@[simp] theorem steady_flowEntry : flowEntry.Steady := by
  simp only [flowEntry, steady_bind, steady_peek, true_and]
  intro t
  split <;> simp

/-- The rule `flowFrom` is steady, its body by `steady_block`. -/
@[simp] theorem steady_flowFrom (annots : List Annot) (before : Option RefList) (start : Span) :
    (flowFrom annots before start).Steady := by
  simp [flowFrom, steady_block steady_flowEntry parses_flowEntry FlowEntry.startsEntry]

/-- The rule `flow` is steady, be it a flow or a name for others. -/
@[simp] theorem steady_flow (annots : List Annot) (start : Span) : (flow annots start).Steady := by
  simp only [flow, steady_bind, steady_discard, steady_expectWord, steady_peek, true_and]
  intro _ t
  split
  · simp
  · simp only [steady_bind, steady_peekSecond, true_and]
    intro u
    split <;> simp [flowAlias]
  · simp

/-- The rule `param` is steady, with its fallback and without. -/
@[simp] theorem steady_param : param.Steady := by
  simp only [param, steady_bind, steady_peek, steady_eat, steady_ident, true_and]
  rintro t _ name (_ | u) <;> simp

@[simp] theorem steady_fnEntry : fnEntry.Steady := by
  simp only [fnEntry, steady_bind, steady_peek, true_and]
  intro t
  split <;> simp

/-- The rule `fn` is steady, its body by `steady_block`. -/
@[simp] theorem steady_fn (annots : List Annot) (start : Span) : (fn annots start).Steady := by
  simp [fn, params, steady_commaList,
    steady_block steady_fnEntry parses_fnEntry Command.startsEntry]

@[simp] theorem steady_activityEntry : activityEntry.Steady := by simp [activityEntry]

/-- The rule `activity` is steady, its body by `steady_block`. -/
@[simp] theorem steady_activity (annots : List Annot) (start : Span) :
    (activity annots start).Steady := by
  simp [activity, steady_block steady_activityEntry parses_activityEntry Property.startsEntry]

/-- The rule `member` is steady, whichever keyword it finds. -/
@[simp] theorem steady_member : member.Steady := by
  simp only [member, steady_bind, steady_peek, true_and]
  intro t
  split <;> simp [memberAfter]

/-- The rule `module` is steady, its body by `steady_block`. -/
@[simp] theorem steady_module (annots : List Annot) (start : Span) :
    (module annots start).Steady := by
  simp [module, steady_block steady_member parses_member startsEntry_member]

/-- The rule `item` is steady, with annotations and without. -/
@[simp] theorem steady_item : item.Steady := by
  simp [item, external, origin]

/-- The rule `document` is steady: its items are entries that the end of the text ends. -/
theorem steady_document (bytes : Nat) : (document bytes).Steady := by
  have hentries := steady_entries .eof (by decide) steady_item parses_item Top.startsEntry
  simp only [document, steady_bind, steady_pure, implies_true, and_true]
  exact hentries

end Rule

/-! ## All tokens first -/

/-- A `Queue` gives its tokens, and then the end of their text. -/
theorem Queue.gives {tokens : List Token} {eof : Token}
    (h : ∀ t ∈ tokens, t.symbol.genuine = true) (heof : eof.kind = .eof) :
    Feed.Gives (⟨tokens, eof⟩ : Queue) (tokens ++ [eof]) none := by
  induction tokens with
  | nil => exact .eof rfl rfl heof (Nat.le_refl _)
  | cons t ts ih =>
    obtain ⟨ht, hts⟩ := List.forall_mem_cons.1 h
    exact .token rfl ht (Nat.lt_succ_self _) (ih hts)

/-- Running the grammar over the tokens of a source, read before into a `Queue`, is reading the
source. -/
theorem parse_eq_run_queue {source : String} {ts : List Token} (h : tokenize source = .ok ts) :
    ∃ q : Queue, q.tokens ++ [q.eof] = ts.filter (·.kind != .comment) ∧
      parse source = ((Rule.document (sourceSize source)).run (Reader.ofFeed q)).1 := by
  have hgives := (Cursor.ofSource source).gives_stream
  have hsignificant : (Cursor.ofSource source).significant = ts.filter (·.kind != .comment) := by
    rw [tokenize, Cursor.toList_eq_stream] at h
    split at h
    · rw [Cursor.significant, Except.ok.inj h]
    · simp at h
  rw [← hsignificant]
  obtain ⟨hnone, -⟩ := significantTokens_of_tokenize h
  rw [lexFault] at hnone
  rcases hgives.split with ⟨-, code, x, hsplit, hx, hcode⟩ | ⟨⟨e, he⟩, -⟩
  · refine ⟨⟨code, x⟩, hsplit.symm, ?_⟩
    have hqueue := Queue.gives hcode hx
    rw [hsplit, hnone] at hgives
    have halike : Reader.Alike (Reader.ofSource source) (Reader.ofFeed (⟨code, x⟩ : Queue)) :=
      ⟨⟨_, _, Reader.holds_ofFeed hgives, Reader.holds_ofFeed hqueue⟩, rfl⟩
    exact ((Rule.steady_document (sourceSize source)).agree halike).result_eq
  · rw [hnone] at he
    simp at he

/-! ## What is reported -/

/-- An error of the grammar is about a token of the source, and tells its kind, text and place: a
member of `significantTokens`. -/
theorem exists_token_of_error {source : String} {p : ParseError}
    (h : parse source = .error (.parse p)) :
    ∃ x ∈ significantTokens source,
      x.kind = p.found ∧ x.text = p.foundText ∧ x.span.startPosition = p.position := by
  obtain ⟨r, hout⟩ := outcome_parse source
  rw [h] at hout
  cases hout with
  | refused split _ _ => exact ⟨_, by rw [split]; simp, rfl, rfl, rfl⟩
  | late split _ _ _ => exact ⟨_, by rw [split]; simp, rfl, rfl, rfl⟩

/-- A fault of the characters is reported as it is found when all tokens are read by `tokenize`. -/
theorem tokenize_of_lex_error {source : String} {e : LexError}
    (h : parse source = .error (.lex e)) : tokenize source = .error e := by
  obtain ⟨r, hout⟩ := outcome_parse source
  rw [h] at hout
  cases hout with
  | starved faulty _ => rw [tokenize, Cursor.toList_eq_stream, ← lexFault, faulty]

/-- Reading tokens when they are asked for comes to the same as reading them all first by
`tokenize`.  A source that is accepted has no fault of the characters; one that is reported is the
one that reading all tokens finds; and an error of the grammar is about a token before it.  Where
there is no such fault, the result is that of running the grammar over a `Queue` of the tokens of
the source, comments left out. -/
theorem parse_eager (source : String) :
    (∀ t, parse source = .ok t → ∃ ts, tokenize source = .ok ts) ∧
    (∀ e, parse source = .error (.lex e) → tokenize source = .error e) ∧
    (∀ p, parse source = .error (.parse p) →
      (∃ x ∈ (Cursor.ofSource source).stream.1, x.kind ≠ .comment ∧ x.kind = p.found ∧
        x.text = p.foundText ∧ x.span.startPosition = p.position) ∧
      ∀ e, tokenize source = .error e → p.position.offset < e.position.offset) ∧
    ∀ ts, tokenize source = .ok ts →
      ∃ q : Queue, q.tokens ++ [q.eof] = ts.filter (·.kind != .comment) ∧
        parse source = ((Rule.document (sourceSize source)).run (Reader.ofFeed q)).1 := by
  refine ⟨?_, fun e => tokenize_of_lex_error, ?_, fun ts => parse_eq_run_queue⟩
  · intro t ht
    obtain ⟨ts, -, hts, -⟩ := exists_derivation ht
    exact ⟨ts, hts⟩
  · intro p hp
    obtain ⟨x, hx, hkind, htext, hplace⟩ := exists_token_of_error hp
    obtain ⟨hmem, hcomment⟩ := List.mem_filter.1 hx
    refine ⟨⟨x, hmem, by simpa using hcomment, hkind, htext, hplace⟩, ?_⟩
    intro e he
    rw [← hplace]
    exact Cursor.start_lt_of_fault (lexFault_of_tokenize he) x hmem

end Gxl
