import Gxl.Proofs.Document.Layout
import Gxl.Proofs.Grammar.Terminators
import Gxl.Proofs.Token.Spell

/-!
# The canonical layout spells the grammar

The text that the canonical layout gives to the tree of a derivation spells the phrase of that
derivation, with all optional semicolons (`File.spells_print`).

`Writes` says so of a part of a line: whatever stands behind it, as long as it does not lengthen the
last word of the part.  `Written` says it of lines; it leaves the indentation open, so that a
construct is written wherever it stands.
-/

namespace Gxl

open Gxl.Derivation (Name Quoted Numeral)

/-! ## Parts of lines -/

/-- A text writes down the phrase `w`, before anything that does not lengthen a word
(`Lexeme.Ends`). -/
def Writes (text : String) (w : Phrase) : Prop :=
  ∀ cs v, Lexeme.Ends cs → (Spells false (text.toList ++ cs) (w ++ v) ↔ Spells false cs v)

/-- A text that writes down a phrase spells it before whatever `Ends` a word. -/
theorem Writes.spells_iff {text : String} {w v : Phrase} {cs : List Char} (h : Writes text w)
    (hcs : Lexeme.Ends cs) : Spells false (text.toList ++ cs) (w ++ v) ↔ Spells false cs v :=
  h cs v hcs

section Leaves

variable {afterDot : Bool} {cs : List Char} {v : Phrase}

/-- A name spells its symbol, as it is a word that nothing lengthens. -/
@[simp] theorem spells_name (n : Name) (hcs : Lexeme.Ends cs) :
    Spells afterDot (n.text.toList ++ cs) (n.symbol :: v) ↔ Spells false cs v :=
  spells_word n.isWord (fun c hc => (hcs c hc).1) (.inr (.inr (builtinTail_of_ends hcs)))

/-- A string literal spells its symbol, whatever follows its quote. -/
@[simp] theorem spells_quoted (s : Quoted) :
    Spells afterDot (s.tree.text.toList ++ cs) (s.symbol :: v) ↔ Spells false cs v :=
  spells_of_scan (Lexeme.scan_quoted afterDot cs s.isQuoted) s.isQuoted

/-- A number literal spells its symbol, as nothing lengthens it. -/
@[simp] theorem spells_numeral (n : Numeral) (hcs : Lexeme.Ends cs) :
    Spells afterDot (n.text.toList ++ cs) (n.symbol :: v) ↔ Spells false cs v :=
  spells_of_scan (Lexeme.scan_numeral afterDot n.isNumeral hcs) n.isNumeral

end Leaves

/-- The characters of parts with a separator between every two, as `String.intercalate` joins
them. -/
theorem toList_intercalate_cons (s t : String) (ts : List String) :
    (s.intercalate (t :: ts)).toList = t.toList ++ ts.flatMap fun u => s.toList ++ u.toList := by
  induction ts generalizing t with
  | nil => simp
  | cons u ts ih => simp [String.intercalate_cons_cons, ih]

/-- Two parts with a comma between them: both write down their phrases, and `", "` the comma. -/
theorem Writes.comma {text text' : String} {w w' : Phrase} (h : Writes text w)
    (h' : Writes text' w') : Writes (text ++ ", " ++ text') (w ++ .sign .comma :: w') := by
  intro cs v hcs
  simp +decide [h.spells_iff, h'.spells_iff hcs]

/-- Parts with `commas` between them write down entries `separated` by commas. -/
theorem Writes.commas {β : Type} {text : β → String} {y : β → Phrase}
    (h : ∀ b, Writes (text b) (y b)) (bs : List β) :
    Writes (commas (bs.map text)) (separated y bs) := by
  intro cs v hcs
  -- behind the first part, each part starts with the comma that ends the part before it
  have htail : ∀ bs : List β,
      Lexeme.Ends (((bs.map text).flatMap fun u => ", ".toList ++ u.toList) ++ cs) ∧
      (Spells false (((bs.map text).flatMap fun u => ", ".toList ++ u.toList) ++ cs)
        ((bs.flatMap fun b => .sign .comma :: y b) ++ v) ↔ Spells false cs v) := by
    intro bs
    induction bs with
    | nil => exact ⟨hcs, .rfl⟩
    | cons b bs ih =>
      obtain ⟨hends, hspells⟩ := ih
      refine ⟨by simp +decide, ?_⟩
      rw [← hspells, ← h b _ _ hends]
      simp +decide
  cases bs with
  | nil => simp [Gxl.commas, separated]
  | cons b bs =>
    obtain ⟨hends, hspells⟩ := htail bs
    rw [Gxl.commas, List.map_cons, toList_intercalate_cons, separated, List.append_assoc,
      List.append_assoc, h b _ _ hends, hspells]

namespace Derivation

/-- A name writes down its symbol. -/
theorem Name.writes (n : Name) : Writes n.text [n.symbol] :=
  fun _ _ hcs => spells_name n hcs

/-- Names with commas write down what `Refs` derive. -/
theorem Refs.writes (r : Refs) : Writes (Ident.commas r.tree.names) r.yield := by
  have h := Writes.commas Name.writes (r.head :: r.tail)
  have hnames : r.tree.names.map Ident.name = (r.head :: r.tail).map Name.text :=
    List.map_map
  rwa [Ident.commas, hnames]

/-- An argument of an annotation is written in both of its forms. -/
theorem AnnotArg.writes (a : AnnotArg) : Writes a.tree.text a.yield := by
  intro cs v hcs
  cases a <;> simp +decide [tree, Name.tree, Gxl.Annot.Arg.text, yield]

/-- An annotation is written with its arguments, or without parentheses if there are none. -/
theorem Annot.writes (a : Annot) : Writes a.tree.text a.yield := by
  intro cs v hcs
  obtain ⟨name, args⟩ := a
  cases hargs : args with
  | nil => simp +decide [tree, Name.tree, Gxl.Annot.text, yield, yieldArgs]
  | cons arg rest =>
    have hempty : args.isEmpty = false := by simp [hargs]
    have hyield : yieldArgs args
        = .sign .parenOpen :: (separated AnnotArg.yield args ++ [.sign .parenClose]) := by
      rw [hargs]
      rfl
    rw [← hargs]
    simp +decide [tree, Name.tree, Gxl.Annot.text, yield, hyield, hempty, Function.comp_def,
      (Writes.commas AnnotArg.writes args).spells_iff]

/-- A property is written with its semicolon. -/
theorem Property.writes (p : Property) : Writes p.tree.text p.yield := by
  intro cs v hcs
  obtain ⟨key, value | value⟩ := p <;>
    simp +decide [tree, Literal.tree, Name.tree, Numeral.tree, Gxl.Property.text, Gxl.Literal.text,
      yield, Literal.symbol]

/-- An argument of a call is written with its colon. -/
theorem Arg.writes (a : Arg) : Writes a.tree.text a.yield := by
  intro cs v hcs
  obtain ⟨key, value | value⟩ := a <;>
    simp +decide [tree, ArgValue.tree, Name.tree, Gxl.Arg.text, Gxl.Arg.Value.text, yield,
      ArgValue.symbol, hcs]

/-- The text of the names of a target behind its first, with `sep` before each. -/
def segmentsText (sep : String) (ns : List Name) : List Char :=
  (ns.map Name.text).flatMap fun u => sep.toList ++ u.toList

section Segments

variable {sep : String} {cs : List Char} {v : Phrase}

/-- Neither the names behind it nor what follows them lengthens a name: no `isWordChar` comes
next. -/
theorem head_segmentsText (hsep : sep = "." ∨ sep = " .") (hcs : Lexeme.Ends cs) (ns : List Name) :
    ∀ c ∈ (segmentsText sep ns ++ cs).head?, Lexeme.isWordChar c = false := by
  cases ns with
  | nil => exact fun c hc => (hcs c hc).1
  | cons n ns => rcases hsep with rfl | rfl <;> simp +decide [segmentsText]

/-- The names of a target behind its first, each with a dot before it, as `segmentsText` has
them. -/
theorem spells_segmentsText (hsep : sep = "." ∨ sep = " .") (hcs : Lexeme.Ends cs)
    (ns : List Name) :
    Spells false (segmentsText sep ns ++ cs) (ns.flatMap (fun n => [.sign .dot, n.symbol]) ++ v) ↔
      Spells false cs v := by
  induction ns with
  | nil => rfl
  | cons n ns ih =>
    -- behind a dot `gx` is a word like any other
    have hname : Spells true (n.text.toList ++ (segmentsText sep ns ++ cs))
        (n.symbol :: (ns.flatMap (fun n => [.sign .dot, n.symbol]) ++ v)) ↔ _ :=
      spells_word n.isWord (head_segmentsText hsep hcs ns) (.inl rfl)
    refine Iff.trans ?_ (hname.trans ih)
    rcases hsep with rfl | rfl <;> simp [segmentsText]

/-- Behind `gx`, the names of a target are no name of a builtin command, unless they spell one. -/
theorem builtinTail_segmentsText (hcs : Lexeme.Ends cs) (ns : List Name)
    (h : ∀ n, ns = [n] → Builtin.ofName? ("gx." ++ n.text) = none) :
    Lexeme.builtinTail (segmentsText "." ns ++ cs) = none := by
  cases ns with
  | nil => exact builtinTail_of_ends hcs
  | cons n ns =>
    have htext : segmentsText "." (n :: ns) ++ cs
        = '.' :: (n.text.toList ++ (segmentsText "." ns ++ cs)) := by
      simp [segmentsText]
    have hsplit := Lexeme.takeWhile_dropWhile_append Lexeme.isWordChar (segmentsText "." ns ++ cs)
      (Lexeme.isWordChar_of_isWord n.isWord) (head_segmentsText (.inl rfl) hcs ns)
    rw [htext, Lexeme.builtinTail, hsplit.1, hsplit.2]
    cases ns with
    | nil => simp [h n rfl]
    | cons m ns =>
      have hopens : Lexeme.opensCall false (segmentsText "." (m :: ns) ++ cs) = false := by
        simp +decide [segmentsText, Lexeme.opensCall]
      simp [hopens]

end Segments

/-- A target is written down.  Where its names spell a builtin command, the space before the dot
keeps `gx` a word; where they do not, no name of a builtin command starts there. -/
theorem Target.writes (t : Target) : Writes t.tree.text t.yield := by
  intro cs v hcs
  obtain ⟨head, tail⟩ := t
  obtain ⟨sep, hsep, htext, hgx⟩ : ∃ sep, (sep = "." ∨ sep = " .") ∧
      (Target.mk head tail).tree.text = sep.intercalate (head.text :: tail.map Name.text) ∧
      (head.text.toList ≠ ['g', 'x'] ∨
        Lexeme.builtinTail (segmentsText sep tail ++ cs) = none) := by
    rw [Gxl.Target.text, Gxl.Target.display, Target.segments_tree, List.map_cons]
    split
    · -- the names spell a builtin command, and the space breaks it up
      refine ⟨" .", .inr rfl, rfl, .inr ?_⟩
      cases tail with
      | nil => exact builtinTail_of_ends hcs
      | cons n ns => rfl
    · rename_i hname
      refine ⟨".", .inl rfl, rfl, ?_⟩
      by_cases hhead : head.text = "gx"
      · refine .inr (builtinTail_segmentsText hcs tail ?_)
        rintro n rfl
        simpa [hhead, String.append_assoc] using hname
      · refine .inl fun hlist => hhead ?_
        rw [← String.toList_inj, hlist]
        rfl
  rw [htext, toList_intercalate_cons, List.append_assoc]
  exact (spells_word head.isWord (head_segmentsText hsep hcs tail) (.inr hgx)).trans
    (spells_segmentsText hsep hcs tail)

/-- A command is written with its arguments and its semicolon; `gx .name` is told from the name of a
builtin command by the space. -/
theorem Command.writes (c : Command) : Writes c.tree.text c.yield := by
  intro cs v hcs
  cases c with
  | builtin b args =>
    have hbuiltin : ∀ {cs v}, Spells false (b.name.toList ++ '(' :: cs) (.builtin b :: v) ↔
        Spells false ('(' :: cs) v := fun {cs v} =>
      spells_of_scan (Lexeme.scan_builtin b rfl (by simp +decide)) (Symbol.genuine_builtin b)
    simp +decide [tree, Gxl.Command.text, Gxl.Command.callee, Gxl.Command.args, yield, yieldTail,
      hbuiltin, Function.comp_def, (Writes.commas Arg.writes args).spells_iff]
  | call t args =>
    simp +decide [tree, Gxl.Command.text, Gxl.Command.callee, Gxl.Command.args, yield, yieldTail,
      t.writes.spells_iff, Function.comp_def, (Writes.commas Arg.writes args).spells_iff]

/-- The words that open a block of variables, `gx.vars` and a space, before its brace. -/
theorem spells_vars {cs : List Char} {v : Phrase} :
    Spells false ('g' :: 'x' :: '.' :: 'v' :: 'a' :: 'r' :: 's' :: ' ' :: '\x7b' :: cs)
      (.word "gx" :: .sign .dot :: .word "vars" :: .sign .braceOpen :: v) ↔ Spells false cs v := by
  -- `gx.vars` is the name of a builtin too, but only where a parenthesis follows
  have htail : Lexeme.builtinTail ('.' :: 'v' :: 'a' :: 'r' :: 's' :: ' ' :: '\x7b' :: cs) = none :=
    rfl
  have hgx : Spells false ("gx".toList ++ '.' :: 'v' :: 'a' :: 'r' :: 's' :: ' ' :: '\x7b' :: cs)
      (.word "gx" :: .sign .dot :: .word "vars" :: .sign .braceOpen :: v) ↔ _ :=
    spells_word (by decide) (by simp +decide) (.inr (.inr htail))
  refine hgx.trans ?_
  simp +decide

/-- An entry of an environment is written with its semicolon, as `full` has it. -/
theorem EnvironmentEntry.writes (e : EnvironmentEntry) : Writes e.tree.text e.full.yield := by
  cases e with
  | property p => exact p.writes
  | command c => exact c.writes
  | vars args semi =>
    intro cs v hcs
    cases hargs : args with
    | nil =>
      simp +decide [tree, Environment.Entry.text, VarsBlock.text, full, yield, separated,
        terminator_true, spells_vars]
    | cons arg rest =>
      have hempty : args.isEmpty = false := by simp [hargs]
      rw [← hargs]
      simp +decide [tree, Environment.Entry.text, VarsBlock.text, full, yield, hempty,
        terminator_true, spells_vars, Function.comp_def,
        (Writes.commas Arg.writes args).spells_iff]

/-- An entry of a flow is written as what it is. -/
theorem FlowEntry.writes (e : FlowEntry) : Writes e.tree.text e.yield := by
  cases e with
  | command c => exact c.writes
  | property p => exact p.writes

/-- A parameter is written with its fallback, if it has one. -/
theorem Param.writes (p : Param) : Writes p.tree.text p.yield := by
  intro cs v hcs
  obtain ⟨_ | _, name, _ | value⟩ := p <;>
    simp +decide [tree, Name.tree, Gxl.Param.text, yield, hcs]

/-! ## Lines -/

end Derivation

/-- Lines write down a phrase, each a part of it (`Writes`). -/
inductive Written : List Line → Phrase → Prop where
  | nil : Written [] []
  | cons {l : Line} {ls : List Line} {w v : Phrase} (h : Writes l.text w) (hs : Written ls v) :
      Written (l :: ls) (w ++ v)

namespace Written

variable {ls ms : List Line} {v w : Phrase}

/-- A single line writes down what its text writes down. -/
theorem single {text : String} (h : Writes text w) : Written [.of text] w := by
  simpa using cons (l := .of text) h nil

/-- Lines and more lines write down one phrase behind the other. -/
theorem append (h : Written ls w) (h' : Written ms v) : Written (ls ++ ms) (w ++ v) := by
  induction h with
  | nil => exact h'
  | cons hl _ ih =>
    rw [List.append_assoc]
    exact .cons hl ih

/-- How deep lines stand makes no difference to what they write down: `Line.deeper` keeps it. -/
theorem deeper (h : Written ls w) : Written (ls.map Line.deeper) w := by
  induction h with
  | nil => exact .nil
  | cons hl _ ih => exact .cons hl ih

/-- Single lines, one for each entry, write down the phrases of the entries. -/
theorem map {β : Type} {text : β → String} {y : β → Phrase} (h : ∀ b, Writes (text b) (y b))
    (bs : List β) : Written (bs.map fun b => .of (text b)) (bs.flatMap y) := by
  induction bs with
  | nil => exact .nil
  | cons b bs ih => exact .cons (h b) ih

/-- Lines of entries write down the phrases of the entries, one behind the other. -/
theorem flatMap {β : Type} {lines : β → List Line} {y : β → Phrase}
    (h : ∀ b, Written (lines b) (y b)) (bs : List β) :
    Written (bs.flatMap lines) (bs.flatMap y) := by
  induction bs with
  | nil => exact .nil
  | cons b bs ih => exact (h b).append ih

/-- A `Line.block` writes down what stands before its braces and between them, and its semicolon. -/
theorem block {header : String} (h : Writes header w) (hs : Written ls v) :
    Written (Line.block header ls)
      (w ++ .sign .braceOpen :: (v ++ [.sign .braceClose, .sign .semicolon])) := by
  have hopen : Writes (header ++ " \x7b") (w ++ [.sign .braceOpen]) := by
    intro cs v _
    simp +decide [h.spells_iff]
  have hclose : Writes "\x7d;" [.sign .braceClose, .sign .semicolon] := by
    intro cs v _
    simp +decide
  have hblock := (single hopen).append (hs.deeper.append (single hclose))
  simpa [Line.block] using hblock

/-- Spaces before a text make no difference to what it spells. -/
theorem spells_spaces (n : Nat) {cs : List Char} :
    Spells false (List.replicate n ' ' ++ cs) v ↔ Spells false cs v := by
  induction n with
  | zero => rfl
  | succ n ih => simpa [List.replicate_succ] using ih

/-- Lines one below the other, with any indentation, spell what they write down (`Written`). -/
theorem spells_render (h : Written ls w) (indent : Nat) (cs : List Char) (v : Phrase) :
    Spells false ((String.join (ls.map (Line.render indent))).toList ++ cs) (w ++ v) ↔
      Spells false cs v := by
  induction h with
  | nil => simp
  | @cons l ls w u hl _ ih =>
    simp +decide [Line.render, spells_spaces, hl.spells_iff]
    simpa using ih

end Written

namespace Derivation

/-- Annotations are written one a line. -/
theorem Annot.written (annots : List Annot) :
    Written (Annot.lines (annots.map Annot.tree)) (annots.flatMap Annot.yield) := by
  have h := Written.map Annot.writes annots
  rwa [Gxl.Annot.lines, List.map_map]

/-- A word with a meaning, such as `env`, a space, and the text behind it. -/
theorem writes_keyword (word start : String) {text : String} {w : Phrase}
    (hword : Lexeme.isWord word.toList = true) (hstart : start = word ++ " ") (h : Writes text w) :
    Writes (start ++ text) (.word word :: w) := by
  intro cs v hcs
  have hspace : ∀ cs, Spells false (word.toList ++ ' ' :: cs) (.word word :: (w ++ v)) ↔ _ :=
    fun cs => spells_word hword (by simp +decide) (.inr (.inr rfl))
  rw [hstart]
  simp [hspace, h.spells_iff hcs]

/-- A name and the names that are inherited from, behind a colon (`RefList.inherited`). -/
theorem Refs.writes_inherited (n : Name) (r : Option Refs) :
    Writes (n.text ++ RefList.inherited (r.map Refs.tree))
      (n.symbol :: Refs.yieldAfter .colon r) := by
  intro cs v hcs
  cases r with
  | none => simp [RefList.inherited, yieldAfter, hcs]
  | some r => simp +decide [RefList.inherited, yieldAfter, r.writes.spells_iff, hcs]

/-- A name and parameters between parentheses, as the header of a function has them. -/
theorem Param.writes_list (n : Name) (params : List Param) :
    Writes (n.text ++ "(" ++ Gxl.commas ((params.map Param.tree).map Gxl.Param.text) ++ ")")
      (n.symbol :: .sign .parenOpen :: (separated Param.yield params ++ [.sign .parenClose])) := by
  intro cs v hcs
  simp +decide [Function.comp_def, (Writes.commas Param.writes params).spells_iff]

/-- The origin of external modules is written in both of its forms. -/
theorem Origin.writes (o : Origin) : Writes o.tree.text o.yield := by
  have hvalue : ∀ s : Quoted, Writes ("= " ++ s.tree.text) [.sign .equals, s.symbol] := by
    intro s cs v _
    simp +decide
  have hend : ∀ s : Quoted,
      Writes ("= " ++ s.tree.text ++ ";") [.sign .equals, s.symbol, .sign .semicolon] := by
    intro s cs v _
    simp +decide
  cases o with
  | path place =>
    have h := writes_keyword "path" "path " rfl rfl (hend place)
    have htext : (Origin.path place).tree.text = "path " ++ ("= " ++ place.tree.text ++ ";") := by
      apply String.toList_inj.1
      simp [tree, Gxl.Origin.text]
    rwa [htext]
  | git url channel =>
    have h := writes_keyword "git" "git " rfl rfl ((hvalue url).comma
      (writes_keyword "channel" "channel " rfl rfl (hend channel)))
    have htext : (Origin.git url channel).tree.text = "git " ++ ("= " ++ url.tree.text ++ ", "
        ++ ("channel " ++ ("= " ++ channel.tree.text ++ ";"))) := by
      apply String.toList_inj.1
      simp [tree, Gxl.Origin.text]
    rwa [htext]

/-- The header of a flow, from `flow` to its last name. -/
theorem writes_flowHeader (annots : List Gxl.Annot) (before : Option Refs) (name : Name)
    (after : Option Refs) (entries : List Flow.Entry) :
    Writes (Flow.header ⟨annots, before.map Refs.tree, name.tree, after.map Refs.tree, entries,
        default⟩)
      (.word "flow" :: (Construct.yieldBefore before ++ .sign .atSign ::
        name.symbol :: Refs.yieldAfter .pipe after)) := by
  intro cs v hcs
  have hrefs : ∀ r : Refs, Writes (Ident.commas r.tree.names) r.yield := Refs.writes
  cases before <;> cases after <;>
    simp +decide [Flow.header, Name.tree, Construct.yieldBefore, Refs.yieldAfter,
      (hrefs _).spells_iff, hcs]

/-- Entries, one a line, between the braces of a block, each with the semicolons that `full` puts
in. -/
theorem written_braced {α β : Type} {tree : β → α} {text : α → String} {full : β → β}
    {y : β → Phrase} {header : String} {w : Phrase} (hheader : Writes header w)
    (h : ∀ b, Writes (text (tree b)) (y (full b))) (bs : List β) :
    Written (Line.block header ((bs.map tree).map fun a => .of (text a)))
      (w ++ braced y (bs.map full) true) := by
  have hlines := Written.block hheader (Written.map h bs)
  simpa [braced, terminator_true, Function.comp_def, List.flatMap_map] using hlines

/-- Entries that have no semicolons to put in: `written_braced` with nothing to fill in. -/
theorem written_braced_self {α β : Type} {tree : β → α} {text : α → String} {y : β → Phrase}
    {header : String} {w : Phrase} (hheader : Writes header w)
    (h : ∀ b, Writes (text (tree b)) (y b)) (bs : List β) :
    Written (Line.block header ((bs.map tree).map fun a => .of (text a)))
      (w ++ braced y bs true) := by
  have hlines := written_braced hheader (fun b => h (id b)) bs
  rwa [List.map_id] at hlines

/-- A member is written with all semicolons, one case a constructor. -/
theorem Member.written (m : Member) : Written m.tree.lines m.full.yield := by
  cases m with
  | property p => exact .single p.writes
  | construct annots c =>
    have hannots := Annot.written annots
    cases c with
    | environment name refs entries semi =>
      have h := written_braced (writes_keyword "env" "env " rfl rfl
        (Refs.writes_inherited name refs)) EnvironmentEntry.writes entries
      rw [← String.append_assoc] at h
      exact hannots.append h
    | flow before name after entries semi =>
      have h := written_braced_self (writes_flowHeader (annots.map Annot.tree) before name after
        (entries.map FlowEntry.tree)) FlowEntry.writes entries
      have hyield : (Construct.flow before name after entries true).yield
          = (.word "flow" :: (Construct.yieldBefore before ++ .sign .atSign :: name.symbol ::
            Refs.yieldAfter .pipe after)) ++ braced FlowEntry.yield entries true := by
        simp [Construct.yield]
      rw [← hyield] at h
      exact hannots.append h
    | flowAlias name targets =>
      have htext : Writes (name.text ++ " : " ++ Ident.commas targets.tree.names ++ ";")
          (name.symbol :: .sign .colon :: (targets.yield ++ [.sign .semicolon])) := by
        intro cs v hcs
        simp +decide [targets.writes.spells_iff]
      have h := Written.single (writes_keyword "flow" "flow " rfl rfl htext)
      simp only [← String.append_assoc] at h
      exact hannots.append h
    | fn name params body semi =>
      have h := written_braced_self (writes_keyword "fn" "fn " rfl rfl
        (Param.writes_list name params)) Command.writes body
      have hyield : (Construct.fn name params body true).yield
          = (.word "fn" :: name.symbol :: .sign .parenOpen :: (separated Param.yield params
            ++ [.sign .parenClose])) ++ braced Command.yield body true := by
        simp [Construct.yield]
      rw [← hyield] at h
      simp only [← String.append_assoc] at h
      exact hannots.append h
    | activity name props semi =>
      exact hannots.append (written_braced_self (writes_keyword "activity" "activity " rfl rfl
        name.writes) Property.writes props)

/-- An item is written with all semicolons. -/
theorem Top.written (d : Top) : Written d.tree.lines d.full.yield := by
  cases d with
  | module annots name refs members semi =>
    have hmembers : Written ((members.map Member.tree).flatMap Gxl.Member.lines)
        ((members.map Member.full).flatMap Member.yield) := by
      rw [List.flatMap_map, List.flatMap_map]
      exact .flatMap Member.written members
    have h := Written.block (writes_keyword "mod" "mod " rfl rfl
      (Refs.writes_inherited name refs)) hmembers
    rw [← String.append_assoc] at h
    have hyield : (Top.module annots name refs members semi).full.yield = annots.flatMap Annot.yield
        ++ ((.word "mod" :: name.symbol :: Refs.yieldAfter .colon refs) ++ .sign .braceOpen ::
          ((members.map Member.full).flatMap Member.yield ++ [.sign .braceClose,
            .sign .semicolon])) := by
      simp [full, yield, yieldHeader, braced, terminator_true]
    rw [hyield]
    exact (Annot.written annots).append h
  | external names origin semi =>
    have hstart : "extern " ++ "mod " = "extern mod " := rfl
    have h := Written.block (writes_keyword "extern" "extern " rfl rfl
      (writes_keyword "mod" "mod " rfl rfl names.writes)) (.single origin.writes)
    rw [← String.append_assoc, hstart] at h
    have hyield : (Top.external names origin semi).full.yield = (.word "extern" :: .word "mod" ::
        names.yield) ++ .sign .braceOpen :: (origin.yield ++ [.sign .braceClose,
          .sign .semicolon]) := by
      simp [full, yield, terminator_true]
    rw [hyield]
    exact h

/-- An item, laid out by `Item.print` with any indentation, spells its phrase with all
semicolons. -/
theorem Top.spells_print (d : Top) (indent : Nat) (cs : List Char) (v : Phrase) :
    Spells false ((d.tree.print indent).toList ++ cs) (d.full.yield ++ v) ↔ Spells false cs v :=
  d.written.spells_render indent cs v

/-- The canonical layout of a document, `Document.print`, spells its phrase with all semicolons. -/
theorem File.spells_print (d : File) (indent : Nat) :
    Spells false (d.tree.print indent).toList d.full.yield := by
  obtain ⟨tops⟩ := d
  have htail : ∀ tops : List Top, Spells false
      ((tops.map fun d => d.tree.print indent).flatMap fun u => "\n".toList ++ u.toList)
      ((tops.map Top.full).flatMap Top.yield) := by
    intro tops
    induction tops with
    | nil => exact .nil false
    | cons d tops ih => simpa [Top.spells_print] using ih
  cases tops with
  | nil => exact .nil false
  | cons d tops =>
    have hprint : (File.mk (d :: tops)).tree.print indent
        = "\n".intercalate (d.tree.print indent :: tops.map fun d => d.tree.print indent) := by
      simp [tree, Document.print, Function.comp_def]
    rw [hprint, toList_intercalate_cons]
    exact (d.spells_print indent _ _).2 (htail tops)

end Derivation

end Gxl
