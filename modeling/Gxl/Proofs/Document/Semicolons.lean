import Gxl.Proofs.Document.RoundTrip
import Gxl.Proofs.Grammar.Variants
import Gxl.Proofs.Token.Ahead

/-!
# Semicolons behind closing braces

In a source that is accepted, the semicolon behind a closing brace says nothing.  It may be deleted,
blanks and comments before it or not, and where there is none one may be put right behind the brace;
the tree stays the same, and so it does when any number of braces are changed at once
(`semicolons_say_nothing`).

No token before a closing brace sees what stands behind it, and behind the brace reading goes on
with the same tokens but for the semicolon.  `Reterminates` follows the tokens of the two texts side
by side, and their symbols differ as `Toggles` says (`Reterminates.lexes`).
-/

namespace Gxl

open Gxl.Derivation

/-! ## Two texts side by side -/

/-- The second text comes from the first by deleting semicolons behind closing braces, and by
putting semicolons right behind closing braces that have none. -/
inductive Reterminates : Bool → List Char → List Char → Prop where
  | refl (afterDot : Bool) (cs : List Char) : Reterminates afterDot cs cs
  | blank {afterDot : Bool} {c : Char} {cs cs' : List Char} (hc : Text.isBlank c = true)
      (h : Reterminates afterDot cs cs') : Reterminates afterDot (c :: cs) (c :: cs')
  | token {afterDot : Bool} {kind : Kind} {lexeme cs cs' : List Char}
      (hscan : Lexeme.scan afterDot (lexeme ++ cs) = .token kind lexeme cs)
      (h : Reterminates (if kind = .comment then afterDot else kind == .dot) cs cs') :
      Reterminates afterDot (lexeme ++ cs) (lexeme ++ cs')
  | delete {afterDot : Bool} {x cs cs' : List Char} (hx : Text.Extras x)
      (h : Reterminates false cs cs') :
      Reterminates afterDot ('\x7d' :: (x ++ ';' :: cs)) ('\x7d' :: (x ++ cs'))
  | insert {afterDot : Bool} {cs cs' : List Char}
      (hnone : ∀ v, Lexes false cs v → Rule.Clear .semicolon v) (h : Reterminates false cs cs') :
      Reterminates afterDot ('\x7d' :: cs) ('\x7d' :: ';' :: cs')

namespace Reterminates

variable {afterDot : Bool} {cs cs' : List Char}

/-- Blanks before two texts that differ as `Reterminates` says leave them so. -/
theorem blanks {gap : List Char} (hgap : ∀ c ∈ gap, Text.isBlank c = true)
    (h : Reterminates afterDot cs cs') : Reterminates afterDot (gap ++ cs) (gap ++ cs') := by
  induction gap with
  | nil => exact h
  | cons c gap ih =>
    obtain ⟨hc, hgap⟩ := List.forall_mem_cons.1 hgap
    exact .blank hc (ih hgap)

/-- A token before the two texts cannot tell them apart: they are `SameAhead`. -/
theorem sameAhead (h : Reterminates afterDot cs cs') : SameAhead afterDot cs cs' := by
  induction h with
  | refl => exact .refl _ _
  | blank hc _ ih => exact .blank hc ih
  | token hscan _ ih => exact .token hscan ih
  | delete => exact .sign (.inl rfl) _ _
  | insert => exact .sign (.inl rfl) _ _

/-- The symbols of the two texts differ in the semicolons behind closing braces only, as `Toggles`
says. -/
theorem lexes (h : Reterminates afterDot cs cs') {v : Phrase} (hv : Lexes afterDot cs v) :
    ∃ v', Lexes afterDot cs' v' ∧ ∀ afterBrace, Toggles afterBrace v v' := by
  induction h generalizing v with
  | refl afterDot cs => exact ⟨v, hv, fun afterBrace => .refl afterBrace v⟩
  | blank hc _ ih =>
    obtain ⟨v', hv', htoggles⟩ := ih (hv.of_blank hc)
    exact ⟨v', .blank hc hv', htoggles⟩
  | @token afterDot kind lexeme cs cs' hscan h ih =>
    have hscan' := h.sameAhead.scan hscan
    obtain ⟨rfl, hrest⟩ | ⟨hkind, v, rfl, hrest⟩ := hv.of_scan hscan
    · obtain ⟨v', hv', htoggles⟩ := ih hrest
      exact ⟨v', .comment hscan' hv', htoggles⟩
    · rw [if_neg hkind] at ih
      obtain ⟨v', hv', htoggles⟩ := ih hrest
      exact ⟨_ :: v', .symbol hscan' hkind hv', fun _ => .keep (htoggles _)⟩
  | @delete afterDot x cs cs' hx _ ih =>
    obtain ⟨v₁, rfl, hv₁⟩ := hv.of_sign (k := .braceClose) (by decide)
    obtain ⟨v₂, rfl, hv₂⟩ := (hv₁.of_extras hx).of_sign (k := .semicolon) (by decide)
    obtain ⟨v', hv', htoggles⟩ := ih hv₂
    exact ⟨_ :: v', .sign (k := .braceClose) (by decide) (hv'.extras hx),
      fun _ => .keep (.strike (htoggles _))⟩
  | @insert afterDot cs cs' hnone _ ih =>
    obtain ⟨v, rfl, hrest⟩ := hv.of_sign (k := .braceClose) (by decide)
    obtain ⟨v', hv', htoggles⟩ := ih hrest
    exact ⟨_ :: _ :: v', .sign (k := .braceClose) (by decide)
      (.sign (k := .semicolon) (by decide) hv'),
      fun _ => .keep (.add (hnone v hrest) (htoggles _))⟩

end Reterminates

/-! ## Changing chosen braces -/

/-- Blanks before extras are extras (`Text.Extras`). -/
theorem Text.Extras.blanks {gap cs : List Char} (hgap : ∀ c ∈ gap, isBlank c = true)
    (h : Extras cs) : Extras (gap ++ cs) := by
  induction gap with
  | nil => exact h
  | cons c gap ih =>
    obtain ⟨hc, hgap⟩ := List.forall_mem_cons.1 hgap
    exact .blank hc (ih hgap)

/-- Blanks alone are extras. -/
theorem Text.Extras.of_blanks {gap : List Char} (hgap : ∀ c ∈ gap, isBlank c = true) :
    Extras gap := by
  have hextras := blanks hgap .nil
  rwa [List.append_nil] at hextras

/-- Whether the next token of `ps`, comments aside, is a semicolon. -/
def Piece.semicolonNext (ps : List Piece) : Bool :=
  ((ps.map Piece.token).find? (·.kind != .comment)).any (·.kind == .semicolon)

/-- The text of pieces with the semicolons behind chosen closing braces changed: where the next
token, comments aside, is a semicolon (`semicolonNext`), that is left out, and elsewhere one is put
right behind the brace.  The flag tells whether the next semicolon is to be left out. -/
def Piece.toggled (chosen : Token → Bool) : Bool → List Piece → List Char
  | _, [] => []
  | leaveOut, p :: ps =>
    if p.token.kind = .comment then
      p.text ++ toggled chosen leaveOut ps
    else if p.token.kind = .semicolon ∧ leaveOut = true then
      p.gap ++ toggled chosen false ps
    else if p.token.kind = .braceClose ∧ chosen p.token = true then
      p.text ++
        (if semicolonNext ps then toggled chosen true ps else ';' :: toggled chosen false ps)
    else
      p.text ++ toggled chosen false ps

namespace Piece

variable {chosen : Token → Bool} {p : Piece} {ps : List Piece}

/-- A comment stays as it is, and so does what is to be left out behind it. -/
theorem toggled_comment (leaveOut : Bool) (hp : p.token.kind = .comment) :
    toggled chosen leaveOut (p :: ps) = p.text ++ toggled chosen leaveOut ps := by
  rw [toggled, if_pos hp]

/-- A semicolon that is to be left out leaves its `gap` behind. -/
theorem toggled_semicolon (hp : p.token.kind = .semicolon) :
    toggled chosen true (p :: ps) = p.gap ++ toggled chosen false ps := by
  simp [toggled, hp]

/-- A chosen closing brace either has its semicolon left out further on, or gets one. -/
theorem toggled_brace (hp : p.token.kind = .braceClose) (hchosen : chosen p.token = true) :
    toggled chosen false (p :: ps) = p.text ++
      (if semicolonNext ps then toggled chosen true ps else ';' :: toggled chosen false ps) := by
  simp [toggled, hp, hchosen]

/-- Every other piece stays as it is, if nothing is to be left out. -/
theorem toggled_other (hp : ¬ (p.token.kind = .braceClose ∧ chosen p.token = true)) :
    toggled chosen false (p :: ps) = p.text ++ toggled chosen false ps := by
  have hsemicolon : ¬ (p.token.kind = .semicolon ∧ false = true) := by simp
  rw [toggled, if_neg hp, if_neg hsemicolon, ite_self]

/-- A comment is no token that `semicolonNext` looks at. -/
theorem semicolonNext_comment (hp : p.token.kind = .comment) :
    semicolonNext (p :: ps) = semicolonNext ps := by
  simp [semicolonNext, hp]

/-- Of any other piece, `semicolonNext` looks at the kind of its token. -/
theorem semicolonNext_other (hp : p.token.kind ≠ .comment) :
    semicolonNext (p :: ps) = (p.token.kind == .semicolon) := by
  simp [semicolonNext, hp]

end Piece

namespace Cursor

/-- A cursor reads the tokens of some pieces that its text starts with, from the state `c` to the
state `d`. -/
inductive Passes : Cursor → List Piece → Cursor → Prop where
  | nil (c : Cursor) : Passes c [] c
  | cons {c c' d : Cursor} {p : Piece} {ps : List Piece} (hnext : c.next = (.ok p.token, c'))
      (heof : p.token.kind ≠ .eof) (hrest : c.rest = p.text ++ c'.rest) (h : Passes c' ps d) :
      Passes c (p :: ps) d

/-- The tokens along a `Run` are those of pieces that the cursor passes. -/
theorem Run.passes {c d : Cursor} {ts : List Token} (h : Run c ts d) :
    ∃ ps : List Piece, ps.map Piece.token = ts ∧ Passes c ps d := by
  induction h with
  | nil c => exact ⟨[], rfl, .nil c⟩
  | @cons c c' d t ts h ht _ ih =>
    obtain ⟨ps, rfl, hps⟩ := ih
    obtain ⟨gap, hgap, hrest, -⟩ := next_ok h
    exact ⟨⟨gap, t, hgap⟩ :: ps, rfl, .cons h ht (by rw [hrest, ← List.append_assoc]; rfl) hps⟩

/-- A step of the cursor is a `Lexeme.scan` of the text of its token. -/
theorem scan_of_next {c c' : Cursor} {t : Token} (h : c.next = (.ok t, c')) (ht : t.kind ≠ .eof) :
    Lexeme.scan c.afterDot (t.text.toList ++ c'.rest)
      = .token t.kind t.text.toList c'.rest := by
  obtain ⟨gap, -, ⟨-, heof, -⟩ | ⟨kind, lexeme, rest, -, -, hscan, rfl, rfl⟩⟩ := next_cases h
  · exact absurd heof ht
  · rwa [String.toList_ofList]

/-- A token of a kind with one text, its `spelling`, has that text. -/
theorem text_of_next {c c' : Cursor} {t : Token} {kind : Kind} (h : c.next = (.ok t, c'))
    (hkind : t.kind = kind) (hspelling : kind.spelling ≠ "") :
    t.text.toList = kind.spelling.toList := by
  subst hkind
  have heof : t.kind ≠ .eof := fun heof => hspelling (by rw [heof]; rfl)
  have hcomment : t.kind ≠ .comment := fun hcomment => hspelling (by rw [hcomment]; rfl)
  have hgenuine := Lexeme.genuine_of_scan (scan_of_next h heof) hcomment
  rw [String.ofList_toList] at hgenuine
  have hsign := Symbol.eq_sign_of_genuine hgenuine hspelling
  simpa [Symbol.sign] using congrArg (fun s => s.text.toList) hsign

namespace Passes

variable {c d : Cursor} {ps : List Piece}

/-- The text that a cursor has to read is that of the pieces it passes, and the rest. -/
theorem rest_eq (h : Passes c ps d) : c.rest = Piece.joined ps ++ d.rest := by
  induction h with
  | nil c => rfl
  | cons _ _ hrest _ ih => rw [hrest, ih, Piece.joined_cons, List.append_assoc]

/-- A step over a piece moves the position over its text, and its token stands behind its `gap`. -/
theorem place_of_next {c c' : Cursor} {p : Piece} (hnext : c.next = (.ok p.token, c'))
    (hrest : c.rest = p.text ++ c'.rest) :
    p.token.span = .between (c.position.after p.gap) c'.position.offset ∧
      c'.position = c.position.after p.text := by
  obtain ⟨gap, -, hrest', hposition, hspan, -⟩ := next_ok hnext
  have hgap : p.gap = gap := by
    rw [hrest, Piece.text, List.append_assoc] at hrest'
    exact List.append_cancel_right hrest'
  rw [hgap, Piece.text, hgap]
  exact ⟨hspan, hposition⟩

/-- A token starts behind the pieces and the blanks before it, and ends behind its own text, counted
by `Text.byteSize`. -/
theorem span {before after : List Piece} {p : Piece} (h : Passes c (before ++ p :: after) d) :
    p.token.span.start = c.position.offset + Text.byteSize (Piece.joined before ++ p.gap) ∧
      p.token.span.stop = c.position.offset + Text.byteSize (Piece.joined before ++ p.text) := by
  induction before generalizing c with
  | nil =>
    cases h with
    | cons hnext heof hrest h =>
      obtain ⟨hspan, hposition⟩ := place_of_next hnext hrest
      rw [hspan, hposition, Piece.joined_nil, List.nil_append, List.nil_append]
      exact ⟨Position.offset_after _ _, Position.offset_after _ _⟩
  | cons q before ih =>
    cases h with
    | cons hnext heof hrest h =>
      obtain ⟨-, hposition⟩ := place_of_next hnext hrest
      obtain ⟨hstart, hstop⟩ := ih h
      rw [hstart, hstop, hposition, Position.offset_after, Piece.joined_cons]
      simp only [Text.byteSize_append]
      omega

/-- The same for a token among the pieces that a cursor passes. -/
theorem text_eq {before after : List Piece} {p : Piece} {kind : Kind}
    (h : Passes c (before ++ p :: after) d) (hkind : p.token.kind = kind)
    (hspelling : kind.spelling ≠ "") : p.token.text.toList = kind.spelling.toList := by
  induction before generalizing c with
  | nil =>
    cases h with
    | cons hnext => exact text_of_next hnext hkind hspelling
  | cons q before ih =>
    cases h with
    | cons _ _ _ h => exact ih h

/-- Where no semicolon comes next, the symbols start with none (`Rule.Clear`). -/
theorem clear (h : Passes c ps d)
    (hd : ∀ v, Lexes d.afterDot d.rest v → Rule.Clear .semicolon v)
    (hnext : Piece.semicolonNext ps = false) :
    ∀ v, Lexes c.afterDot c.rest v → Rule.Clear .semicolon v := by
  induction h with
  | nil c => exact hd
  | @cons c c' d p ps hstep heof hrest _ ih =>
    intro v hv
    rw [hrest, Piece.text, List.append_assoc] at hv
    obtain ⟨hcomment, hv⟩ | ⟨hkind, v, rfl, -⟩ :=
      (hv.of_blanks p.blank).of_scan (scan_of_next hstep heof)
    · refine ih hd ?_ v ?_
      · simpa [Piece.semicolonNext, hcomment] using hnext
      · rwa [afterDot_of_next hstep heof, if_pos hcomment]
    · rw [Rule.clear_cons]
      simpa [Piece.semicolonNext, hkind] using hnext

/-- Blanks, a comment and more extras, before a semicolon, are extras. -/
theorem extras_comment {c c' : Cursor} {p : Piece} {x cs : List Char}
    (hnext : c.next = (.ok p.token, c')) (hcomment : p.token.kind = .comment)
    (hrest : c'.rest = x ++ ';' :: cs) (hx : Text.Extras x) : Text.Extras (p.text ++ x) := by
  have hscan := scan_of_next hnext (by simp [hcomment])
  rw [hcomment] at hscan
  obtain ⟨body, htext, hbody, hopen, hline⟩ := Lexeme.scan_comment_cases hscan
  rw [hrest] at hopen hline
  -- the comment ends with its line, before the semicolon
  cases hx with
  | nil => simp at hline
  | @blank e x he hx =>
    obtain rfl : e = '\n' := hline e rfl
    have hhead : body.head? ≠ some '[' := by
      cases body with
      | nil => simp
      | cons e body => exact hopen
    have hextras : Text.Extras (p.token.text.toList ++ '\n' :: x) := by
      rw [htext]
      exact .comment hhead hbody hx
    rw [Piece.text, List.append_assoc]
    exact .blanks p.blank hextras
  | comment => simp at hline

/-- A closing brace whose semicolon is left out, or that gets one: the case of a chosen brace in
`reterminates`. -/
theorem reterminates_brace {c c' : Cursor} {p : Piece} {ps : List Piece}
    {kept left last : List Char}
    (hnext : c.next = (.ok p.token, c')) (hbrace : p.token.kind = .braceClose)
    (hrest : c.rest = p.text ++ c'.rest) (hkept : Reterminates c'.afterDot c'.rest (kept ++ last))
    (hleft : Piece.semicolonNext ps = true → ∃ x cs cs', Text.Extras x ∧
      c'.rest = x ++ ';' :: cs ∧ left ++ last = x ++ cs' ∧ Reterminates false cs cs')
    (hnone : Piece.semicolonNext ps = false →
      ∀ v, Lexes c'.afterDot c'.rest v → Rule.Clear .semicolon v) :
    Reterminates c.afterDot c.rest
      (p.text ++ ((if Piece.semicolonNext ps then left else ';' :: kept) ++ last)) := by
  have hdot : c'.afterDot = false := by
    rw [afterDot_of_next hnext (by simp [hbrace]), hbrace]
    rfl
  rw [hdot] at hkept hnone
  rw [hrest, Piece.text, text_of_next hnext hbrace (by decide), List.append_assoc,
    List.append_assoc]
  refine .blanks p.blank ?_
  by_cases hsemi : Piece.semicolonNext ps = true
  · obtain ⟨x, cs, cs', hx, hcs, hcs', hrets⟩ := hleft hsemi
    rw [if_pos hsemi, hcs, hcs']
    exact .delete hx hrets
  · rw [if_neg hsemi]
    exact .insert (hnone (Bool.eq_false_iff.2 hsemi)) hkept

/-- Pieces whose text is `toggled` change as `Reterminates` says.  Where the next semicolon is to be
left out, only blanks and comments stand before it. -/
theorem reterminates (chosen : Token → Bool) (h : Passes c ps d)
    (hd : ∀ v, Lexes d.afterDot d.rest v → Rule.Clear .semicolon v) :
    Reterminates c.afterDot c.rest (Piece.toggled chosen false ps ++ d.rest) ∧
      (Piece.semicolonNext ps = true → ∃ x cs cs', Text.Extras x ∧ c.rest = x ++ ';' :: cs ∧
        Piece.toggled chosen true ps ++ d.rest = x ++ cs' ∧ Reterminates false cs cs') := by
  induction h with
  | nil c => exact ⟨.refl _ _, by simp [Piece.semicolonNext]⟩
  | @cons c c' d p ps hstep heof hrest hps ih =>
    obtain ⟨hkept, hleft⟩ := ih hd
    have hscan := scan_of_next hstep heof
    have hdot := afterDot_of_next hstep heof
    have hkeep : Reterminates c.afterDot c.rest
        (p.text ++ (Piece.toggled chosen false ps ++ d.rest)) := by
      rw [hrest, Piece.text, List.append_assoc, List.append_assoc]
      rw [hdot] at hkept
      exact .blanks p.blank (.token hscan hkept)
    by_cases hcomment : p.token.kind = .comment
    · rw [Piece.toggled_comment _ hcomment, Piece.toggled_comment _ hcomment,
        Piece.semicolonNext_comment hcomment]
      refine ⟨by rwa [List.append_assoc], fun hsemi => ?_⟩
      obtain ⟨x, cs, cs', hx, hcs, hcs', hrets⟩ := hleft hsemi
      refine ⟨p.text ++ x, cs, cs', extras_comment hstep hcomment hcs hx, ?_, ?_, hrets⟩
      · rw [hrest, hcs, List.append_assoc]
      · rw [List.append_assoc, hcs', List.append_assoc]
    rw [Piece.semicolonNext_other hcomment]
    by_cases hbrace : p.token.kind = .braceClose ∧ chosen p.token = true
    · refine ⟨?_, by simp [hbrace.1]⟩
      rw [Piece.toggled_brace hbrace.1 hbrace.2, List.append_assoc]
      exact reterminates_brace hstep hbrace.1 hrest hkept hleft (hps.clear hd)
    · refine ⟨by rwa [Piece.toggled_other hbrace, List.append_assoc], fun hsemi => ?_⟩
      have hsemicolon : p.token.kind = .semicolon := beq_iff_eq.1 hsemi
      refine ⟨p.gap, c'.rest, Piece.toggled chosen false ps ++ d.rest, .of_blanks p.blank,
        ?_, ?_, ?_⟩
      · rw [hrest, Piece.text, text_of_next hstep hsemicolon (by decide), List.append_assoc]
        rfl
      · rw [Piece.toggled_semicolon hsemicolon, List.append_assoc]
      · rwa [hdot, hsemicolon] at hkept

end Passes

end Cursor

/-- Behind the last token of a text only its end is read, which is no semicolon. -/
theorem Cursor.clear_of_eof {d d' : Cursor} {x : Token} (h : d.next = (.ok x, d'))
    (hx : x.kind = .eof) : ∀ v, Lexes d.afterDot d.rest v → Rule.Clear .semicolon v := by
  intro v hv
  obtain ⟨gap, hgap, ⟨hrest, -, -⟩ | ⟨kind, lexeme, rest, hkind, -, -, rfl, -⟩⟩ := next_cases h
  · rw [hrest, ← List.append_nil gap] at hv
    cases hv.of_blanks hgap with
    | nil => simp
    | comment hscan _ => simp [Lexeme.scan] at hscan
    | symbol hscan _ _ => simp [Lexeme.scan] at hscan
  · exact absurd hx hkind

/-- An accepted source is made up of the pieces of its tokens and of blanks behind them: a cursor
`Passes` over them all. -/
theorem exists_passes_of_parse {source : String} {t : Document} (h : parse source = .ok t) :
    ∃ ps d x, tokenize source = .ok (ps.map Piece.token ++ [x]) ∧ x.kind = .eof ∧
      Cursor.Passes (Cursor.ofSource source) ps d ∧
      ∀ v, Lexes d.afterDot d.rest v → Rule.Clear .semicolon v := by
  obtain ⟨ts, -, hts, -⟩ := exists_derivation h
  have hstream := tokenize_eq_ok_iff.1 hts
  obtain ⟨us, d, hrun, ⟨x, d', hnext, hx, hend⟩ | ⟨e, d', -, hend⟩⟩ :=
    (Cursor.ofSource source).exists_run_end
  · obtain ⟨ps, rfl, hps⟩ := hrun.passes
    refine ⟨ps, d, x, ?_, hx, hps, Cursor.clear_of_eof hnext hx⟩
    rw [tokenize_eq_ok_iff, hend]
  · rw [hstream] at hend
    simp at hend

/-- A source whose semicolons behind closing braces are changed, as `Reterminates` says, is
accepted, with the same tree. -/
theorem parse_of_reterminates {source : String} {t : Document} (h : parse source = .ok t)
    {cs : List Char} (hcs : Reterminates false source.toList cs) :
    ∃ t', parse (String.ofList cs) = .ok t' ∧ Document.sameTree t t' = true := by
  obtain ⟨d, hlexes, htree⟩ := exists_lexes_of_parse h
  obtain ⟨v', hv', htoggles⟩ := hcs.lexes hlexes
  obtain ⟨d', rfl, htree'⟩ := d.exists_yield_of_toggles rfl (htoggles false)
  rw [← String.toList_ofList (l := cs)] at hv'
  obtain ⟨t', ht', herase⟩ := parse_of_lexes hv'
  refine ⟨t', ht', Document.sameTree_of_erase_eq ?_⟩
  rw [htree, herase, htree']

/-! ## One brace -/

namespace Piece

variable {chosen : Token → Bool}

/-- Where no brace is chosen, the text stays as it is: `toggled` starts behind these pieces. -/
theorem toggled_append {ps : List Piece} (hps : ∀ p ∈ ps, chosen p.token = false)
    (qs : List Piece) : toggled chosen false (ps ++ qs) = joined ps ++ toggled chosen false qs := by
  induction ps with
  | nil => rfl
  | cons p ps ih =>
    obtain ⟨hp, hps⟩ := List.forall_mem_cons.1 hps
    simp [toggled, hp, ih hps]

/-- If no brace is chosen at all, nothing changes. -/
theorem toggled_self {ps : List Piece} (hps : ∀ p ∈ ps, chosen p.token = false) :
    toggled chosen false ps = joined ps := by
  have happend := toggled_append hps []
  rwa [List.append_nil, toggled, List.append_nil] at happend

/-- Up to the semicolon that is to be left out there are comments, and they stay. -/
theorem toggled_comments {cs : List Piece} (hcs : ∀ p ∈ cs, p.token.kind = .comment)
    {q : Piece} (hq : q.token.kind = .semicolon) (qs : List Piece) :
    toggled chosen true (cs ++ q :: qs) = joined cs ++ (q.gap ++ toggled chosen false qs) := by
  induction cs with
  | nil => simp [toggled, hq]
  | cons p cs ih =>
    obtain ⟨hp, hcs⟩ := List.forall_mem_cons.1 hcs
    simp [toggled, hp, ih hcs]

/-- A token of some pieces, before the end of the text, is that of one of them. -/
theorem exists_of_tokens {ps : List Piece} {x r : Token} {before after : List Token}
    (h : ps.map token ++ [x] = before ++ r :: after) (hr : r.kind ≠ x.kind) :
    ∃ qs p rs, ps = qs ++ p :: rs ∧ qs.map token = before ∧ p.token = r ∧
      after = rs.map token ++ [x] := by
  rcases List.append_eq_append_iff.1 h with ⟨as, rfl, has⟩ | ⟨as, has, hrest⟩
  · -- the token would be the last one
    cases as with
    | nil => exact absurd (congrArg Token.kind (List.cons.inj has).1).symm hr
    | cons a as => simp at has
  · cases as with
    | nil => exact absurd (congrArg Token.kind (List.cons.inj hrest).1) hr
    | cons a as =>
      obtain ⟨rfl, rfl⟩ := List.cons.inj hrest
      obtain ⟨qs, rs', rfl, rfl, hrs⟩ := List.map_eq_append_iff.1 has
      obtain ⟨p, rs, rfl, rfl, rfl⟩ := List.map_eq_cons_iff.1 hrs
      exact ⟨qs, p, rs, rfl, rfl, rfl, rfl⟩

end Piece

/-- The next token behind some pieces, comments aside, found in the list that ends with the end of
the text, is the one that `semicolonNext` looks at. -/
theorem Piece.find_token (ps : List Piece) {x : Token} (hx : x.kind = .eof) :
    ∃ s, (ps.map token ++ [x]).find? (·.kind != .comment) = some s ∧
      semicolonNext ps = (s.kind == .semicolon) ∧
      (s.kind = .semicolon → ∃ cs q qs, ps = cs ++ q :: qs ∧
        (∀ p ∈ cs, p.token.kind = .comment) ∧ q.token = s) := by
  rw [List.find?_append, semicolonNext]
  cases hfind : (ps.map token).find? (·.kind != .comment) with
  | none => exact ⟨x, by simp [hx], by simp [hx], by simp [hx]⟩
  | some s =>
    refine ⟨s, rfl, rfl, fun _ => ?_⟩
    obtain ⟨-, as, bs, hmap, has⟩ := List.find?_eq_some_iff_append.1 hfind
    obtain ⟨cs, rest, rfl, rfl, hrest⟩ := List.map_eq_append_iff.1 hmap
    obtain ⟨q, qs, rfl, rfl, -⟩ := List.map_eq_cons_iff.1 hrest
    refine ⟨cs, q, qs, rfl, fun p hp => ?_, rfl⟩
    simpa using has p.token (List.mem_map_of_mem hp)

/-- The case of one closing brace `r`: what stands behind it in the changed text, and that the
changed text is accepted with the same tree. -/
theorem exists_parse_toggled_one {source : String} {t : Document} (h : parse source = .ok t)
    {before after : List Token} {r : Token} (hts : tokenize source = .ok (before ++ r :: after))
    (hr : r.kind = .braceClose) :
    ∃ qs p rs d x, Cursor.Passes (Cursor.ofSource source) (qs ++ p :: rs) d ∧ p.token = r ∧
      after = rs.map Piece.token ++ [x] ∧ x.kind = .eof ∧
      (∀ q ∈ rs, q.token ≠ r) ∧
      ∃ t', parse (String.ofList (Piece.joined qs ++ (p.text ++
          ((if Piece.semicolonNext rs then Piece.toggled (· == r) true rs
            else ';' :: Piece.joined rs) ++ d.rest)))) = .ok t' ∧
        Document.sameTree t t' = true := by
  obtain ⟨ps, d, x, hps, hx, hpasses, hd⟩ := exists_passes_of_parse h
  obtain ⟨qs, p, rs, rfl, rfl, rfl, rfl⟩ :=
    Piece.exists_of_tokens (Except.ok.inj (hps.symm.trans hts)) (by simp [hr, hx])
  -- no other token stands where the brace stands
  have hpair := (Cursor.pairwise_start_stream (Cursor.ofSource source)).2
  rw [tokenize_eq_ok_iff.1 hts, List.pairwise_append, List.pairwise_cons] at hpair
  obtain ⟨-, ⟨hbehind, -⟩, hbefore⟩ := hpair
  have hqs : ∀ q ∈ qs, (q.token == p.token) = false := by
    intro q hq
    have hlt := hbefore q.token (List.mem_map_of_mem hq) p.token (by simp)
    rw [beq_eq_false_iff_ne]
    intro heq
    rw [heq] at hlt
    omega
  have hrs : ∀ q ∈ rs, q.token ≠ p.token := by
    intro q hq heq
    have hlt := hbehind q.token (by simp [List.mem_map_of_mem hq])
    rw [heq] at hlt
    omega
  have hself : Piece.toggled (· == p.token) false rs = Piece.joined rs :=
    Piece.toggled_self fun q hq => beq_eq_false_iff_ne.2 (hrs q hq)
  refine ⟨qs, p, rs, d, x, hpasses, rfl, rfl, hx, hrs, ?_⟩
  obtain ⟨hrets, -⟩ := hpasses.reterminates (· == p.token) hd
  obtain ⟨t', ht', hsame⟩ := parse_of_reterminates h hrets
  refine ⟨t', ?_, hsame⟩
  rw [← ht', Piece.toggled_append hqs, Piece.toggled_brace hr (by simp), hself, List.append_assoc,
    List.append_assoc]

section One

variable {source : String} {t : Document} {before after : List Token} {r s : Token}

/-- The semicolon `s` behind a closing brace, comments aside, may be deleted. -/
theorem exists_parse_delete (h : parse source = .ok t)
    (hts : tokenize source = .ok (before ++ r :: after)) (hr : r.kind = .braceClose)
    (hfind : after.find? (·.kind != .comment) = some s) (hs : s.kind = .semicolon) :
    ∃ front back t', source = front ++ ";" ++ back ∧ s.span.start = front.utf8ByteSize ∧
      parse (front ++ back) = .ok t' ∧ Document.sameTree t t' = true := by
  obtain ⟨qs, p, rs, d, x, hpasses, rfl, rfl, hx, hrs, t', ht', hsame⟩ :=
    exists_parse_toggled_one h hts hr
  obtain ⟨s', hfind', hsemi, hsplit⟩ := Piece.find_token rs hx
  obtain rfl : s' = s := Option.some.inj (hfind'.symm.trans hfind)
  obtain ⟨cs, q, ms, rfl, hcs, rfl⟩ := hsplit hs
  have hms : Piece.toggled (· == p.token) false ms = Piece.joined ms := by
    refine Piece.toggled_self fun m hm => beq_eq_false_iff_ne.2 (hrs m ?_)
    simp [hm]
  rw [hsemi, if_pos (beq_iff_eq.2 hs), Piece.toggled_comments hcs hs, hms] at ht'
  have hpieces : qs ++ p :: (cs ++ q :: ms) = (qs ++ p :: cs) ++ q :: ms := by simp
  rw [hpieces] at hpasses
  have htext := hpasses.text_eq hs (by decide)
  refine ⟨.ofList (Piece.joined (qs ++ p :: cs) ++ q.gap), .ofList (Piece.joined ms ++ d.rest), t',
    ?_, ?_, ?_, hsame⟩
  · have hsource : source.toList = Piece.joined ((qs ++ p :: cs) ++ q :: ms) ++ d.rest :=
      hpasses.rest_eq
    rw [← String.toList_inj, hsource]
    simp [Piece.text, htext, Kind.spelling]
  · rw [hpasses.span.1, ← Text.byteSize_toList, String.toList_ofList]
    exact Nat.zero_add _
  · rw [← ht', ← String.ofList_append]
    simp

/-- A closing brace `r` that no semicolon follows, comments aside, may get one. -/
theorem exists_parse_insert (h : parse source = .ok t)
    (hts : tokenize source = .ok (before ++ r :: after)) (hr : r.kind = .braceClose)
    (hfind : after.find? (·.kind != .comment) = some s) (hs : s.kind ≠ .semicolon) :
    ∃ front back t', source = front ++ back ∧ r.span.stop = front.utf8ByteSize ∧
      parse (front ++ ";" ++ back) = .ok t' ∧ Document.sameTree t t' = true := by
  obtain ⟨qs, p, rs, d, x, hpasses, rfl, rfl, hx, hrs, t', ht', hsame⟩ :=
    exists_parse_toggled_one h hts hr
  obtain ⟨s', hfind', hsemi, -⟩ := Piece.find_token rs hx
  obtain rfl : s' = s := Option.some.inj (hfind'.symm.trans hfind)
  rw [hsemi, if_neg (by simpa using hs)] at ht'
  refine ⟨.ofList (Piece.joined qs ++ p.text), .ofList (Piece.joined rs ++ d.rest), t',
    ?_, ?_, ?_, hsame⟩
  · have hsource : source.toList = Piece.joined (qs ++ p :: rs) ++ d.rest := hpasses.rest_eq
    rw [← String.toList_inj, hsource]
    simp
  · rw [hpasses.span.2, ← Text.byteSize_toList, String.toList_ofList]
    exact Nat.zero_add _
  · have htext : String.ofList (Piece.joined qs ++ p.text) ++ ";"
          ++ String.ofList (Piece.joined rs ++ d.rest)
        = String.ofList (Piece.joined qs ++ (p.text ++ (';' :: Piece.joined rs ++ d.rest))) := by
      rw [← String.toList_inj]
      simp
    rw [htext, ht']

end One

/-- In an accepted source the semicolon behind a closing brace says nothing.  If the next token
behind a closing brace, comments aside, is a semicolon, then the source without it is accepted with
the same tree; otherwise the source with a semicolon right behind the brace is.  The same goes for
any set of closing braces, all of them changed at once by `Piece.toggled`. -/
theorem semicolons_say_nothing {source : String} {t : Document} (h : parse source = .ok t) :
    (∀ before r after, tokenize source = .ok (before ++ r :: after) → r.kind = .braceClose →
      ∃ s, after.find? (·.kind != .comment) = some s ∧
        if s.kind = .semicolon then
          ∃ front back t', source = front ++ ";" ++ back ∧ s.span.start = front.utf8ByteSize ∧
            parse (front ++ back) = .ok t' ∧ Document.sameTree t t' = true
        else
          ∃ front back t', source = front ++ back ∧ r.span.stop = front.utf8ByteSize ∧
            parse (front ++ ";" ++ back) = .ok t' ∧ Document.sameTree t t' = true) ∧
    ∃ ps last x, source.toList = Piece.joined ps ++ last ∧
      tokenize source = .ok (ps.map Piece.token ++ [x]) ∧
      ∀ chosen : Token → Bool, ∃ t',
        parse (String.ofList (Piece.toggled chosen false ps ++ last)) = .ok t' ∧
          Document.sameTree t t' = true := by
  constructor
  · intro before r after hts hr
    obtain ⟨qs, p, rs, d, x, -, -, rfl, hx, -⟩ := exists_parse_toggled_one h hts hr
    obtain ⟨s, hfind, -⟩ := Piece.find_token rs hx
    refine ⟨s, hfind, ?_⟩
    split
    · rename_i hs
      exact exists_parse_delete h hts hr hfind hs
    · rename_i hs
      exact exists_parse_insert h hts hr hfind hs
  · obtain ⟨ps, d, x, hps, -, hpasses, hd⟩ := exists_passes_of_parse h
    refine ⟨ps, d.rest, x, hpasses.rest_eq, hps, fun chosen => ?_⟩
    exact parse_of_reterminates h (hpasses.reterminates chosen hd).1

/-- A source with a comment between a closing brace and its semicolon, and two closing braces
without one. -/
def nestedBraces : String :=
  "mod m \x7b env e \x7b gx.vars \x7b \x7d # c\n; \x7d \x7d"

theorem semicolons_say_nothing_nestedBraces :
    ∃ t, parse nestedBraces = .ok t ∧
      (∃ front back t', nestedBraces = front ++ ";" ++ back ∧ front.utf8ByteSize = 32 ∧
        parse (front ++ back) = .ok t' ∧ Document.sameTree t t' = true) ∧
      ∃ front back t', nestedBraces = front ++ back ∧ front.utf8ByteSize = 35 ∧
        parse (front ++ ";" ++ back) = .ok t' ∧ Document.sameTree t t' = true := by
  have hok : (parse nestedBraces).toBool = true := by decide +kernel
  have hts : tokenize nestedBraces
      = .ok ([⟨.ident, "mod", ⟨0, 3, 1, 1⟩⟩, ⟨.ident, "m", ⟨4, 5, 1, 5⟩⟩,
        ⟨.braceOpen, "\x7b", ⟨6, 7, 1, 7⟩⟩, ⟨.ident, "env", ⟨8, 11, 1, 9⟩⟩,
        ⟨.ident, "e", ⟨12, 13, 1, 13⟩⟩, ⟨.braceOpen, "\x7b", ⟨14, 15, 1, 15⟩⟩,
        ⟨.ident, "gx", ⟨16, 18, 1, 17⟩⟩, ⟨.dot, ".", ⟨18, 19, 1, 19⟩⟩,
        ⟨.ident, "vars", ⟨19, 23, 1, 20⟩⟩, ⟨.braceOpen, "\x7b", ⟨24, 25, 1, 25⟩⟩]
        ++ ⟨.braceClose, "\x7d", ⟨26, 27, 1, 27⟩⟩ :: ([⟨.comment, "# c", ⟨28, 31, 1, 29⟩⟩,
        ⟨.semicolon, ";", ⟨32, 33, 2, 1⟩⟩] ++ ⟨.braceClose, "\x7d", ⟨34, 35, 2, 3⟩⟩ ::
        [⟨.braceClose, "\x7d", ⟨36, 37, 2, 5⟩⟩, ⟨.eof, "", ⟨37, 37, 2, 6⟩⟩])) := by
    decide +kernel
  cases h : parse nestedBraces with
  | error e =>
    rw [h] at hok
    simp [Except.toBool] at hok
  | ok t =>
    have hone := (semicolons_say_nothing h).1
    obtain ⟨s, hs, hdelete⟩ := hone _ _ _ hts rfl
    obtain rfl := Option.some.inj hs
    rw [← List.cons_append, ← List.append_assoc] at hts
    obtain ⟨s, hs, hinsert⟩ := hone _ _ _ hts rfl
    obtain rfl := Option.some.inj hs
    obtain ⟨front, back, t', hfront, hplace, hdelete⟩ := hdelete
    obtain ⟨front', back', t'', hfront', hplace', hinsert⟩ := hinsert
    exact ⟨t, rfl, ⟨front, back, t', hfront, hplace.symm, hdelete⟩,
      front', back', t'', hfront', hplace'.symm, hinsert⟩

end Gxl
