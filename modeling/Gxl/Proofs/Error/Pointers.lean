import Gxl.Error.Report
import Gxl.Proofs.Grammar.Eager
import Gxl.Proofs.Token.Joined

/-!
# Where a report points

The report of an error shows a line of the source and a caret below it.  The line is looked up by
its number among the lines of the source, and the caret is moved by the column; number and column
come from the reading of the tokens.  The report points at the fault nevertheless
(`render_points_at_fault`): the line is the one around the fault, and the caret stands below the
character that is found there.

Two facts make it so.  The line with the number of a place is the line around it, whatever the
endings of the lines are (`Text.lines_around`).  And an error lies at the end of the source or at a
character that is no blank (`exists_place_of_error`), so the carriage return that an ending takes
from a line is never before the caret.
-/

namespace Gxl

/-! ## The line around a place -/

namespace Text

/-- The line of a text around a place: what stands behind the last line feed before the place, and
up to the next one behind it.  A carriage return right before that next line feed belongs to the
ending of the line. -/
def lineAround (front back : List Char) : List Char :=
  let line := lastLine front ++ back.takeWhile (· != '\n')
  if '\n' ∈ back ∧ line.getLast? = some '\r' then line.dropLast else line

/-- Up to a line feed that is not there, `takeWhile` takes the whole text. -/
theorem takeWhile_of_not_mem {cs : List Char} (h : '\n' ∉ cs) : cs.takeWhile (· != '\n') = cs := by
  have hcs : ∀ c ∈ cs, (c != '\n') = true := by
    intro c hc
    rw [bne_iff_ne]
    rintro rfl
    exact h hc
  exact (Lexeme.takeWhile_dropWhile_self _ hcs).1

/-- A text without a line feed is its own `lastLine`. -/
theorem lastLine_of_not_mem {cs : List Char} (h : '\n' ∉ cs) : lastLine cs = cs := by
  rw [lastLine, takeWhile_of_not_mem (mt List.mem_reverse.1 h), List.reverse_reverse]

/-- The last line of a text is that of what stands behind a line feed. -/
theorem lastLine_behind (cs ds : List Char) : lastLine (cs ++ '\n' :: ds) = lastLine ds := by
  have hsplit := Lexeme.takeWhile_dropWhile_stop (p := (· != '\n')) (c := '\n') (by simp)
    ds.reverse cs.reverse
  rw [lastLine, List.reverse_append, List.reverse_cons, List.append_assoc, List.singleton_append,
    hsplit.1, lastLine]

/-- In the order of the text, `chomp` drops a carriage return at the end of a line. -/
theorem reverse_chomp (line : List Char) :
    (chomp line.reverse).reverse = if line.getLast? = some '\r' then line.dropLast else line := by
  rcases List.eq_nil_or_concat line with rfl | ⟨front, c, rfl⟩
  · rfl
  · by_cases hc : c = '\r'
    · simp [chomp, hc]
    · simp [chomp, hc]

/-- The first of the lines of a text, of which `line` has been read before. -/
theorem head_linesAfter (line back : List Char) :
    ((linesAfter line back)[0]?).getD [] =
      if '\n' ∈ back then (chomp ((back.takeWhile (· != '\n')).reverse ++ line)).reverse
      else line.reverse ++ back := by
  induction back generalizing line with
  | nil =>
    cases line with
    | nil => rfl
    | cons c line => simp [linesAfter]
  | cons c back ih =>
    by_cases hc : c = '\n'
    · simp [linesAfter, hc]
    · have hback : '\n' ∈ c :: back ↔ '\n' ∈ back := by simp [Ne.symm hc]
      rw [linesAfter, if_neg hc, ih]
      simp [hback, hc]

/-- The lines of a text, of which `line` has been read before, hold the line around a place at the
number of line feeds before it. -/
theorem linesAfter_around {line : List Char} (hline : '\n' ∉ line) (front back : List Char) :
    ((linesAfter line (front ++ back))[front.count '\n']?).getD []
      = lineAround (line.reverse ++ front) back := by
  induction front generalizing line with
  | nil =>
    have hlast : lastLine (line.reverse ++ []) = line.reverse := by
      rw [List.append_nil]
      exact lastLine_of_not_mem (by simpa using hline)
    have hreverse : (back.takeWhile (· != '\n')).reverse ++ line
        = (line.reverse ++ back.takeWhile (· != '\n')).reverse := by simp
    rw [List.nil_append, List.count_nil, head_linesAfter, lineAround, hlast]
    by_cases hback : '\n' ∈ back
    · simp only [hback, if_true, hreverse, reverse_chomp, true_and]
    · simp [hback, takeWhile_of_not_mem hback]
  | cons c front ih =>
    rw [List.cons_append, linesAfter]
    by_cases hc : c = '\n'
    · have hnext := @ih [] (by simp)
      rw [List.reverse_nil, List.nil_append] at hnext
      rw [if_pos hc, hc, List.count_cons_self, List.getElem?_cons_succ, hnext, lineAround,
        lineAround, lastLine_behind]
    · have hnext := @ih (c :: line) (by simp [Ne.symm hc, hline])
      rw [List.reverse_cons, List.append_assoc, List.singleton_append] at hnext
      rw [if_neg hc, List.count_cons_of_ne hc, hnext]

/-- The line of a text with the number of a place is the `lineAround` it. -/
theorem lines_around (front back : List Char) :
    ((lines (front ++ back))[front.count '\n']?).getD [] = lineAround front back :=
  linesAfter_around (by simp) front back

/-- Behind a line feed at the end of a text there is no line: `lineAround` is empty. -/
theorem lineAround_end {front : List Char} (h : front.getLast? = some '\n' ∨ front = []) :
    lineAround front [] = [] := by
  rcases h with h | rfl
  · obtain ⟨front, rfl⟩ := List.getLast?_eq_some_iff.1 h
    rw [lineAround, lastLine_behind]
    rfl
  · rfl

/-- What a report can point at: the end of a text, or a character that is no blank (`isBlank`). -/
inductive Pointed : Bool → List Char → Prop where
  | atEnd : Pointed true []
  | character {c : Char} (hc : isBlank c = false) (tail : List Char) : Pointed false (c :: tail)

/-- The line around a place that a report can point at goes on, behind the `lastLine` of what stands
before the place, with the character that is found there. -/
theorem lineAround_pointed {atEnd : Bool} {back : List Char} (h : Pointed atEnd back)
    (front : List Char) :
    ∃ more, lineAround front back = lastLine front ++ more ∧ more.head? = back.head? := by
  cases h with
  | atEnd => exact ⟨[], by simp [lineAround], rfl⟩
  | @character c hc tail =>
    have hline : c ≠ '\n' := by
      rintro rfl
      simp [isBlank] at hc
    have hreturn : c ≠ '\r' := by
      rintro rfl
      simp [isBlank] at hc
    rw [lineAround, List.takeWhile_cons_of_pos (by simpa using hline)]
    rcases List.eq_nil_or_concat (tail.takeWhile (· != '\n')) with hnil | ⟨body, d, hbody⟩
    · -- the character is the last of its line, and no carriage return
      rw [hnil, if_neg (by simp [hreturn])]
      exact ⟨[c], rfl, rfl⟩
    · rw [hbody, List.concat_eq_append]
      split
      · refine ⟨c :: body, ?_, rfl⟩
        rw [← List.cons_append, ← List.append_assoc, List.dropLast_concat]
      · exact ⟨c :: (body ++ [d]), rfl, rfl⟩

end Text

/-! ## The place of an error -/

/-- Whether an error is about the end of the text, so that nothing is found there. -/
def Error.atEnd : Error → Bool
  | .parse e => e.found == .eof
  | .lex _ => false

/-- A token starts at a place of the source that a report can point at (`Pointed`). -/
theorem exists_place_of_token {source : String} {t : Token}
    (h : t ∈ (Cursor.ofSource source).stream.1) :
    ∃ front back, source.toList = front ++ back ∧ t.span.startPosition.Marks front ∧
      Text.Pointed (t.kind == .eof) back := by
  obtain ⟨before, after, hsplit⟩ := List.append_of_mem h
  obtain ⟨d, hrun, hstream⟩ := Cursor.exists_run hsplit
  obtain ⟨d', hnext, -, -⟩ := Cursor.next_of_stream hstream
  obtain ⟨ps, -, hrest, hposition, -⟩ := hrun.pieces
  have hsource : source.toList = Piece.joined ps ++ d.rest := hrest
  have hmarks : ∀ gap stop, t.span = .between (d.position.after gap) stop →
      t.span.startPosition.Marks (Piece.joined ps ++ gap) := by
    intro gap stop hspan
    rw [hposition, ← Position.after_append] at hspan
    rw [hspan]
    exact Position.marks_after_start _
  by_cases heof : t.kind = .eof
  · obtain ⟨gap, -, hgap, -, hspan, hnil, -⟩ := Cursor.next_ok hnext
    obtain ⟨htext, hnil⟩ := hnil heof
    rw [htext, hnil] at hgap
    refine ⟨Piece.joined ps ++ gap, [], by simp [hsource, hgap], hmarks gap _ hspan, ?_⟩
    rw [beq_iff_eq.2 heof]
    exact .atEnd
  · obtain ⟨gap, -, ⟨-, hkind, -⟩ | ⟨kind, lexeme, rest, -, hgap, hscan, rfl, -⟩⟩ :=
      Cursor.next_cases hnext
    · exact absurd hkind heof
    · refine ⟨Piece.joined ps ++ gap, lexeme ++ rest, by simp [hsource, hgap],
        hmarks gap _ rfl, ?_⟩
      rw [beq_eq_false_iff_ne.2 heof]
      obtain ⟨c, body, rfl⟩ := List.exists_cons_of_ne_nil (Lexeme.scan_ne_nil hscan)
      refine .character ?_ _
      -- no token starts with a blank
      rw [Bool.eq_false_iff]
      intro hc
      rw [List.cons_append, Lexeme.scan_blank d.afterDot _ hc] at hscan
      simp at hscan

/-- A fault of the characters lies at a character that is no blank, where a report can point. -/
theorem exists_place_of_fault {source : String} {e : LexError} (h : tokenize source = .error e) :
    ∃ front back, source.toList = front ++ back ∧ e.position.Marks front ∧
      Text.Pointed false back := by
  have hfault := lexFault_of_tokenize h
  obtain ⟨ts, d, hrun, ⟨x, d', -, -, hstream⟩ | ⟨e', d', hnext, hstream⟩⟩ :=
    (Cursor.ofSource source).exists_run_end
  · simp [lexFault, hstream] at hfault
  · obtain rfl : e' = e := by simpa [lexFault, hstream] using hfault
    obtain ⟨ps, -, hrest, hposition, -⟩ := hrun.pieces
    obtain ⟨gap, rest, -, hgap, hplace, hcause⟩ := Cursor.next_error hnext
    have hsource : source.toList = Piece.joined ps ++ d.rest := hrest
    refine ⟨Piece.joined ps ++ gap, rest, by simp [hsource, hgap], ?_, ?_⟩
    · rw [hplace, hposition, ← Position.after_append]
      exact Position.marks_after_start _
    · obtain ⟨cause, position⟩ := e'
      cases cause with
      | unterminatedString =>
        obtain ⟨body, rfl, -⟩ := hcause
        exact .character (by decide) body
      | unexpectedChar c =>
        obtain ⟨tail, rfl, hc, -⟩ := hcause
        exact .character hc tail

/-- The errors that reading a source can give: those of `parse`, and those of `tokenize`. -/
def Error.IsOf (e : Error) (source : String) : Prop :=
  Gxl.parse source = .error e ∨ ∃ l, tokenize source = .error l ∧ e = .lex l

/-- An error lies at the end of the source or at a character that is no blank, as `Error.atEnd`
tells. -/
theorem exists_place_of_error {source : String} {e : Error} (h : e.IsOf source) :
    ∃ front back, source.toList = front ++ back ∧ e.position.Marks front ∧
      Text.Pointed e.atEnd back := by
  rcases h with h | ⟨l, hl, rfl⟩
  · cases e with
    | lex l => exact exists_place_of_fault (tokenize_of_lex_error h)
    | parse p =>
      obtain ⟨x, hx, hkind, -, hplace⟩ := exists_token_of_error h
      have hplaced := exists_place_of_token (List.mem_filter.1 hx).1
      rwa [hkind, hplace] at hplaced
  · exact exists_place_of_fault hl

/-! ## The report -/

/-- The lines of a report about an error, around the line of the source that it shows, `line`, and
around what stands before the caret, `pad`. -/
def Error.reportOn (e : Error) (file : String) (line pad : List Char) : String :=
  let number := toString e.position.line
  let margin := String.ofList (List.replicate number.length ' ')
  "error: " ++ e.message ++ "\n"
    ++ margin ++ "--> " ++ file ++ ":" ++ number ++ ":" ++ toString e.position.column ++ "\n"
    ++ margin ++ " |\n"
    ++ number ++ " | " ++ String.ofList line ++ "\n"
    ++ margin ++ " | " ++ String.ofList pad ++ "^\n"
    ++ e.expectedLine margin

/-- The report of an error shows the line of the source around the place of the error and points at
the character there.  Before the caret stands one character for each of the line before the place,
a tab below a tab and a space below anything else; and the caret stands below the character that is
found at the place, unless the error is about the end of the text.  The line and the column of the
place are at most one beyond its offset, so in a source of fewer than `2 ^ 32 - 1` bytes they fit
into 32 bits. -/
theorem render_points_at_fault {source : String} {e : Error} (h : e.IsOf source) (file : String) :
    ∃ front back pad,
      source.toList = front ++ back ∧ e.position.offset = Text.byteSize front ∧
      (e.position.offset ≤ source.utf8ByteSize ∧ e.position.line ≤ e.position.offset + 1 ∧
        e.position.column ≤ e.position.offset + 1) ∧
      e.render source file = e.reportOn file (Text.lineAround front back) pad ∧
      pad.length = e.position.column - 1 ∧
      (∀ i < e.position.column - 1, ∃ c, (Text.lineAround front back)[i]? = some c ∧
        pad[i]? = some (if c = '\t' then '\t' else ' ')) ∧
      (e.atEnd = false → ∃ c, back.head? = some c ∧
        (Text.lineAround front back)[e.position.column - 1]? = some c) ∧
      (back = [] → front.getLast? = some '\n' ∨ front = [] →
        Text.lineAround front back = []) := by
  obtain ⟨front, back, hsource, hmarks, hpointed⟩ := exists_place_of_error h
  have hbytes : e.position.offset ≤ source.utf8ByteSize := by
    rw [hmarks.offset, ← Text.byteSize_toList, hsource, Text.byteSize_append]
    exact Nat.le_add_right _ _
  have hcounters := hmarks.le
  obtain ⟨hoffset, hline, hcolumn⟩ := hmarks
  obtain ⟨more, haround, hmore⟩ := Text.lineAround_pointed hpointed front
  have hshown : e.sourceLine source = Text.lineAround front back := by
    rw [Error.sourceLine, hsource, hline, Nat.add_sub_cancel_left, Text.lines_around]
  have hbefore : e.position.column - 1 = (Text.lastLine front).length := by
    rw [hcolumn, Nat.add_sub_cancel_left]
  have hpad : e.padding source
      = (Text.lastLine front).map fun c => if c = '\t' then '\t' else ' ' := by
    rw [Error.padding, hshown, haround, hbefore, List.take_left]
  have hrender : e.render source file
      = e.reportOn file (e.sourceLine source) (e.padding source) := rfl
  refine ⟨front, back, e.padding source, hsource, hoffset, ⟨hbytes, hcounters⟩, ?_, ?_, ?_, ?_, ?_⟩
  · rw [hrender, hshown]
  · rw [hpad, hbefore, List.length_map]
  · intro i hi
    rw [hbefore] at hi
    refine ⟨(Text.lastLine front)[i], ?_, ?_⟩
    · rw [haround, List.getElem?_append_left hi, List.getElem?_eq_getElem hi]
    · rw [hpad, List.getElem?_map, List.getElem?_eq_getElem hi]
      rfl
  · intro hend
    rw [hend] at hpointed
    cases hpointed with
    | @character c hc tail =>
      refine ⟨c, rfl, ?_⟩
      rw [haround, hbefore, List.getElem?_append_right (Nat.le_refl _), Nat.sub_self,
        ← List.head?_eq_getElem?, hmore]
      rfl
  · rintro rfl hlast
    exact Text.lineAround_end hlast

/-- A source with endings of two characters, a tab, a character of two bytes, and a word too many
behind it. -/
def strayWord : String :=
  "mod m \x7b\r\n\tx = \"é\" y;\r\n\x7d"

theorem render_points_at_strayWord :
    ∃ e : Error, e.IsOf strayWord ∧ e.position = ⟨19, 2, 10⟩ ∧ e.atEnd = false ∧
      ∃ front back pad, strayWord.toList = front ++ back ∧ Text.byteSize front = 19 ∧
        e.render strayWord "f" = e.reportOn "f" (Text.lineAround front back) pad ∧
        pad.length = 9 ∧ back.head? = (Text.lineAround front back)[9]? := by
  have h : parse strayWord = .error (.parse (.ofToken ⟨.ident, "y", ⟨19, 20, 2, 10⟩⟩
      [.token .semicolon])) := by
    decide +kernel
  obtain ⟨front, back, pad, hsource, hoffset, -, hrender, hpad, -, hcaret, -⟩ :=
    render_points_at_fault (.inl h) "f"
  obtain ⟨c, hback, hline⟩ := hcaret rfl
  exact ⟨_, .inl h, rfl, rfl, front, back, pad, hsource, hoffset.symm, hrender, hpad,
    hback.trans hline.symm⟩

end Gxl
