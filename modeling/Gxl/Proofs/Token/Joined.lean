import Gxl.Proofs.Token.Extras

/-!
# Texts joined by a line feed

Two texts are put one behind the other with a line feed between them.  The tokens of the first are
read as before, and those of the second as before but further down (`significant_join`).

A line feed ends every token: no word, number, comment or string literal that is complete goes on
behind it (`Lexeme.scan_join`).  Only the test for a call looks further, so the second text must not
start with an opening parenthesis; and the first must not end with a dot.  Where a text stands
shows in the places of its tokens and nowhere else (`Cursor.stream_shift`).
-/

namespace Gxl

/-! ## Moving places -/

section Shift

variable (bytes lines : Nat)

/-- The position `p`, `bytes` further on and `lines` further down. -/
def Position.shift (p : Position) : Position :=
  ⟨p.offset + bytes, p.line + lines, p.column⟩

/-- The span `s`, `bytes` further on and `lines` further down. -/
def Span.shift (s : Span) : Span :=
  ⟨s.start + bytes, s.stop + bytes, s.line + lines, s.column⟩

/-- The token `t`, `bytes` further on and `lines` further down. -/
def Token.shift (t : Token) : Token :=
  { t with span := t.span.shift bytes lines }

/-- The cursor `c`, `bytes` further on and `lines` further down, with the same text to read. -/
def Cursor.shift (c : Cursor) : Cursor :=
  { c with position := c.position.shift bytes lines }

/-- Passing a character commutes with `shift`: columns are counted from the line they are on. -/
theorem Position.step_shift (p : Position) (c : Char) :
    (p.shift bytes lines).step c = (p.step c).shift bytes lines := by
  unfold step shift
  split <;> simp only [Position.mk.injEq, and_true] <;> omega

/-- Passing a text commutes with `shift`, character by character. -/
theorem Position.after_shift (p : Position) (cs : List Char) :
    (p.shift bytes lines).after cs = (p.after cs).shift bytes lines := by
  induction cs generalizing p with
  | nil => rfl
  | cons c cs ih => rw [after_cons, after_cons, step_shift, ih]

namespace Cursor

/-- The step `next` of a shifted cursor hands out the shifted token. -/
theorem next_shift {c c' : Cursor} {t : Token} (h : c.next = (.ok t, c')) :
    (c.shift bytes lines).next = (.ok (t.shift bytes lines), c'.shift bytes lines) := by
  have hskip : (c.shift bytes lines).skipBlanks = c.skipBlanks.shift bytes lines := by
    simp only [skipBlanks, shift, Position.after_shift]
  unfold next at h ⊢
  rw [hskip]
  generalize c.skipBlanks = d at h
  obtain ⟨hnil, rfl, rfl⟩ | ⟨kind, lexeme, rest, hscan, -, rfl, rfl⟩ := read_cases h
  · have hscan : Lexeme.scan d.afterDot d.rest = .done := by
      rw [hnil]
      rfl
    simp only [read, shift, hscan]
    rfl
  · simp only [read, shift, hscan, behind, Position.after_shift]
    rfl

/-- The `stream` of a text that stands further on is that of the text, further on. -/
theorem stream_shift {c : Cursor} (h : c.stream.2 = none) :
    (c.shift bytes lines).stream = (c.stream.1.map (Token.shift bytes lines), none) := by
  fun_induction stream c with
  | case1 => simp at h
  | case2 c t c' hnext ht => exact stream_of_eof (next_shift bytes lines hnext) ht
  | case3 c t c' hnext ht _ ih =>
    rw [stream_of_token (next_shift bytes lines hnext) ht, ih h]
    rfl

end Cursor

end Shift

/-! ## Lexemes before a line feed -/

namespace Lexeme

variable {afterDot : Bool} {lexeme rest tail : List Char} {kind : Kind}

/-- A test that fails at `c` stops `takeWhile` and `dropWhile` there, whatever follows. -/
theorem takeWhile_dropWhile_stop {p : Char → Bool} {c : Char} (hc : p c = false)
    (cs tail : List Char) :
    (cs ++ c :: tail).takeWhile p = cs.takeWhile p ∧
      (cs ++ c :: tail).dropWhile p = cs.dropWhile p ++ c :: tail := by
  induction cs with
  | nil => simp [hc]
  | cons d cs ih =>
    rw [List.cons_append, List.takeWhile_cons, List.dropWhile_cons, List.takeWhile_cons,
      List.dropWhile_cons]
    split
    · exact ⟨congrArg (d :: ·) ih.1, ih.2⟩
    · exact ⟨rfl, rfl⟩

/-- A line feed lengthens no word and no number: what starts with one satisfies `Ends`. -/
theorem ends_newline (tail : List Char) : Ends ('\n' :: tail) :=
  ends_cons.2 (by decide)

/-- If `opensCall` finds no parenthesis in `tail`, it says of a text before it what it says of the
text alone. -/
theorem opensCall_join (htail : opensCall false tail = false) (inComment : Bool)
    (cs : List Char) : opensCall inComment (cs ++ '\n' :: tail) = opensCall inComment cs := by
  induction cs generalizing inComment with
  | nil => cases inComment <;> exact htail
  | cons c cs ih =>
    have hhead : ((cs ++ '\n' :: tail).head? != some '[') = (cs.head? != some '[') := by
      cases cs <;> rfl
    rw [List.cons_append, opensCall, opensCall, hhead]
    simp only [ih]

/-- Nor does `builtinTail` change when the text goes on behind a line feed with such a `tail`. -/
theorem builtinTail_join (htail : opensCall false tail = false) (cs : List Char) :
    builtinTail (cs ++ '\n' :: tail)
      = (builtinTail cs).map fun (word, rest) => (word, rest ++ '\n' :: tail) := by
  cases cs with
  | nil => rfl
  | cons c cs =>
    by_cases hc : c = '.'
    · subst hc
      obtain ⟨htake, hdrop⟩ :=
        takeWhile_dropWhile_stop (p := isWordChar) (c := '\n') (by decide) cs tail
      simp only [List.cons_append, builtinTail, htake, hdrop, opensCall_join htail]
      split <;> rfl
    · simp [builtinTail, hc]

/-- The scanner `scan` finds the same token when the text goes on behind a line feed, unless it goes
on with an opening parenthesis. -/
theorem scan_join (htail : opensCall false tail = false)
    (hscan : scan afterDot (lexeme ++ rest) = .token kind lexeme rest) :
    scan afterDot (lexeme ++ (rest ++ '\n' :: tail))
      = .token kind lexeme (rest ++ '\n' :: tail) := by
  have hhead : ∀ {p : Char → Bool}, (∀ c ∈ rest.head?, p c = false) → p '\n' = false →
      ∀ c ∈ (rest ++ '\n' :: tail).head?, p c = false := by
    intro p hrest hline
    cases rest with
    | nil => simpa using hline
    | cons c rest => exact hrest
  by_cases hkind : kind = .comment
  · subst hkind
    obtain ⟨body, rfl, hbody, hopen, hline⟩ := scan_comment_cases hscan
    refine scan_comment afterDot hbody ?_ ?_
    · rw [← List.append_assoc]
      cases hall : body ++ rest with
      | nil => simp
      | cons c cs => rwa [hall] at hopen
    · cases rest with
      | nil => simp
      | cons c rest => exact hline
  have hgenuine := genuine_of_scan hscan hkind
  by_cases hspelling : kind.spelling = ""
  · -- a kind whose text is not fixed
    cases kind with
    | ident =>
      obtain ⟨hword, hlongest, hgx⟩ := scan_ident_cases hscan
      refine scan_word hword (hhead hlongest (by decide)) (hgx.imp_right (Or.imp_right ?_))
      intro hnone
      rw [builtinTail_join htail, hnone]
      rfl
    | str =>
      have hquoted : isQuoted lexeme = true := by
        simpa [Symbol.genuine] using hgenuine
      exact scan_quoted afterDot _ hquoted
    | number =>
      obtain ⟨c, digits, rfl, hc, hnumber⟩ := scan_number_cases hscan
      have hfraction : offersFraction (rest ++ '\n' :: tail) = true →
          offersFraction rest = true := by
        have hinsert : offersFraction (rest ++ ('\n' :: tail ++ [])) = true →
            offersFraction (rest ++ []) = true := offersFraction_insert (ends_newline tail)
        simpa using hinsert
      have hnumber' := number_congr_rest hnumber
        (hhead (head_of_number hnumber) (by decide)) hfraction
      rw [List.cons_append] at hnumber' ⊢
      rw [scan_isDigit afterDot _ hc, hnumber']
    | builtin =>
      obtain ⟨rfl, w, rfl, htext, hword, hlongest, hnames, hopens⟩ := scan_builtin_iff.1 hscan
      refine scan_builtin_iff.2 ⟨rfl, w, rfl, rfl, hword, hhead hlongest (by decide), hnames, ?_⟩
      rw [← opensCall_iff, opensCall_join htail]
      exact opensCall_iff.2 hopens
    | comment => exact absurd rfl hkind
    | eof => simp [Symbol.genuine] at hgenuine
    | _ => simp [Kind.spelling] at hspelling
  · have hsign := Symbol.eq_sign_of_genuine hgenuine hspelling
    obtain rfl : lexeme = kind.spelling.toList := by
      simpa [Symbol.sign] using congrArg (fun s => s.text.toList) hsign
    exact scan_sign afterDot _ hspelling

end Lexeme

/-! ## The tokens of two texts -/

/-- Behind a text and a line feed the position is `start`, shifted by the size of both and the lines
they take. -/
theorem Position.after_line (cs : List Char) :
    start.after (cs ++ ['\n']) = start.shift (Text.byteSize cs + 1) (cs.count '\n' + 1) := by
  have hmarks := marks_after_start cs
  have hstep : (start.after cs).step '\n'
      = ⟨(start.after cs).offset + 1, (start.after cs).line + 1, 1⟩ := rfl
  rw [after_append, after_cons, after_nil, hstep, hmarks.offset, hmarks.line, shift, start,
    Nat.zero_add, Nat.add_assoc]

namespace Cursor

/-- The cursor `c` when its text goes on behind a line feed with `tail`. -/
def join (c : Cursor) (tail : List Char) : Cursor :=
  { c with rest := c.rest ++ '\n' :: tail }

/-- The step `next` skips a `gap` of blanks. -/
theorem next_blanks {gap : List Char} (hgap : ∀ ch ∈ gap, Text.isBlank ch = true)
    (cs : List Char) (p : Position) (afterDot : Bool) :
    next ⟨gap ++ cs, p, afterDot⟩ = next ⟨cs, p.after gap, afterDot⟩ := by
  induction gap generalizing p with
  | nil => rfl
  | cons c gap ih =>
    obtain ⟨hc, hgap⟩ := List.forall_mem_cons.1 hgap
    rw [List.cons_append, next_blank hc, ih hgap, Position.after_cons]

variable {tail : List Char}

/-- Before the end of its text, a cursor answers `next` as it does when its text goes on, unless
that opens a call. -/
theorem next_join (htail : Lexeme.opensCall false tail = false) {c c' : Cursor} {t : Token}
    (h : c.next = (.ok t, c')) (ht : t.kind ≠ .eof) :
    (c.join tail).next = (.ok t, c'.join tail) := by
  obtain ⟨gap, hgap, ⟨-, heof, -⟩ | ⟨kind, lexeme, rest, -, hrest, hscan, rfl, rfl⟩⟩ :=
    next_cases h
  · exact absurd heof ht
  · have hscan' := Lexeme.scan_join htail hscan
    rw [join, hrest, List.append_assoc, List.append_assoc, next_blanks hgap, next_of_scan hscan',
      Position.after_append]
    rfl

/-- A `Run` is one also when the text goes on behind a line feed, unless that opens a call. -/
theorem Run.join (htail : Lexeme.opensCall false tail = false) {c d : Cursor} {ts : List Token}
    (h : Run c ts d) : Run (c.join tail) ts (d.join tail) := by
  induction h with
  | nil c => exact .nil _
  | cons h ht _ ih => exact .cons (next_join htail h ht) ht ih

/-- Behind the last token of a text that goes on, the `stream` is that of `tail` on a new line. -/
theorem stream_join_of_eof {d d' : Cursor} {x : Token} (h : d.next = (.ok x, d'))
    (hx : x.kind = .eof) (tail : List Char) :
    (d.join tail).stream
      = stream ⟨tail, d.position.after (d.rest ++ ['\n']), d.afterDot⟩ := by
  obtain ⟨gap, hgap, ⟨hrest, -, -⟩ | ⟨kind, lexeme, rest, hkind, -, -, rfl, -⟩⟩ := next_cases h
  · have hblanks : ∀ ch ∈ gap ++ ['\n'], Text.isBlank ch = true := by
      refine List.forall_mem_append.2 ⟨hgap, ?_⟩
      simp [Text.isBlank]
    have htext : d.join tail = ⟨gap ++ ['\n'] ++ tail, d.position, d.afterDot⟩ := by
      simp [join, hrest]
    rw [stream_congr (d := ⟨tail, d.position.after (gap ++ ['\n']), d.afterDot⟩), hrest]
    rw [htext, next_blanks hblanks]
  · exact absurd hx hkind

end Cursor

/-- The `significant` tokens of two sources joined by a line feed: those of the first without its
end, and those of the second further on, if the first does not end with a dot and the second does
not start with an opening parenthesis. -/
theorem significant_join {a b : String} {code : List Token} {x : Token}
    (ha : (Cursor.ofSource a).stream.2 = none)
    (hcode : (Cursor.ofSource a).significant = code ++ [x])
    (hdot : ∀ t ∈ code.getLast?, t.kind ≠ .dot)
    (hb : (Cursor.ofSource b).stream.2 = none)
    (hopens : Lexeme.opensCall false b.toList = false) :
    (Cursor.ofSource (a ++ "\n" ++ b)).stream.2 = none ∧
      (Cursor.ofSource (a ++ "\n" ++ b)).significant
        = code ++ (Cursor.ofSource b).significant.map
          (Token.shift (a.utf8ByteSize + 1) (a.toList.count '\n' + 1)) := by
  obtain ⟨ts, d, hrun, ⟨y, d', hnext, hy, hstream⟩ | ⟨e, d', -, hstream⟩⟩ :=
    (Cursor.ofSource a).exists_run_end
  · -- the run over the first source goes on over the second
    have hsplit : ts.filter (·.kind != .comment) = code := by
      rw [Cursor.significant, hstream, List.filter_append] at hcode
      simpa [hy] using (List.append_inj' hcode (by simp [hy])).1
    have hseam : d.position.after (d.rest ++ ['\n'])
        = Position.start.shift (a.utf8ByteSize + 1) (a.toList.count '\n' + 1) := by
      obtain ⟨ps, -, hrest, hposition, -⟩ := hrun.pieces
      rw [hposition, ← Position.after_append, ← List.append_assoc, ← hrest,
        ← Text.byteSize_toList]
      exact Position.after_line a.toList
    have hafterDot : d.afterDot = false := by
      rw [hrun.afterDot, hsplit]
      cases hlast : code.getLast? with
      | none => rfl
      | some t => exact beq_false_of_ne (hdot t hlast)
    have hjoin : (Cursor.ofSource (a ++ "\n" ++ b)).stream
        = (ts ++ (Cursor.ofSource b).stream.1.map
            (Token.shift (a.utf8ByteSize + 1) (a.toList.count '\n' + 1)), none) := by
      have hsource : Cursor.ofSource (a ++ "\n" ++ b) = (Cursor.ofSource a).join b.toList := by
        simp [Cursor.ofSource, Cursor.join]
      have hsecond : (⟨b.toList, d.position.after (d.rest ++ ['\n']), d.afterDot⟩ : Cursor)
          = (Cursor.ofSource b).shift (a.utf8ByteSize + 1) (a.toList.count '\n' + 1) := by
        rw [hseam, hafterDot]
        rfl
      rw [hsource, (hrun.join hopens).stream, Cursor.stream_join_of_eof hnext hy, hsecond,
        Cursor.stream_shift _ _ hb]
    refine ⟨by rw [hjoin], ?_⟩
    rw [Cursor.significant, hjoin, List.filter_append, hsplit, List.filter_map]
    rfl
  · rw [hstream] at ha
    simp at ha

end Gxl
