import Gxl.Proofs.Token.Lossless

/-!
# Which tokens name builtin commands

The scanner looks ahead of the name of a builtin command to see whether an opening parenthesis comes
next.  It does so on the plain text, by a test of its own (`Lexeme.opensCall`), and this module
shows that the test agrees with the tokens that are read later: what it passes over is `Extras`
(`opensCall_iff`), and behind extras and a parenthesis the next token that is no comment is that
parenthesis (`significant_of_extras`).

So the name of a builtin stands exactly where the text says so (`CallsBuiltin`) and no dot stands
before it (`kind_of_next`).  The last token, comments aside, is what a cursor remembers of its past
(`Run.afterDot`).
-/

namespace Gxl

/-! ## Blanks and comments -/

/-- Blanks and whole comments.  A comment goes from a hash sign to the end of its line; a hash sign
with `[` behind it opens no comment. -/
inductive Text.Extras : List Char → Prop where
  | nil : Extras []
  | blank {c : Char} {cs : List Char} (hc : isBlank c = true) (h : Extras cs) : Extras (c :: cs)
  | comment {body cs : List Char} (hopen : body.head? ≠ some '[') (hbody : ∀ c ∈ body, c ≠ '\n')
      (h : Extras cs) : Extras ('#' :: (body ++ '\n' :: cs))

namespace Lexeme

/-- Inside a comment, `opensCall` goes on behind the end of the line. -/
theorem opensCall_comment {cs : List Char} (h : opensCall true cs = true) :
    ∃ body rest, cs = body ++ '\n' :: rest ∧ (∀ c ∈ body, c ≠ '\n') ∧
      opensCall false rest = true := by
  induction cs with
  | nil => simp [opensCall] at h
  | cons c cs ih =>
    rw [opensCall, if_pos rfl] at h
    by_cases hc : c = '\n'
    · subst hc
      exact ⟨[], cs, rfl, by simp, h⟩
    · rw [bne_iff_ne.2 hc] at h
      obtain ⟨body, rest, rfl, hbody, hrest⟩ := ih h
      exact ⟨c :: body, rest, rfl, List.forall_mem_cons.2 ⟨hc, hbody⟩, hrest⟩

/-- Inside a comment, `opensCall` passes over what is left of the line. -/
theorem opensCall_line {body : List Char} (rest : List Char) (hbody : ∀ c ∈ body, c ≠ '\n') :
    opensCall true (body ++ rest) = opensCall true rest := by
  induction body with
  | nil => rfl
  | cons c body ih =>
    obtain ⟨hc, hbody⟩ := List.forall_mem_cons.1 hbody
    rw [List.cons_append, opensCall, if_pos rfl, bne_iff_ne.2 hc, ih hbody]

/-- A hash sign opens a comment, unless `[` stands behind it. -/
theorem opensCall_hash {body rest : List Char} (hbody : ∀ c ∈ body, c ≠ '\n')
    (hopen : (body ++ rest).head? ≠ some '[') :
    opensCall false ('#' :: (body ++ rest)) = opensCall true rest := by
  rw [opensCall, if_neg (by simp), if_neg (by decide), if_pos rfl, bne_iff_ne.2 hopen,
    opensCall_line rest hbody, Bool.true_and]

/-- The test `opensCall` passes over `Text.Extras`, blanks and comments. -/
theorem opensCall_extras {x : List Char} (hx : Text.Extras x) (cs : List Char) :
    opensCall false (x ++ cs) = opensCall false cs := by
  induction hx with
  | nil => rfl
  | blank hc _ ih =>
    rw [List.cons_append, opensCall, if_neg (by simp), if_pos hc]
    exact ih
  | @comment body x hopen hbody _ ih =>
    have hhead : (body ++ '\n' :: (x ++ cs)).head? ≠ some '[' := by
      cases body with
      | nil => simp
      | cons c body => simpa using hopen
    have htext : '#' :: (body ++ '\n' :: x) ++ cs = '#' :: (body ++ '\n' :: (x ++ cs)) := by simp
    rw [htext, opensCall_hash hbody hhead]
    exact ih

/-- The test `opensCall` finds an opening parenthesis behind `Text.Extras`, and nowhere else. -/
theorem opensCall_iff {cs : List Char} :
    opensCall false cs = true ↔ ∃ extras tail, cs = extras ++ '(' :: tail ∧ Text.Extras extras := by
  constructor
  · intro h
    -- a comment takes more than one character, so the induction is on the length of the text
    induction hn : cs.length using Nat.strongRecOn generalizing cs with
    | ind n ih =>
      cases cs with
      | nil => simp [opensCall] at h
      | cons c cs =>
        rw [opensCall, if_neg (by simp)] at h
        split at h
        · rename_i hc
          obtain ⟨extras, tail, rfl, hextras⟩ := ih cs.length (by simp [← hn]) h rfl
          exact ⟨c :: extras, tail, rfl, .blank hc hextras⟩
        · split at h
          · rename_i hc
            subst hc
            simp only [Bool.and_eq_true, bne_iff_ne] at h
            obtain ⟨body, rest, rfl, hbody, hrest⟩ := opensCall_comment h.2
            obtain ⟨extras, tail, rfl, hextras⟩ := ih rest.length (by simp [← hn]; omega) hrest rfl
            refine ⟨'#' :: (body ++ '\n' :: extras), tail, by simp, .comment ?_ hbody hextras⟩
            intro hhead
            obtain ⟨body, rfl⟩ := List.head?_eq_some_iff.1 hhead
            exact h.1 rfl
          · obtain rfl : c = '(' := by simpa using h
            exact ⟨[], cs, rfl, .nil⟩
  · rintro ⟨extras, tail, rfl, hextras⟩
    rw [opensCall_extras hextras]
    rfl

/-! ## The name of a builtin command in a text -/

/-- A text starts with the name of a builtin command that is about to be called: `gx.` and the
longest word behind it are the name, and behind blanks and comments an opening parenthesis comes
next. -/
structure CallsBuiltin (cs word rest : List Char) : Prop where
  text : cs = ['g', 'x', '.'] ++ word ++ rest
  isWord : isWord word = true
  longest : ∀ c ∈ rest.head?, isWordChar c = false
  names : ∃ b : Builtin, b.name = "gx." ++ String.ofList word
  opens : ∃ extras tail, rest = extras ++ '(' :: tail ∧ Text.Extras extras

/-- The longest run of word characters that a text starts with is a word, if its first character
passes `isWordStart`. -/
theorem isWord_of_head {cs : List Char}
    (h : (cs.takeWhile isWordChar).head?.any isWordStart = true) :
    isWord (cs.takeWhile isWordChar) = true := by
  cases cs with
  | nil => simp at h
  | cons c cs =>
    by_cases hc : isWordChar c = true
    · rw [List.takeWhile_cons_of_pos hc] at h
      exact isWord_takeWhile cs h
    · rw [List.takeWhile_cons_of_neg hc] at h
      simp at h

/-- What makes `gx` the name of a builtin command. -/
theorem builtinTail_cases {cs tail rest : List Char} (h : builtinTail cs = some (tail, rest)) :
    ∃ word, tail = '.' :: word ∧ CallsBuiltin (['g', 'x'] ++ cs) word rest := by
  unfold builtinTail at h
  split at h
  · rename_i cs
    simp only [Option.ite_none_right_eq_some, Option.some.injEq, Prod.mk.injEq,
      Bool.and_eq_true] at h
    obtain ⟨⟨⟨hstart, hname⟩, hopen⟩, rfl, rfl⟩ := h
    obtain ⟨b, hb⟩ := Option.isSome_iff_exists.1 hname
    refine ⟨_, rfl, ?_, isWord_of_head hstart, head_dropWhile isWordChar cs,
      ⟨b, Builtin.ofName?_eq_some_iff.1 hb⟩, opensCall_iff.1 hopen⟩
    simp [List.takeWhile_append_dropWhile]
  · simp at h

/-- If `word` says `builtin`, no dot stands before the text, and the text calls a builtin command
there, as `CallsBuiltin` has it. -/
theorem word_cases {afterDot : Bool} {cs : List Char} (h : (word afterDot cs).1 = .builtin) :
    afterDot = false ∧ ∃ w, (word afterDot cs).2.1 = ['g', 'x', '.'] ++ w ∧
      CallsBuiltin cs w (word afterDot cs).2.2 := by
  revert h
  fun_cases word afterDot cs with
  | case1 text rest hgx tail rest' htail =>
    intro _
    simp only [Bool.and_eq_true, Bool.not_eq_true', beq_iff_eq] at hgx
    obtain ⟨w, rfl, hcalls⟩ := builtinTail_cases htail
    have hcs : cs = ['g', 'x'] ++ rest := by
      rw [← hgx.2]
      exact List.takeWhile_append_dropWhile.symm
    refine ⟨hgx.1, w, ?_, ?_⟩
    · simp [hgx.2]
    · rwa [hcs]
  | case2 => simp
  | case3 => simp

/-- The scanner `scan` finds the name of a builtin command exactly where the text calls it, as
`CallsBuiltin` has it, and no dot stands before it. -/
theorem scan_builtin_iff {afterDot : Bool} {cs lexeme rest : List Char} :
    scan afterDot cs = .token .builtin lexeme rest ↔
      afterDot = false ∧ ∃ w, lexeme = ['g', 'x', '.'] ++ w ∧ CallsBuiltin cs w rest := by
  constructor
  · intro h
    fun_cases scan afterDot cs with
    | case7 c cs h₁ h₂ h₃ h₄ =>
      obtain ⟨hkind, rfl, rfl⟩ : _ ∧ _ = _ ∧ _ = _ := by simpa [scan, h₁, h₂, h₃, h₄] using h
      exact word_cases hkind
    | case8 c cs h₁ h₂ h₃ h₄ k hk =>
      -- a sign of one character names nothing
      obtain ⟨rfl, -⟩ : k = _ ∧ _ := by simpa [scan, h₁, h₂, h₃, h₄, hk] using h
      have hall : ∀ p ∈ Kind.signs, p.2 ≠ .builtin := by decide
      exact absurd rfl (hall _ (mem_signs_of_ofSign? hk))
    | _ => simp_all [scan]
  · rintro ⟨rfl, w, rfl, hcs, -, hlongest, ⟨b, hb⟩, hopens⟩
    have hname : b.name.toList = ['g', 'x', '.'] ++ w := by simp [hb]
    rw [hcs, ← hname]
    exact scan_builtin b (opensCall_iff.2 hopens) hlongest

end Lexeme

namespace Cursor

/-! ## Names of builtin commands among tokens -/

/-- A token that `next` hands out names a builtin command exactly if `CallsBuiltin` holds of the
text there and the last token, comments aside, was no dot.  It takes the name and leaves the text
behind it. -/
theorem kind_of_next {c c' : Cursor} {t : Token} (h : c.next = (.ok t, c')) :
    (t.kind = .builtin ↔
      c.afterDot = false ∧ ∃ w rest, Lexeme.CallsBuiltin c.skipBlanks.rest w rest) ∧
    (t.kind = .builtin → ∃ w, Lexeme.CallsBuiltin c.skipBlanks.rest w c'.rest ∧
      t.text = "gx." ++ String.ofList w) := by
  have hdot : c.skipBlanks.afterDot = c.afterDot := rfl
  obtain ⟨hnil, rfl, -⟩ | ⟨kind, lexeme, rest, hscan, -, rfl, rfl⟩ := read_cases h
  · refine ⟨⟨by simp, ?_⟩, by simp⟩
    rintro ⟨-, w, rest, hcalls⟩
    rw [hnil] at hcalls
    simpa using hcalls.text
  · rw [← hdot]
    refine ⟨⟨?_, ?_⟩, ?_⟩
    · rintro rfl
      obtain ⟨hafter, w, -, hcalls⟩ := Lexeme.scan_builtin_iff.1 hscan
      exact ⟨hafter, w, rest, hcalls⟩
    · rintro ⟨hafter, w, rest', hcalls⟩
      have hbuiltin := Lexeme.scan_builtin_iff.2 ⟨hafter, w, rfl, hcalls⟩
      rw [hscan] at hbuiltin
      exact (Lexeme.Scan.token.inj hbuiltin).1
    · rintro rfl
      obtain ⟨-, w, rfl, hcalls⟩ := Lexeme.scan_builtin_iff.1 hscan
      refine ⟨w, hcalls, ?_⟩
      rw [← String.toList_inj]
      simp

/-- After `next`, `afterDot` says whether the last token, comments aside, was a dot. -/
theorem afterDot_of_next {c c' : Cursor} {t : Token} (h : c.next = (.ok t, c'))
    (ht : t.kind ≠ .eof) :
    c'.afterDot = if t.kind = .comment then c.afterDot else t.kind == .dot := by
  obtain ⟨-, rfl, -⟩ | ⟨kind, lexeme, rest, -, -, rfl, rfl⟩ := read_cases h
  · exact absurd rfl ht
  · rfl

/-- Behind a `Run`, `afterDot` says whether the last token of the run, comments aside, was a dot. -/
theorem Run.afterDot {c d : Cursor} {ts : List Token} (h : Run c ts d) :
    d.afterDot
      = ((ts.filter (·.kind != .comment)).getLast?.map (·.kind == .dot)).getD c.afterDot := by
  induction h with
  | nil c => rfl
  | @cons c c' d t ts h ht _ ih =>
    rw [ih, afterDot_of_next h ht]
    by_cases hc : t.kind = .comment
    · simp [hc]
    · rw [if_neg hc, List.filter_cons_of_pos (by simpa using hc), List.getLast?_cons]
      cases (ts.filter (·.kind != .comment)).getLast? <;> rfl

/-! ## The parenthesis behind a name -/

/-- The step `next` reads a comment from its hash sign to the end of its line, and keeps
`afterDot`. -/
theorem next_comment {body : List Char} (cs : List Char) (p : Position) (afterDot : Bool)
    (hopen : body.head? ≠ some '[') (hbody : ∀ c ∈ body, c ≠ '\n') :
    ∃ t q, t.kind = .comment ∧
      next ⟨'#' :: (body ++ '\n' :: cs), p, afterDot⟩ = (.ok t, ⟨'\n' :: cs, q, afterDot⟩) := by
  have hhead : (body ++ '\n' :: cs).head? ≠ some '[' := by
    cases body with
    | nil => simp
    | cons c body => simpa using hopen
  have hsplit := Lexeme.takeWhile_dropWhile_append (· != '\n') ('\n' :: cs)
    (by simpa using hbody) (by simp)
  have hscan : Lexeme.scan afterDot ('#' :: (body ++ '\n' :: cs))
      = .token .comment ('#' :: body) ('\n' :: cs) := by
    rw [Lexeme.scan, if_pos rfl, if_neg hhead, hsplit.1, hsplit.2]
  have hblanks : skipBlanks ⟨'#' :: (body ++ '\n' :: cs), p, afterDot⟩
      = ⟨'#' :: (body ++ '\n' :: cs), p, afterDot⟩ := rfl
  exact ⟨_, _, rfl, by rw [next, hblanks, read, hscan]; rfl⟩

/-- Behind `Text.Extras` an opening parenthesis is the next of the `significant` tokens. -/
theorem significant_of_extras {extras : List Char} (h : Text.Extras extras) (tail : List Char)
    (p : Position) (afterDot : Bool) :
    ∃ t more, significant ⟨extras ++ '(' :: tail, p, afterDot⟩ = t :: more ∧
      t.kind = .parenOpen := by
  induction h generalizing p with
  | nil =>
    have hnext : next ⟨'(' :: tail, p, afterDot⟩
        = (.ok ⟨.parenOpen, "(", .between p (p.step '(').offset⟩, ⟨tail, p.step '(', false⟩) := rfl
    rw [significant, List.nil_append, stream_of_token hnext (by simp)]
    exact ⟨_, _, rfl, rfl⟩
  | @blank c cs hc _ ih =>
    rw [significant, List.cons_append, stream_congr (next_blank hc)]
    exact ih (p.step c)
  | @comment body cs hopen hbody _ ih =>
    obtain ⟨t, q, ht, hnext⟩ := next_comment (cs ++ '(' :: tail) p afterDot hopen hbody
    have htext : '#' :: (body ++ '\n' :: cs) ++ '(' :: tail
        = '#' :: (body ++ '\n' :: (cs ++ '(' :: tail)) := by simp
    rw [significant, htext, stream_of_token hnext (by simp [ht]),
      List.filter_cons_of_neg (by simp [ht]), stream_congr (next_blank (by decide))]
    exact ih (q.step '\n')

/-- The next of the `significant` tokens behind the name of a builtin command is an opening
parenthesis. -/
theorem significant_behind_builtin {c c' : Cursor} {t : Token} (h : c.next = (.ok t, c'))
    (ht : t.kind = .builtin) : ∃ u more, c'.significant = u :: more ∧ u.kind = .parenOpen := by
  obtain ⟨w, hcalls, -⟩ := (kind_of_next h).2 ht
  obtain ⟨extras, tail, hrest, hextras⟩ := hcalls.opens
  obtain ⟨rest, p, afterDot⟩ := c'
  obtain rfl : rest = extras ++ '(' :: tail := hrest
  exact significant_of_extras hextras tail p afterDot

end Cursor

/-! ## Names of builtin commands in a source -/

/-- The text of `source` from the byte `offset` on, if a character starts there or the text ends
there. -/
def textFrom? (source : String) (offset : Nat) : Option (List Char) :=
  (Text.splitBytes? offset source.toList).map Prod.snd

/-- The function `textFrom?` at the end of a source gives the empty text. -/
theorem textFrom?_byteSize (source : String) :
    textFrom? source (Text.byteSize source.toList) = some [] := by
  have hsplit := Text.splitBytes?_append source.toList []
  rw [List.append_nil] at hsplit
  rw [textFrom?, hsplit, Option.map_some]

namespace Cursor

/-- Whatever `steps` hands out of a source, also behind a fault, is a token of its stream or stands
at its end. -/
theorem mem_stream_or_eof {source : String} {n : Nat} {t : Token}
    (h : .ok t ∈ (ofSource source).steps n) :
    t ∈ (ofSource source).stream.1 ∨
      (t.kind = .eof ∧ textFrom? source t.span.start = some []) := by
  rcases mem_stream_of_mem_steps h with hmem | ⟨heof, hstart⟩
  · exact .inl hmem
  · refine .inr ⟨heof, ?_⟩
    rw [hstart, ofSource, Position.start, Nat.zero_add]
    exact textFrom?_byteSize source

/-- Every token of a source is read by a cursor that a `Run` over those before it leads to, at the
text that `textFrom?` gives. -/
theorem exists_next {source : String} {before after : List Token} {t : Token}
    (h : (ofSource source).stream.1 = before ++ t :: after) :
    ∃ d d', Run (ofSource source) before d ∧ d.next = (.ok t, d') ∧
      textFrom? source t.span.start = some d.skipBlanks.rest ∧
      (t.kind ≠ .eof → after = d'.stream.1) := by
  obtain ⟨d, hrun, hd⟩ := exists_run h
  obtain ⟨d', hnext, -, hafter⟩ := next_of_stream hd
  refine ⟨d, d', hrun, hnext, ?_, hafter⟩
  obtain ⟨ps, -, hsource, hposition, -⟩ := hrun.standsBehind
  obtain ⟨gap, -, hrest, hskip, -⟩ := d.skipBlanks_split
  -- the token starts behind the blanks, and so does the text that is left
  have hstart : t.span.start = Text.byteSize (Piece.joined ps ++ gap) := by
    have hplace : t.span.start = d.skipBlanks.position.offset := by
      obtain ⟨-, rfl, -⟩ | ⟨kind, lexeme, rest, -, -, rfl, -⟩ := read_cases hnext <;> rfl
    rw [hplace, hskip, hposition, ← Position.after_append]
    exact (Position.marks_after_start _).offset
  rw [textFrom?, hstart, hsource, hrest, ← List.append_assoc, Text.splitBytes?_append,
    Option.map_some]

/-- A token of a source names a builtin command exactly if `CallsBuiltin` holds of the source there
and the token before it, comments aside, is no dot. -/
theorem kind_of_stream {source : String} {before after : List Token} {t : Token}
    (h : (ofSource source).stream.1 = before ++ t :: after) :
    t.kind = .builtin ↔
      (∀ u ∈ (before.filter (·.kind != .comment)).getLast?, u.kind ≠ .dot) ∧
        ∃ cs w rest, textFrom? source t.span.start = some cs ∧ Lexeme.CallsBuiltin cs w rest := by
  obtain ⟨d, d', hrun, hnext, htext, -⟩ := exists_next h
  have hdot : d.afterDot = false ↔
      ∀ u ∈ (before.filter (·.kind != .comment)).getLast?, u.kind ≠ .dot := by
    rw [hrun.afterDot]
    cases (before.filter (·.kind != .comment)).getLast? with
    | none => simp [ofSource]
    | some u => simp
  rw [(kind_of_next hnext).1, hdot, htext]
  simp

/-- The text of a `builtin` token is all of the text that makes it one, and an opening parenthesis
is the next token that is no comment. -/
theorem builtin_of_stream {source : String} {before after : List Token} {t : Token}
    (h : (ofSource source).stream.1 = before ++ t :: after) (ht : t.kind = .builtin) :
    (∃ cs w rest, textFrom? source t.span.start = some cs ∧ Lexeme.CallsBuiltin cs w rest ∧
      t.text = "gx." ++ String.ofList w) ∧
    ∃ u more, after.filter (·.kind != .comment) = u :: more ∧ u.kind = .parenOpen := by
  obtain ⟨d, d', -, hnext, htext, hafter⟩ := exists_next h
  obtain ⟨w, hcalls, hname⟩ := (kind_of_next hnext).2 ht
  refine ⟨⟨_, w, _, htext, hcalls, hname⟩, ?_⟩
  rw [hafter (by simp [ht])]
  exact significant_behind_builtin hnext ht

end Cursor

end Gxl
