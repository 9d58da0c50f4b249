import Gxl.Proofs.Token.Spell

/-!
# Runs of a cursor

A cursor that reads tokens goes through its text from left to right.  One step passes over blanks
and then over the text of one token, and all that the cursor keeps of the text behind it is its
position (`next_ok`).  Where no token can be read, the blanks before the fault are passed over too
(`next_error`).

`Cursor.Run` puts steps in a row.  Every token of a stream is read behind a run of the tokens before
it (`exists_run`), and every stream is a run that meets the end of the text or a fault
(`exists_run_end`); so what each step does, the whole reading of a source does.  Asking on, behind
the end of the text or a fault, brings no other tokens to light (`mem_stream_of_mem_steps`).
-/

namespace Gxl

/-- Whether some token starts with the character `c`, as `Lexeme.scan` finds them. -/
def Lexeme.startsToken (c : Char) : Bool :=
  c == '#' || c == '"' || c.isDigit || isWordStart c || (Kind.ofSign? c).isSome

/-- The text that a fault is about: a string literal that is not closed, from its opening quote on,
or a character that is neither a blank nor one that `startsToken`. -/
def LexError.Cause.StartsAt : LexError.Cause → List Char → Prop
  | .unterminatedString, cs => ∃ body, cs = '"' :: body ∧ Lexeme.closeString body = none
  | .unexpectedChar c, cs =>
    ∃ tail, cs = c :: tail ∧ Text.isBlank c = false ∧ Lexeme.startsToken c = false

namespace Lexeme

/-- What `dropWhile` leaves starts with no character that passes the test. -/
theorem head_dropWhile (p : Char → Bool) (cs : List Char) :
    ∀ c ∈ (cs.dropWhile p).head?, p c = false := by
  intro c hc
  have hhead := List.head?_dropWhile_not p cs
  rw [Option.mem_def.1 hc] at hhead
  simpa using hhead

/-- A text that `scan` finds unterminated starts with a quote, and `closeString` finds no end of
it. -/
theorem startsAt_of_unterminated {afterDot : Bool} {cs : List Char}
    (h : scan afterDot cs = .unterminated) : LexError.Cause.unterminatedString.StartsAt cs := by
  fun_cases scan afterDot cs with
  | case5 cs hnone => exact ⟨cs, rfl, hnone⟩
  | _ => simp_all [scan]

/-- A character that `scan` calls illegal is the first of the text, and no `startsToken` holds of
it. -/
theorem startsToken_of_illegal {afterDot : Bool} {cs : List Char} {c : Char}
    (h : scan afterDot cs = .illegal c) : ∃ tail, cs = c :: tail ∧ startsToken c = false := by
  fun_cases scan afterDot cs with
  | case9 d tail h₁ h₂ h₃ h₄ hnone =>
    obtain rfl : d = c := by simpa [scan, h₁, h₂, h₃, h₄, hnone] using h
    exact ⟨tail, rfl, by simp [startsToken, h₁, h₂, h₃, h₄, hnone]⟩
  | _ => simp_all [scan]

end Lexeme

namespace Cursor

/-! ## One step -/

/-- The blanks that `skipBlanks` passes over, and the text behind them. -/
theorem skipBlanks_split (c : Cursor) :
    ∃ gap, (∀ ch ∈ gap, Text.isBlank ch = true) ∧ c.rest = gap ++ c.skipBlanks.rest ∧
      c.skipBlanks.position = c.position.after gap ∧ c.skipBlanks.afterDot = c.afterDot :=
  ⟨c.rest.takeWhile Text.isBlank, List.all_eq_true.1 List.all_takeWhile,
    List.takeWhile_append_dropWhile.symm, rfl, rfl⟩

/-- No blank is left before the text that `skipBlanks` leads to. -/
theorem isBlank_skipBlanks {c : Cursor} {ch : Char} {tail : List Char}
    (h : c.skipBlanks.rest = ch :: tail) : Text.isBlank ch = false := by
  have hrest : c.rest.dropWhile Text.isBlank = ch :: tail := h
  exact Lexeme.head_dropWhile Text.isBlank c.rest ch (by rw [hrest]; rfl)

/-- A successful `next` passes over blanks and the text of a token, and the token stands between the
two places.  Only the end of the text has no text of its own. -/
theorem next_ok {c c' : Cursor} {t : Token} (h : c.next = (.ok t, c')) :
    ∃ gap, (∀ ch ∈ gap, Text.isBlank ch = true) ∧ c.rest = gap ++ (t.text.toList ++ c'.rest) ∧
      c'.position = c.position.after (gap ++ t.text.toList) ∧
      t.span = .between (c.position.after gap) c'.position.offset ∧
      (t.kind = .eof → t.text = "" ∧ c'.rest = []) ∧ (t.kind ≠ .eof → t.text ≠ "") := by
  obtain ⟨gap, hgap, hrest, hposition, -⟩ := c.skipBlanks_split
  refine ⟨gap, hgap, ?_⟩
  rw [hrest, List.append_right_inj, Position.after_append, ← hposition]
  unfold next at h
  generalize c.skipBlanks = d at h ⊢
  obtain ⟨hnil, rfl, rfl⟩ | ⟨kind, lexeme, rest, hscan, hkind, rfl, rfl⟩ := read_cases h
  · simp [hnil]
  · have hne := Lexeme.scan_ne_nil hscan
    simp [behind, Lexeme.scan_append hscan, hkind, hne]

/-- Where `next` meets a fault, only blanks stand before it, and its cause `StartsAt` the text
behind them. -/
theorem next_error {c c' : Cursor} {e : LexError} (h : c.next = (.error e, c')) :
    ∃ gap rest, (∀ ch ∈ gap, Text.isBlank ch = true) ∧ c.rest = gap ++ rest ∧
      e.position = c.position.after gap ∧ e.cause.StartsAt rest := by
  obtain ⟨gap, hgap, hrest, hposition, -⟩ := c.skipBlanks_split
  refine ⟨gap, c.skipBlanks.rest, hgap, hrest, ?_⟩
  rw [← hposition]
  have hblank : ∀ ch tail, c.skipBlanks.rest = ch :: tail → Text.isBlank ch = false :=
    fun _ _ => isBlank_skipBlanks
  unfold next at h
  generalize c.skipBlanks = d at h hblank
  unfold read at h
  split at h
  · simp at h
  · simp at h
  · rename_i hscan
    obtain ⟨rfl, -⟩ : _ = e ∧ _ = c' := by simpa using h
    exact ⟨rfl, Lexeme.startsAt_of_unterminated hscan⟩
  · rename_i ch hscan
    obtain ⟨rfl, -⟩ : _ = e ∧ _ = c' := by simpa using h
    obtain ⟨tail, hcs, hstarts⟩ := Lexeme.startsToken_of_illegal hscan
    exact ⟨rfl, tail, hcs, hblank ch tail hcs, hstarts⟩

/-! ## Steps in a row -/

/-- A cursor reads some tokens with `next`, none of them the end of the text, and gets to another
cursor. -/
inductive Run : Cursor → List Token → Cursor → Prop where
  | nil (c : Cursor) : Run c [] c
  | cons {c c' d : Cursor} {t : Token} {ts : List Token} (h : c.next = (.ok t, c'))
      (ht : t.kind ≠ .eof) (hs : Run c' ts d) : Run c (t :: ts) d

/-- Behind a run the `stream` goes on. -/
theorem Run.stream {c d : Cursor} {ts : List Token} (h : Run c ts d) :
    c.stream = (ts ++ d.stream.1, d.stream.2) := by
  induction h with
  | nil c => rfl
  | cons h ht _ ih => rw [stream_of_token h ht, ih, List.cons_append]

/-- No token of a run has the kind `eof`. -/
theorem Run.kind_ne_eof {c d : Cursor} {ts : List Token} (h : Run c ts d) :
    ∀ t ∈ ts, t.kind ≠ .eof := by
  induction h with
  | nil c => simp
  | cons h ht _ ih => exact List.forall_mem_cons.2 ⟨ht, ih⟩

/-- The first token of a `stream` is the `next` one, and the others are read behind it. -/
theorem next_of_stream {c : Cursor} {t : Token} {ts : List Token} (h : c.stream.1 = t :: ts) :
    ∃ c', c.next = (.ok t, c') ∧ (t.kind = .eof → ts = []) ∧
      (t.kind ≠ .eof → ts = c'.stream.1) := by
  rcases hnext : c.next with ⟨e | u, c'⟩
  · rw [stream_of_error hnext] at h
    simp at h
  · by_cases hu : u.kind = .eof
    · rw [stream_of_eof hnext hu] at h
      obtain ⟨rfl, rfl⟩ : u = t ∧ ts = [] := by simpa using h
      exact ⟨c', rfl, fun _ => rfl, fun hne => absurd hu hne⟩
    · rw [stream_of_token hnext hu] at h
      obtain ⟨rfl, rfl⟩ : u = t ∧ c'.stream.1 = ts := by simpa using h
      exact ⟨c', rfl, fun heof => absurd heof hu, fun _ => rfl⟩

/-- Every token of a `stream` is read behind a `Run` over the tokens before it. -/
theorem exists_run {c : Cursor} {before after : List Token} {t : Token}
    (h : c.stream.1 = before ++ t :: after) :
    ∃ d, Run c before d ∧ d.stream.1 = t :: after := by
  induction before generalizing c with
  | nil => exact ⟨c, .nil c, h⟩
  | cons u before ih =>
    obtain ⟨c', hnext, heof, hrest⟩ := next_of_stream h
    by_cases hu : u.kind = .eof
    · simp at heof
      exact absurd hu heof
    · obtain ⟨d, hrun, hd⟩ := ih (hrest hu).symm
      exact ⟨d, .cons hnext hu hrun, hd⟩

/-- A `stream` is a `Run` that meets the end of the text or a fault. -/
theorem exists_run_end (c : Cursor) :
    ∃ ts d, Run c ts d ∧
      ((∃ x d', d.next = (.ok x, d') ∧ x.kind = .eof ∧ c.stream = (ts ++ [x], none)) ∨
        ∃ e d', d.next = (.error e, d') ∧ c.stream = (ts, some e)) := by
  fun_induction Cursor.stream c with
  | case1 c e c' h => exact ⟨[], c, .nil c, .inr ⟨e, c', h, rfl⟩⟩
  | case2 c t c' h ht => exact ⟨[], c, .nil c, .inl ⟨t, c', h, ht, rfl⟩⟩
  | case3 c t c' h ht _ ih =>
    obtain ⟨ts, d, hrun, ⟨x, d', hnext, hx, hstream⟩ | ⟨e, d', hnext, hstream⟩⟩ := ih
    · exact ⟨t :: ts, d, .cons h ht hrun, .inl ⟨x, d', hnext, hx, by rw [hstream]; rfl⟩⟩
    · exact ⟨t :: ts, d, .cons h ht hrun, .inr ⟨e, d', hnext, by rw [hstream]⟩⟩

/-! ## Reading on -/

/-- At the end of the text, `next` hands out nothing but that. -/
theorem next_of_rest_nil {c : Cursor} (h : c.rest = []) :
    c.next
      = (.ok ⟨.eof, "", .between c.position c.position.offset⟩, { c with afterDot := false }) := by
  simp [next, skipBlanks, read, h, Lexeme.scan]

/-- What a fault of `next` leaves behind.  A character that starts no token stays where it is and is
met again; a string that is not closed takes the rest of the text with it. -/
theorem error_cases {c c' : Cursor} {e : LexError} (h : c.next = (.error e, c')) :
    ((∃ ch, e.cause = .unexpectedChar ch) ∧ c'.next = (.error e, c')) ∨
      (e.cause = .unterminatedString ∧ c'.rest = [] ∧
        c'.position.offset = c.position.offset + Text.byteSize c.rest) := by
  obtain ⟨gap, -, hrest, hposition, -⟩ := c.skipBlanks_split
  have hblank : ∀ ch tail, c.skipBlanks.rest = ch :: tail → Text.isBlank ch = false :=
    fun _ _ => isBlank_skipBlanks
  rw [hrest]
  unfold next at h
  generalize c.skipBlanks = d at h hblank hposition ⊢
  have hread := h
  unfold read at hread
  split at hread
  · simp at hread
  · simp at hread
  · obtain ⟨rfl, rfl⟩ : _ = e ∧ _ = c' := by simpa using hread
    refine .inr ⟨rfl, rfl, ?_⟩
    simp only [hposition, Position.offset_after, Text.byteSize_append]
    omega
  · -- there are no blanks before the character that stays
    rename_i ch hscan
    obtain ⟨hcause, rfl⟩ : _ = e ∧ _ = c' := by simpa using hread
    obtain ⟨tail, hd, -⟩ := Lexeme.startsToken_of_illegal hscan
    have hskip : d.skipBlanks = d := by
      obtain ⟨rest, p, afterDot⟩ := d
      obtain rfl : rest = ch :: tail := hd
      simp [skipBlanks, hblank ch tail rfl]
    exact .inl ⟨⟨ch, by rw [← hcause]⟩, by rw [next, hskip, h]⟩

/-- Behind a fault of `next` there is the same fault again, or nothing but the end of the text. -/
theorem behind_error {c c' : Cursor} {e : LexError} (h : c.next = (.error e, c')) :
    c'.next = (.error e, c') ∨
      (c'.rest = [] ∧ c'.position.offset = c.position.offset + Text.byteSize c.rest) :=
  (error_cases h).imp And.right And.right

/-- What `next` hands out again is all that `steps` hands out ever after. -/
theorem eq_of_mem_steps {c c' : Cursor} {a : Except LexError Token} (h : c.next = (a, c'))
    (again : c'.next = (a, c')) (n : Nat) : ∀ b ∈ c.steps n, b = a := by
  induction n generalizing c with
  | zero => simp [steps]
  | succ n ih =>
    rw [steps, h]
    exact List.forall_mem_cons.2 ⟨rfl, ih again⟩

/-- However often a cursor is asked, also behind a fault, its `steps` hand out the tokens of its
`stream` and nothing else but the end of the text. -/
theorem mem_stream_of_mem_steps {c : Cursor} {n : Nat} {t : Token} (h : .ok t ∈ c.steps n) :
    t ∈ c.stream.1 ∨
      (t.kind = .eof ∧ t.span.start = c.position.offset + Text.byteSize c.rest) := by
  induction n generalizing c with
  | zero => simp [steps] at h
  | succ n ih =>
    rcases hnext : c.next with ⟨e | u, c'⟩
    · rcases behind_error hnext with again | ⟨hrest, hposition⟩
      · exact absurd (eq_of_mem_steps hnext again _ _ h) (by simp)
      · rw [steps, hnext] at h
        have heof := next_of_rest_nil hrest
        have hmem : .ok t ∈ c'.steps n := by simpa using h
        have ht := eq_of_mem_steps heof (next_of_next_eof heof rfl) n _ hmem
        obtain rfl := Except.ok.inj ht
        exact .inr ⟨rfl, hposition⟩
    · by_cases hu : u.kind = .eof
      · obtain rfl := Except.ok.inj
          (eq_of_mem_steps hnext (next_of_next_eof hnext hu) _ _ h)
        rw [stream_of_eof hnext hu]
        exact .inl (by simp)
      · rw [stream_of_token hnext hu]
        rw [steps, hnext, List.mem_cons] at h
        rcases h with h | h
        · rw [Except.ok.inj h]
          exact .inl (by simp)
        · rcases ih h with hmem | ⟨heof, hstart⟩
          · exact .inl (by simp [hmem])
          · obtain ⟨gap, -, hrest, hposition, -⟩ := next_ok hnext
            refine .inr ⟨heof, ?_⟩
            rw [hstart, hposition, hrest, Position.offset_after]
            simp only [Text.byteSize_append]
            omega

end Cursor

end Gxl
