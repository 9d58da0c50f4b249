import Gxl.Proofs.Token.Lossless

/-!
# Reading without positions

A text is read the same wherever it stands.  `Lexes` says what the symbols of a text are without
regard to positions: it has one rule for blanks, one for comments and one for the other tokens, and
agrees with the stream of a cursor anywhere (`Cursor.lexes_stream`, `Lexes.stream`).

`Border` says in the same terms where a text may be parted without parting a token.  That is so
wherever no token of the stream reaches over (`Cursor.border_of_stream`).
-/

namespace Gxl

/-! ## The symbols of a text -/

/-- A text, behind a dot if `afterDot` holds, is read as symbols, that of the kind `eof` being the
last.  Blanks and comments do not count. -/
inductive Lexes : Bool → List Char → Phrase → Prop where
  | nil (afterDot : Bool) : Lexes afterDot [] [⟨.eof, ""⟩]
  | blank {afterDot : Bool} {c : Char} {cs : List Char} {v : Phrase} (hc : Text.isBlank c = true)
      (h : Lexes afterDot cs v) : Lexes afterDot (c :: cs) v
  | comment {afterDot : Bool} {cs lexeme rest : List Char} {v : Phrase}
      (hscan : Lexeme.scan afterDot cs = .token .comment lexeme rest)
      (h : Lexes afterDot rest v) : Lexes afterDot cs v
  | symbol {afterDot : Bool} {cs lexeme rest : List Char} {kind : Kind} {v : Phrase}
      (hscan : Lexeme.scan afterDot cs = .token kind lexeme rest) (hkind : kind ≠ .comment)
      (h : Lexes (kind == .dot) rest v) : Lexes afterDot cs (⟨kind, String.ofList lexeme⟩ :: v)

/-- A `gap` of blanks before a text does not count. -/
theorem Lexes.blanks {afterDot : Bool} {gap cs : List Char} {v : Phrase}
    (hgap : ∀ c ∈ gap, Text.isBlank c = true) (h : Lexes afterDot cs v) :
    Lexes afterDot (gap ++ cs) v := by
  induction gap with
  | nil => exact h
  | cons c gap ih =>
    obtain ⟨hc, hgap⟩ := List.forall_mem_cons.1 hgap
    exact .blank hc (ih hgap)

namespace Cursor

/-- What a successful `next` reads: behind blanks, the end of the text or a token that `Lexeme.scan`
finds there. -/
theorem next_cases {c c' : Cursor} {t : Token} (h : c.next = (.ok t, c')) :
    ∃ gap, (∀ ch ∈ gap, Text.isBlank ch = true) ∧
      ((c.rest = gap ∧ t.kind = .eof ∧ t.text = "") ∨
        ∃ kind lexeme rest, kind ≠ .eof ∧ c.rest = gap ++ (lexeme ++ rest) ∧
          Lexeme.scan c.afterDot (lexeme ++ rest) = .token kind lexeme rest ∧
          t = ⟨kind, String.ofList lexeme, .between (c.position.after gap)
            (c.position.after (gap ++ lexeme)).offset⟩ ∧
          c' = ⟨rest, c.position.after (gap ++ lexeme),
            if kind = .comment then c.afterDot else kind == .dot⟩) := by
  obtain ⟨gap, hgap, hrest, hposition, hdot⟩ := c.skipBlanks_split
  refine ⟨gap, hgap, ?_⟩
  obtain ⟨hnil, rfl, -⟩ | ⟨kind, lexeme, rest, hscan, hkind, rfl, rfl⟩ := read_cases h
  · exact .inl ⟨by rw [hrest, hnil, List.append_nil], rfl, rfl⟩
  · have happend := Lexeme.scan_append hscan
    refine .inr ⟨kind, lexeme, rest, hkind, by rw [hrest, happend], ?_, ?_, ?_⟩
    · rw [happend, ← hdot, hscan]
    · rw [hposition, Position.after_append]
    · rw [behind, hposition, hdot, Position.after_append]

/-- The `significant` tokens of a text without a fault are read from the text alone, as `Lexes` has
it. -/
theorem lexes_stream {c : Cursor} (h : c.stream.2 = none) :
    Lexes c.afterDot c.rest (symbols c.significant) := by
  rw [significant]
  fun_induction Cursor.stream c with
  | case1 => simp at h
  | case2 c t c' hnext ht =>
    obtain ⟨gap, hgap, ⟨hrest, -, htext⟩ | ⟨kind, lexeme, rest, hkind, -, -, rfl, -⟩⟩ :=
      next_cases hnext
    · have hnil : Lexes c.afterDot (gap ++ []) [t.symbol] := by
        rw [Token.symbol, ht, htext]
        exact .blanks hgap (.nil _)
      simpa [hrest, ht] using hnil
    · exact absurd ht hkind
  | case3 c t c' hnext ht _ ih =>
    obtain ⟨gap, hgap, ⟨-, heof, -⟩ | ⟨kind, lexeme, rest, -, hrest, hscan, rfl, rfl⟩⟩ :=
      next_cases hnext
    · exact absurd heof ht
    · rw [hrest]
      refine .blanks hgap ?_
      have hrest := ih h
      by_cases hkind : kind = .comment
      · rw [if_pos hkind] at hrest ⊢
        rw [List.filter_cons_of_neg (by simp [hkind])]
        exact .comment (hkind ▸ hscan) hrest
      · rw [if_neg hkind] at hrest ⊢
        rw [List.filter_cons_of_pos (by simp [hkind])]
        exact .symbol hscan hkind hrest

/-- The step `next` hands out the token that `Lexeme.scan` finds, at the place where it is asked. -/
theorem next_of_scan {afterDot : Bool} {cs lexeme rest : List Char} {kind : Kind}
    (h : Lexeme.scan afterDot cs = .token kind lexeme rest) (p : Position) :
    next ⟨cs, p, afterDot⟩
      = (.ok ⟨kind, String.ofList lexeme, .between p (p.after lexeme).offset⟩,
        ⟨rest, p.after lexeme, if kind = .comment then afterDot else kind == .dot⟩) := by
  have hblanks : skipBlanks ⟨cs, p, afterDot⟩ = ⟨cs, p, afterDot⟩ := by
    cases cs with
    | nil => rfl
    | cons c cs =>
      have hc : Text.isBlank c = false := by
        rw [Bool.eq_false_iff]
        intro hc
        rw [Lexeme.scan_blank afterDot cs hc] at h
        simp at h
      simp [skipBlanks, hc]
  rw [next, hblanks, read, h]
  rfl

end Cursor

/-- A text that `Lexes` reads as `v` has the symbols `v` wherever it stands. -/
theorem Lexes.stream {afterDot : Bool} {cs : List Char} {v : Phrase} (h : Lexes afterDot cs v)
    (p : Position) :
    (Cursor.stream ⟨cs, p, afterDot⟩).2 = none ∧
      symbols (Cursor.significant ⟨cs, p, afterDot⟩) = v := by
  induction h generalizing p with
  | nil afterDot =>
    have hnext : Cursor.next ⟨[], p, afterDot⟩
        = (.ok ⟨.eof, "", .between p p.offset⟩, ⟨[], p, false⟩) := rfl
    rw [Cursor.significant, Cursor.stream_of_eof hnext rfl]
    exact ⟨rfl, rfl⟩
  | @blank afterDot c cs v hc _ ih =>
    rw [Cursor.significant, Cursor.stream_congr (Cursor.next_blank hc)]
    exact ih (p.step c)
  | @comment afterDot cs lexeme rest v hscan _ ih =>
    rw [Cursor.significant, Cursor.stream_of_token (Cursor.next_of_scan hscan p) (by simp)]
    exact ih (p.after lexeme)
  | @symbol afterDot cs lexeme rest kind v hscan hkind _ ih =>
    have heof : kind ≠ .eof := by
      rintro rfl
      have hgenuine := Lexeme.genuine_of_scan hscan hkind
      simp [Symbol.genuine] at hgenuine
    obtain ⟨hfault, hsymbols⟩ := ih (p.after lexeme)
    rw [Cursor.significant, Cursor.stream_of_token (Cursor.next_of_scan hscan p) heof,
      if_neg hkind]
    refine ⟨hfault, ?_⟩
    rw [List.filter_cons_of_pos (by simp [hkind]), symbols_cons]
    exact congrArg (_ :: ·) hsymbols

/-! ## Borders of tokens -/

/-- Where a text may be parted without parting a token: the first part is made up of blanks and of
tokens that `Lexeme.scan` finds in the whole text. -/
inductive Border : Bool → List Char → List Char → Prop where
  | here (afterDot : Bool) (back : List Char) : Border afterDot [] back
  | blank {afterDot : Bool} {c : Char} {front back : List Char} (hc : Text.isBlank c = true)
      (h : Border afterDot front back) : Border afterDot (c :: front) back
  | token {afterDot : Bool} {kind : Kind} {lexeme front back : List Char}
      (hscan : Lexeme.scan afterDot (lexeme ++ (front ++ back))
        = .token kind lexeme (front ++ back))
      (h : Border (if kind = .comment then afterDot else kind == .dot) front back) :
      Border afterDot (lexeme ++ front) back

/-- A `gap` of blanks before the first part keeps the border. -/
theorem Border.blanks {afterDot : Bool} {gap front back : List Char}
    (hgap : ∀ c ∈ gap, Text.isBlank c = true) (h : Border afterDot front back) :
    Border afterDot (gap ++ front) back := by
  induction gap with
  | nil => exact h
  | cons c gap ih =>
    obtain ⟨hc, hgap⟩ := List.forall_mem_cons.1 hgap
    exact .blank hc (ih hgap)

/-- Of two heads of a text, the one with the smaller `byteSize` is a head of the other. -/
theorem Text.exists_append_of_byteSize_le {as bs cs ds : List Char} (h : as ++ bs = cs ++ ds)
    (hle : byteSize as ≤ byteSize cs) : ∃ es, cs = as ++ es ∧ bs = es ++ ds := by
  rcases List.append_eq_append_iff.1 h with ⟨es, hcs, hbs⟩ | ⟨es, rfl, rfl⟩
  · exact ⟨es, hcs, hbs⟩
  · have hlength := length_le_byteSize es
    rw [byteSize_append] at hle
    obtain rfl : es = [] := List.length_eq_zero_iff.1 (by omega)
    exact ⟨[], by simp, rfl⟩

/-- A place that no token of a `stream` without a fault reaches over is a `Border`. -/
theorem Cursor.border_of_stream {c : Cursor} {front back : List Char}
    (hrest : c.rest = front ++ back) (hfault : c.stream.2 = none)
    (hclear : ∀ t ∈ c.stream.1, t.span.stop ≤ c.position.offset + Text.byteSize front ∨
      c.position.offset + Text.byteSize front ≤ t.span.start) :
    Border c.afterDot front back := by
  have hblanks : ∀ {c : Cursor} {gap : List Char}, (∀ ch ∈ gap, Text.isBlank ch = true) →
      Border c.afterDot gap back := by
    intro c gap hgap
    have hborder := Border.blanks hgap (.here c.afterDot back)
    rwa [List.append_nil] at hborder
  fun_induction Cursor.stream c generalizing front with
  | case1 => simp at hfault
  | case2 c t c' hnext ht =>
    obtain ⟨gap, hgap, ⟨hgap', -, -⟩ | ⟨kind, lexeme, rest, hkind, -, -, rfl, -⟩⟩ :=
      next_cases hnext
    · refine hblanks fun ch hch => hgap ch ?_
      rw [← hgap', hrest]
      exact List.mem_append_left back hch
    · exact absurd ht hkind
  | case3 c t c' hnext ht _ ih =>
    obtain ⟨gap, hgap, ⟨-, heof, -⟩ | ⟨kind, lexeme, rest, -, hgap', hscan, rfl, rfl⟩⟩ :=
      next_cases hnext
    · exact absurd heof ht
    · rw [hrest] at hgap'
      rcases List.append_eq_append_iff.1 hgap' with ⟨u, rfl, -⟩ | ⟨u, rfl, hu⟩
      · exact hblanks fun ch hch => hgap ch (List.mem_append_left u hch)
      · cases u with
        | nil =>
          rw [List.append_nil]
          exact hblanks hgap
        | cons ch u =>
          -- the token starts before the place, so it ends before it as well
          have hpos := ch.utf8Size_pos
          have htoken := hclear _ (List.mem_cons_self ..)
          simp only [Span.between, Position.offset_after, Text.byteSize_append,
            Text.byteSize_cons] at htoken
          obtain ⟨front, hfront, rfl⟩ := Text.exists_append_of_byteSize_le hu (by simp; omega)
          rw [hfront]
          refine .blanks hgap (.token hscan (ih rfl hfault ?_))
          intro x hx
          have hplace := hclear x (List.mem_cons_of_mem _ hx)
          rw [hfront] at hplace
          simpa [Position.offset_after, Nat.add_assoc] using hplace

end Gxl
