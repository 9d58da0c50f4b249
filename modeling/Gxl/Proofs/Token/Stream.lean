import Gxl.Proofs.Token.Scan
import Gxl.Token.Feed

/-!
# The tokens of a text

`Cursor.stream` is everything a cursor hands out up to the end of the text or the first fault, and
`tokenize` is the stream of a text without a fault.  The grammar sees what `Feed.Gives` says a feed
hands out: genuine tokens one after another, and then either the end of the text again and again
or a fault.  A cursor gives its stream without the comments (`gives_stream`).

Tokens stand one behind the other (`pairwise_start_stream`), so the place of a token tells which
tokens come before it.
-/

namespace Gxl

/-- What a feed hands out: its tokens, with that of the kind `eof` as the last, or the tokens before
a fault and the fault. -/
inductive Feed.Gives {σ : Type} [Feed σ] : σ → List Token → Option LexError → Prop where
  | fault {s s' : σ} {e : LexError} (h : Feed.next s = (.error e, s')) : Gives s [] (some e)
  | eof {s s' : σ} {t : Token} (h : Feed.next s = (.ok t, s')) (again : Feed.next s' = (.ok t, s'))
      (ht : t.kind = .eof) (hsize : Feed.size s' ≤ Feed.size s) : Gives s [t] none
  | token {s s' : σ} {t : Token} {ts : List Token} {fault : Option LexError}
      (h : Feed.next s = (.ok t, s')) (ht : t.symbol.genuine = true)
      (hsize : Feed.size s' < Feed.size s) (hs : Gives s' ts fault) : Gives s (t :: ts) fault

/-- No token with a `genuine` symbol is the end of the text. -/
theorem kind_ne_eof_of_genuine {t : Token} (h : t.symbol.genuine = true) : t.kind ≠ .eof := by
  intro hk
  simp [Symbol.genuine, hk] at h

/-- What a feed gives, as `Feed.Gives` has it, ends with the end of the text exactly if there is no
fault. -/
theorem Feed.Gives.split {σ : Type} [Feed σ] {s : σ} {ts : List Token}
    {fault : Option LexError} (h : Feed.Gives s ts fault) :
    (fault = none ∧ ∃ code x, ts = code ++ [x] ∧ x.kind = .eof ∧
      ∀ t ∈ code, t.symbol.genuine = true) ∨
    ((∃ e, fault = some e) ∧ ∀ t ∈ ts, t.symbol.genuine = true) := by
  induction h with
  | @fault _ _ e _ => exact .inr ⟨⟨e, rfl⟩, by simp⟩
  | eof _ _ ht _ => exact .inl ⟨rfl, [], _, rfl, ht, by simp⟩
  | @token _ _ t _ _ _ ht _ _ ih =>
    rcases ih with ⟨hf, code, x, rfl, hx, hcode⟩ | ⟨hf, hts⟩
    · exact .inl ⟨hf, t :: code, x, rfl, hx, List.forall_mem_cons.2 ⟨ht, hcode⟩⟩
    · exact .inr ⟨hf, List.forall_mem_cons.2 ⟨ht, hts⟩⟩

/-- The phrase of the tokens `ts`: the symbols of those that are neither comments nor the end of the
text. -/
def phrase (ts : List Token) : Phrase :=
  symbols (ts.filter fun t => t.kind != .comment && t.kind != .eof)

namespace Cursor

/-- The tokens from the cursor `c` on, comments included, up to and with the end of the text or up
to a fault, and the fault if there is one. -/
def stream (c : Cursor) : List Token × Option LexError :=
  match h : c.next with
  | (.error e, _) => ([], some e)
  | (.ok t, c') =>
    if ht : t.kind = .eof then
      ([t], none)
    else
      have := rest_lt_of_next h ht
      (t :: c'.stream.1, c'.stream.2)
termination_by c.rest.length

/-- The tokens that the grammar sees: all of the `stream` but the comments. -/
def significant (c : Cursor) : List Token :=
  c.stream.1.filter (·.kind != .comment)

/-- Reading to the end with `toList` gives the `stream`, or the fault that ends it. -/
theorem toList_eq_stream (c : Cursor) :
    c.toList = match c.stream.2 with
      | none => .ok c.stream.1
      | some e => .error e := by
  fun_induction stream c with
  | case1 c e c' h =>
    rw [toList]
    split <;> simp_all
  | case2 c t c' h ht =>
    rw [toList]
    split <;> simp_all
  | case3 c t c' h ht hlt ih =>
    rw [toList]
    split
    · simp_all
    · rename_i t' c'' h'
      obtain ⟨rfl, rfl⟩ : t = t' ∧ c' = c'' := by simpa [h] using h'
      rw [dif_neg ht, ih]
      cases c'.stream.2 <;> rfl

/-! ## What one step hands out -/

/-- The scanner says `done` only of the empty text. -/
theorem rest_eq_nil_of_scan {afterDot : Bool} {cs : List Char}
    (h : Lexeme.scan afterDot cs = .done) : cs = [] := by
  cases cs with
  | nil => rfl
  | cons c cs =>
    exfalso
    rw [Lexeme.scan] at h
    repeat' split at h
    all_goals simp at h

/-- What a successful `read` hands out: the end of the text where nothing is left, or else the token
that `Lexeme.scan` finds at the head of the text. -/
theorem read_cases {c c' : Cursor} {t : Token} (h : c.read = (.ok t, c')) :
    (c.rest = [] ∧ t = ⟨.eof, "", .between c.position c.position.offset⟩ ∧
      c' = { c with afterDot := false }) ∨
    ∃ kind lexeme rest, Lexeme.scan c.afterDot c.rest = .token kind lexeme rest ∧ kind ≠ .eof ∧
      t = ⟨kind, String.ofList lexeme, .between c.position (c.position.after lexeme).offset⟩ ∧
      c' = c.behind kind lexeme rest := by
  unfold read at h
  split at h
  · rename_i hscan
    simp only [Prod.mk.injEq, Except.ok.injEq] at h
    exact .inl ⟨rest_eq_nil_of_scan hscan, h.1.symm, h.2.symm⟩
  · rename_i kind lexeme rest hscan
    simp only [Prod.mk.injEq, Except.ok.injEq] at h
    refine .inr ⟨kind, lexeme, rest, hscan, ?_, h.1.symm, h.2.symm⟩
    -- the end of the text is no genuine symbol, so it is never scanned
    rintro rfl
    have hgenuine := Lexeme.genuine_of_scan hscan (by simp)
    simp [Symbol.genuine] at hgenuine
  · simp at h
  · simp at h

/-- A token of `read` that is neither a comment nor the end of the text is `genuine`. -/
theorem genuine_of_read {c c' : Cursor} {t : Token} (h : c.read = (.ok t, c'))
    (heof : t.kind ≠ .eof) (hcomment : t.kind ≠ .comment) : t.symbol.genuine = true := by
  obtain ⟨-, rfl, -⟩ | ⟨kind, lexeme, rest, hscan, -, rfl, -⟩ := read_cases h
  · exact absurd rfl heof
  · exact Lexeme.genuine_of_scan hscan hcomment

/-- A successful `next` does not lengthen the text that is left. -/
theorem rest_le_of_next {c c' : Cursor} {t : Token} (h : c.next = (.ok t, c')) :
    c'.rest.length ≤ c.rest.length := by
  refine Nat.le_trans ?_ (length_skipBlanks_le c)
  obtain ⟨-, -, rfl⟩ | ⟨kind, lexeme, rest, hscan, -, -, rfl⟩ := read_cases h
  · exact Nat.le_refl _
  · exact Nat.le_of_lt (Lexeme.length_rest_lt hscan)

/-- The end of the text is handed out by `next` again and again. -/
theorem next_of_next_eof {c c' : Cursor} {t : Token} (h : c.next = (.ok t, c'))
    (ht : t.kind = .eof) : c'.next = (.ok t, c') := by
  obtain ⟨hrest, rfl, rfl⟩ | ⟨kind, lexeme, rest, -, hkind, rfl, -⟩ := read_cases h
  · -- behind the blanks there is nothing, and so there are no blanks either
    generalize c.skipBlanks = d at hrest
    simp [next, skipBlanks, read, hrest, Lexeme.scan]
  · exact absurd ht hkind

/-- A token of the kind `eof` has no text of its own when `next` hands it out. -/
theorem text_of_next_eof {c c' : Cursor} {t : Token} (h : c.next = (.ok t, c'))
    (ht : t.kind = .eof) : t.text = "" := by
  obtain ⟨-, rfl, -⟩ | ⟨kind, lexeme, rest, -, hkind, rfl, -⟩ := read_cases h
  · rfl
  · exact absurd ht hkind

/-- A token of the kind `eof` has no text of its own in a `stream`. -/
theorem text_of_mem_stream {c : Cursor} {t : Token} (h : t ∈ c.stream.1) (ht : t.kind = .eof) :
    t.text = "" := by
  fun_induction stream c with
  | case1 => simp at h
  | case2 c u c' hnext hu =>
    obtain rfl : t = u := by simpa using h
    exact text_of_next_eof hnext hu
  | case3 c u c' hnext hu hlt ih =>
    rcases List.mem_cons.1 h with rfl | h
    · exact absurd ht hu
    · exact ih h

/-! ## What a cursor gives -/

/-- A feed whose next token is that of a smaller one gives what the smaller one gives, as
`Feed.Gives` has it. -/
theorem gives_of_next_eq {c c' : Cursor} {ts : List Token} {fault : Option LexError}
    (hnext : c.nextSignificant = c'.nextSignificant) (hsize : c'.rest.length ≤ c.rest.length)
    (h : Feed.Gives c' ts fault) : Feed.Gives c ts fault := by
  cases h with
  | fault h => exact .fault (hnext.trans h)
  | eof h again ht hle => exact .eof (hnext.trans h) again ht (Nat.le_trans hle hsize)
  | token h ht hlt hs => exact .token (hnext.trans h) ht (Nat.lt_of_lt_of_le hlt hsize) hs

/-- A cursor feeds the `significant` tokens of its `stream`, and its fault. -/
theorem gives_stream (c : Cursor) : Feed.Gives c c.significant c.stream.2 := by
  unfold significant
  fun_induction stream c with
  | case1 c e c' h =>
    have hnext : c.nextSignificant = (.error e, c') := by
      rw [nextSignificant]
      split <;> simp_all
    exact .fault hnext
  | case2 c t c' h ht =>
    have again := next_of_next_eof h ht
    have hnext : ∀ d : Cursor, d.next = (.ok t, c') → d.nextSignificant = (.ok t, c') := by
      intro d hd
      rw [nextSignificant]
      split <;> simp_all
    simpa [ht] using Feed.Gives.eof (hnext c h) (hnext c' again) ht (rest_le_of_next h)
  | case3 c t c' h ht hlt ih =>
    by_cases hc : t.kind = .comment
    · -- a comment is passed over, and the feed goes on from behind it
      have hnext : c.nextSignificant = c'.nextSignificant := by
        rw [nextSignificant]
        split <;> simp_all
      simpa [hc] using gives_of_next_eq hnext (Nat.le_of_lt hlt) ih
    · have hnext : c.nextSignificant = (.ok t, c') := by
        rw [nextSignificant]
        split <;> simp_all
      simpa [hc] using Feed.Gives.token hnext (genuine_of_read h ht hc) hlt ih

/-- The `significant` tokens of a text without a fault: those of its `phrase`, and the end of the
text. -/
theorem significant_of_no_fault {c : Cursor} (h : c.stream.2 = none) :
    ∃ code x, c.significant = code ++ [x] ∧ x.kind = .eof ∧ (∀ t ∈ code, t.kind ≠ .eof) ∧
      symbols code = phrase c.stream.1 := by
  rcases (gives_stream c).split with ⟨-, code, x, hsplit, hx, hcode⟩ | ⟨⟨e, he⟩, -⟩
  · have heof : ∀ t ∈ code, t.kind ≠ .eof := fun t ht => kind_ne_eof_of_genuine (hcode t ht)
    refine ⟨code, x, hsplit, hx, heof, ?_⟩
    have hfilter : (c.significant.filter (·.kind != .eof)) = code := by
      rw [hsplit, List.filter_append, List.filter_eq_self.2]
      · simp [hx]
      · simpa using heof
    rw [phrase, ← hfilter, significant, List.filter_filter]
    simp only [Bool.and_comm]
  · rw [h] at he
    simp at he

/-- The `significant` tokens of a text before a fault: those of its `phrase`. -/
theorem significant_of_fault {c : Cursor} {e : LexError} (h : c.stream.2 = some e) :
    (∀ t ∈ c.significant, t.kind ≠ .eof) ∧ symbols c.significant = phrase c.stream.1 := by
  rcases (gives_stream c).split with ⟨hnone, -⟩ | ⟨-, hcode⟩
  · rw [h] at hnone
    simp at hnone
  · have heof : ∀ t ∈ c.significant, t.kind ≠ .eof := fun t ht =>
      kind_ne_eof_of_genuine (hcode t ht)
    have hfilter : (c.significant.filter (·.kind != .eof)) = c.significant := by
      rw [List.filter_eq_self]
      simpa using heof
    refine ⟨heof, ?_⟩
    rw [phrase, ← hfilter, significant, List.filter_filter]
    simp only [Bool.and_comm]

/-! ## The order of tokens -/

/-- A token that `next` hands out starts where the blanks before it end, and the text goes on behind
that place. -/
theorem start_of_next {c c' : Cursor} {t : Token} (h : c.next = (.ok t, c')) :
    c.position.offset ≤ t.span.start ∧
      (t.kind ≠ .eof → t.span.start < c'.position.offset) := by
  have hblanks : c.position.offset ≤ c.skipBlanks.position.offset := by
    rw [skipBlanks, Position.offset_after]
    exact Nat.le_add_right _ _
  obtain ⟨-, rfl, -⟩ | ⟨kind, lexeme, rest, hscan, -, rfl, rfl⟩ := read_cases h
  · exact ⟨hblanks, fun hk => absurd rfl hk⟩
  · refine ⟨hblanks, fun _ => ?_⟩
    -- a lexeme has a character, and a character has at least one byte
    obtain ⟨d, ds, rfl⟩ := List.exists_cons_of_ne_nil (Lexeme.scan_ne_nil hscan)
    have hpos := d.utf8Size_pos
    simp only [behind, Span.between, Position.offset_after, Text.byteSize_cons]
    omega

/-- Every token of a `stream` starts behind those before it. -/
theorem pairwise_start_stream (c : Cursor) :
    (∀ t ∈ c.stream.1, c.position.offset ≤ t.span.start) ∧
      c.stream.1.Pairwise (fun t u => t.span.start < u.span.start) := by
  fun_induction stream c with
  | case1 => simp
  | case2 c t c' h ht => simpa using (start_of_next h).1
  | case3 c t c' h ht hlt ih =>
    obtain ⟨hfrom, hpair⟩ := ih
    have hstart := start_of_next h
    have hbehind : ∀ u ∈ c'.stream.1, t.span.start < u.span.start := fun u hu =>
      Nat.lt_of_lt_of_le (hstart.2 ht) (hfrom u hu)
    refine ⟨?_, List.pairwise_cons.2 ⟨hbehind, hpair⟩⟩
    rintro u (_ | ⟨_, hu⟩)
    · exact hstart.1
    · exact Nat.le_trans hstart.1 (Nat.le_of_lt (hbehind u hu))

end Cursor

end Gxl
