import Gxl.Proofs.Token.Builtins
import Gxl.Proofs.Token.Lexes

/-!
# Blanks and comments between tokens

Blanks and comments may be put in wherever a token ends or could start, and the tokens stay the
same, comments aside (`tokenize_insert`).

What is read depends on more than the text of each token: a number asks for the two characters
behind it, a word for one, the name of a builtin command for everything up to the next token, and a
comment takes what stands behind it on its line.  So the proof goes along the tokens up to the place
where the text changes (`Border`) and shows, for each of them, that it is scanned as before
(`Border.scan_insert`).
-/

namespace Gxl

/-! ## Extras in a text -/

/-- A text of `Text.Extras` either stays on one line, or goes on as extras behind the end of their
first line. -/
theorem Text.Extras.split_line {x : List Char} (h : Text.Extras x) :
    (∀ c ∈ x, c ≠ '\n') ∨
      ∃ line more, x = line ++ '\n' :: more ∧ (∀ c ∈ line, c ≠ '\n') ∧ Text.Extras more := by
  induction h with
  | nil => exact .inl (by simp)
  | @blank c cs hc hcs ih =>
    by_cases hline : c = '\n'
    · subst hline
      exact .inr ⟨[], cs, rfl, by simp, hcs⟩
    · rcases ih with hall | ⟨line, more, rfl, hbody, hmore⟩
      · exact .inl (List.forall_mem_cons.2 ⟨hline, hall⟩)
      · exact .inr ⟨c :: line, more, rfl, List.forall_mem_cons.2 ⟨hline, hbody⟩, hmore⟩
  | @comment body cs _ hbody hcs _ =>
    exact .inr ⟨'#' :: body, cs, rfl, List.forall_mem_cons.2 ⟨by decide, hbody⟩, hcs⟩

namespace Lexeme

/-- A text of `Text.Extras` lengthens no word and no number: it satisfies `Ends`. -/
theorem ends_of_extras {x : List Char} (h : Text.Extras x) : Ends x := by
  cases h with
  | nil => exact ends_nil
  | @blank c cs hc _ =>
    refine ends_cons.2 ⟨isWordChar_eq_false_of_isBlank hc, ?_⟩
    rintro rfl
    simp [Text.isBlank] at hc
  | comment => exact ends_cons.2 (by decide)

/-- Extras between `front` and `back` leave the character behind a lexeme one that fails the test
`p`. -/
theorem head_insert {p : Char → Bool} {front back x : List Char}
    (hfront : ∀ c ∈ (front ++ back).head?, p c = false) (hx : ∀ c ∈ x.head?, p c = false) :
    ∀ c ∈ (front ++ (x ++ back)).head?, p c = false := by
  cases front with
  | cons c front => exact hfront
  | nil =>
    cases x with
    | cons c x => exact hx
    | nil => exact hfront

/-- The function `number` finds the same literal before `rest'`, if that neither lengthens its
digits nor offers it a fraction that `rest` has not offered before. -/
theorem number_congr_rest {cs rest rest' : List Char} (h : number (cs ++ rest) = (cs, rest))
    (hdigit : ∀ c ∈ rest'.head?, c.isDigit = false)
    (hfraction : offersFraction rest' = true → offersFraction rest = true) :
    number (cs ++ rest') = (cs, rest') := by
  generalize cs ++ rest = text at h
  have hwhole : ∀ c ∈ text.takeWhile Char.isDigit, c.isDigit = true :=
    List.all_eq_true.1 List.all_takeWhile
  revert h
  fun_cases number text with
  | case1 whole d tail _ hd =>
    rintro h
    obtain ⟨rfl, -⟩ := Prod.mk.inj h
    exact number_fraction hwhole (by simp [hd]) (List.all_eq_true.1 List.all_takeWhile) hdigit
  | case2 whole d tail _ hd =>
    rintro h
    obtain ⟨rfl, rfl⟩ := Prod.mk.inj h
    refine number_digits hwhole hdigit (Bool.eq_false_iff.2 fun hoffers => hd ?_)
    simpa [offersFraction] using hfraction hoffers
  | case3 whole hno =>
    rintro h
    obtain ⟨rfl, rfl⟩ := Prod.mk.inj h
    refine number_digits hwhole hdigit (Bool.eq_false_iff.2 fun hoffers => ?_)
    have hold := hfraction hoffers
    unfold offersFraction at hold
    split at hold
    · rename_i c d tail hdrop
      simp only [Bool.and_eq_true, beq_iff_eq] at hold
      exact hno d tail (hold.1 ▸ hdrop)
    · simp at hold

/-- The text that `number` leaves starts with no digit. -/
theorem head_of_number {cs lexeme rest : List Char} (h : number cs = (lexeme, rest)) :
    ∀ c ∈ rest.head?, c.isDigit = false := by
  obtain rfl : (number cs).2 = rest := by rw [h]
  fun_cases number cs with
  | case1 => exact head_dropWhile _ _
  | case2 whole d tail _ _ => simp
  | case3 => exact head_dropWhile _ _

/-- A text that starts with a digit is scanned as `number` says. -/
theorem scan_isDigit (afterDot : Bool) {c : Char} (cs : List Char) (hc : c.isDigit = true) :
    scan afterDot (c :: cs) = .token .number (number (c :: cs)).1 (number (c :: cs)).2 := by
  have hhash : c ≠ '#' := by
    rintro rfl
    simp at hc
  have hquote : c ≠ '"' := by
    rintro rfl
    simp at hc
  simp [scan, hhash, hquote, hc]

/-- A token of the kind `number` starts with a digit and is what the function `number` splits
off. -/
theorem scan_number_cases {afterDot : Bool} {lexeme rest : List Char}
    (h : scan afterDot (lexeme ++ rest) = .token .number lexeme rest) :
    ∃ c cs, lexeme = c :: cs ∧ c.isDigit = true ∧ number (lexeme ++ rest) = (lexeme, rest) := by
  have hnumeral : isNumeral lexeme = true := by
    have hgenuine := genuine_of_scan h (by simp)
    simpa [Symbol.genuine] using hgenuine
  cases lexeme with
  | nil => simp [isNumeral] at hnumeral
  | cons c cs =>
    have hc : c.isDigit = true := (Bool.and_eq_true_iff.1 hnumeral).1
    rw [List.cons_append, scan_isDigit afterDot _ hc] at h
    obtain ⟨-, hlexeme, hrest⟩ := Scan.token.inj h
    exact ⟨c, cs, rfl, hc, Prod.ext hlexeme hrest⟩

/-- Extras between `front` and `back` make `offersFraction` true only if it was. -/
theorem offersFraction_insert {front back x : List Char} (hx : Ends x)
    (h : offersFraction (front ++ (x ++ back)) = true) :
    offersFraction (front ++ back) = true := by
  cases x with
  | nil => exact h
  | cons e x =>
    obtain ⟨hword, hdot⟩ := ends_cons.1 hx
    match front with
    | [] =>
      -- there is no point
      cases hback : x ++ back <;> simp [offersFraction, hback, hdot] at h
    | [c] =>
      -- what follows a point is no digit
      simp [offersFraction, isDigit_eq_false_of_isWordChar hword] at h
    | c :: d :: front => exact h

/-! ## The test for a call -/

/-- The test `opensCall` passes over a blank. -/
theorem opensCall_blank {c : Char} (hc : Text.isBlank c = true) (cs : List Char) :
    opensCall false (c :: cs) = opensCall false cs := by
  simp [opensCall, hc]

/-- Where a line ends, `opensCall` says the same inside a comment and outside. -/
theorem opensCall_end_of_line {cs : List Char} (h : ∀ c ∈ cs.head?, c = '\n') :
    opensCall true cs = opensCall false cs := by
  cases cs with
  | nil => rfl
  | cons c cs =>
    obtain rfl := h c rfl
    rfl

/-- A comment that `scan` finds is a hash sign and the rest of its line, and does not open an
annotation. -/
theorem scan_comment_cases {afterDot : Bool} {cs lexeme rest : List Char}
    (h : scan afterDot cs = .token .comment lexeme rest) :
    ∃ body, lexeme = '#' :: body ∧ (∀ c ∈ body, c ≠ '\n') ∧ (body ++ rest).head? ≠ some '[' ∧
      ∀ c ∈ rest.head?, c = '\n' := by
  fun_cases scan afterDot cs with
  | case3 cs hopen =>
    obtain ⟨rfl, rfl⟩ : _ = lexeme ∧ _ = rest := by simpa [scan, hopen] using h
    refine ⟨_, rfl, ?_, ?_, ?_⟩
    · intro c hc
      simpa using List.all_eq_true.1 List.all_takeWhile c hc
    · rwa [List.takeWhile_append_dropWhile]
    · intro c hc
      simpa using head_dropWhile (· != '\n') cs c hc
  | case7 c cs h₁ h₂ h₃ h₄ =>
    obtain ⟨hkind, -, -⟩ : _ ∧ _ = _ ∧ _ = _ := by simpa [scan, h₁, h₂, h₃, h₄] using h
    revert hkind
    fun_cases word afterDot (c :: cs) <;> simp
  | case8 c cs h₁ h₂ h₃ h₄ k hk =>
    obtain ⟨rfl, -⟩ : k = _ ∧ _ := by simpa [scan, h₁, h₂, h₃, h₄, hk] using h
    have hall : ∀ p ∈ Kind.signs, p.2 ≠ .comment := by decide
    exact absurd rfl (hall _ (mem_signs_of_ofSign? hk))
  | _ => simp_all [scan]

/-- The converse of `scan_comment_cases`: a hash sign and the rest of its line are a comment for
`scan`. -/
theorem scan_comment (afterDot : Bool) {body rest : List Char} (hbody : ∀ c ∈ body, c ≠ '\n')
    (hopen : (body ++ rest).head? ≠ some '[') (hrest : ∀ c ∈ rest.head?, c = '\n') :
    scan afterDot ('#' :: (body ++ rest)) = .token .comment ('#' :: body) rest := by
  have hsplit := takeWhile_dropWhile_append (· != '\n') rest (by simpa using hbody)
    (by simpa using hrest)
  rw [scan, if_pos rfl, if_neg hopen, hsplit.1, hsplit.2]

/-- Extras behind a comment leave `opensCall` where the comment has left it, be they within its line
or beyond. -/
theorem opensCall_comment_extras {x back : List Char} (hx : Text.Extras x)
    (hback : ∀ c ∈ back.head?, c = '\n') :
    opensCall true (x ++ back) = opensCall true back := by
  rcases hx.split_line with hline | ⟨line, more, rfl, hline, hmore⟩
  · exact opensCall_line back hline
  · -- the line ends, and the test is outside of a comment again
    have hline : opensCall true (line ++ '\n' :: more ++ back)
        = opensCall false (more ++ back) := by
      rw [List.append_assoc, opensCall_line _ hline]
      rfl
    rw [hline, opensCall_extras hmore, opensCall_end_of_line hback]

/-- Extras between `front` and `back` bring no bracket behind a hash sign, so no annotation is
opened by them. -/
theorem head_ne_insert {front back x : List Char} (hx : Text.Extras x)
    (h : (front ++ back).head? ≠ some '[') : (front ++ (x ++ back)).head? ≠ some '[' := by
  cases front with
  | cons c front => exact h
  | nil =>
    cases hx with
    | nil => exact h
    | @blank c cs hc _ =>
      have hne : c ≠ '[' := by
        rintro rfl
        simp [Text.isBlank] at hc
      simpa using hne
    | comment => simp

/-- What `opensCall` says is decided by the first character of a token that is no comment. -/
theorem opensCall_token {afterDot : Bool} {kind : Kind} {lexeme rest : List Char}
    (h : scan afterDot (lexeme ++ rest) = .token kind lexeme rest) (hkind : kind ≠ .comment)
    (rest' : List Char) : opensCall false (lexeme ++ rest') = opensCall false (lexeme ++ rest) := by
  obtain ⟨c, cs, rfl⟩ := List.exists_cons_of_ne_nil (scan_ne_nil h)
  have hblank : ¬ Text.isBlank c = true := by
    intro hc
    rw [List.cons_append, scan_blank afterDot _ hc] at h
    simp at h
  by_cases hc : c = '#'
  · -- a hash sign without a comment is the first half of another sign
    subst hc
    by_cases hopen : (cs ++ rest).head? = some '['
    · rw [List.cons_append, scan, if_pos rfl, if_pos hopen] at h
      obtain ⟨-, hcs, -⟩ := Scan.token.inj h
      obtain rfl : cs = ['['] := (List.cons.inj hcs).2.symm
      rfl
    · rw [List.cons_append, scan, if_pos rfl, if_neg hopen] at h
      exact absurd (Scan.token.inj h).1.symm hkind
  · simp [opensCall, hblank, hc]

end Lexeme

namespace Lexeme

/-- A word that `scan` finds is the longest one, and does not go on as `builtinTail` has it. -/
theorem scan_ident_cases {afterDot : Bool} {cs lexeme rest : List Char}
    (h : scan afterDot cs = .token .ident lexeme rest) :
    isWord lexeme = true ∧ (∀ c ∈ rest.head?, isWordChar c = false) ∧
      (afterDot = true ∨ lexeme ≠ ['g', 'x'] ∨ builtinTail rest = none) := by
  have hword : isWord lexeme = true := by
    have hgenuine := genuine_of_scan h (by simp)
    simpa [Symbol.genuine] using hgenuine
  refine ⟨hword, ?_⟩
  fun_cases scan afterDot cs with
  | case7 c cs h₁ h₂ h₃ h₄ =>
    obtain ⟨hkind, rfl, rfl⟩ : _ ∧ _ = _ ∧ _ = _ := by simpa [scan, h₁, h₂, h₃, h₄] using h
    revert hkind
    fun_cases word afterDot (c :: cs) with
    | case1 => simp
    | case2 text rest hgx hnone => exact fun _ => ⟨head_dropWhile _ _, .inr (.inr hnone)⟩
    | case3 text rest hgx =>
      refine fun _ => ⟨head_dropWhile _ _, ?_⟩
      cases afterDot with
      | true => exact .inl rfl
      | false => exact .inr (.inl (by simpa using hgx))
  | case8 c cs h₁ h₂ h₃ h₄ k hk =>
    obtain ⟨rfl, -⟩ : k = _ ∧ _ := by simpa [scan, h₁, h₂, h₃, h₄, hk] using h
    have hall : ∀ p ∈ Kind.signs, p.2 ≠ .ident := by decide
    exact absurd rfl (hall _ (mem_signs_of_ofSign? hk))
  | _ => simp_all [scan]

end Lexeme

namespace Border

variable {afterDot : Bool} {front back x : List Char}

/-- Extras at a `Border` do not change what `opensCall` finds. -/
theorem opensCall_insert (h : Border afterDot front back) (hx : Text.Extras x) :
    Lexeme.opensCall false (front ++ (x ++ back)) = Lexeme.opensCall false (front ++ back) := by
  induction h with
  | here afterDot back => exact Lexeme.opensCall_extras hx back
  | blank hc _ ih =>
    rw [List.cons_append, List.cons_append, Lexeme.opensCall_blank hc, Lexeme.opensCall_blank hc,
      ih]
  | @token afterDot kind lexeme front back hscan hborder ih =>
    rw [List.append_assoc, List.append_assoc]
    by_cases hkind : kind = .comment
    · subst hkind
      obtain ⟨body, rfl, hbody, hopen, hline⟩ := Lexeme.scan_comment_cases hscan
      have hopen' : (body ++ (front ++ (x ++ back))).head? ≠ some '[' := by
        rw [← List.append_assoc] at hopen ⊢
        exact Lexeme.head_ne_insert hx hopen
      rw [List.cons_append, List.cons_append, Lexeme.opensCall_hash hbody hopen',
        Lexeme.opensCall_hash hbody hopen]
      cases front with
      | nil => exact Lexeme.opensCall_comment_extras hx hline
      | cons c front =>
        rw [Lexeme.opensCall_end_of_line hline, Lexeme.opensCall_end_of_line, ih]
        exact hline
    · exact Lexeme.opensCall_token hscan hkind _

/-- Behind a dot that starts the first part, the `Border` is one as well, now with `afterDot`
set. -/
theorem behind_dot (h : Border afterDot ('.' :: front) back) : Border true front back := by
  generalize hall : '.' :: front = all at h
  cases h with
  | here => simp at hall
  | blank hc _ =>
    obtain ⟨rfl, -⟩ := List.cons.inj hall
    simp [Text.isBlank] at hc
  | @token _ kind lexeme front' _ hscan hborder =>
    have htext : lexeme ++ (front' ++ back) = '.' :: (front ++ back) := by
      rw [← List.append_assoc, ← hall]
      rfl
    have hdot : Lexeme.scan afterDot ('.' :: (front ++ back)) = .token .dot ['.'] (front ++ back) :=
      Lexeme.scan_sign (k := .dot) afterDot _ (by decide)
    rw [htext, hdot] at hscan
    obtain ⟨rfl, rfl, -⟩ := Lexeme.Scan.token.inj hscan
    obtain rfl : front = front' := (List.cons.inj hall).2
    exact hborder

/-- Behind a word that starts the first part and follows a dot, the `Border` is one as well. -/
theorem behind_word {c : Char} (h : Border true (c :: front) back)
    (hc : Lexeme.isWordStart c = true) :
    ∃ w front', c :: front = w ++ front' ∧ Lexeme.isWord w = true ∧
      (∀ ch ∈ (front' ++ back).head?, Lexeme.isWordChar ch = false) ∧ Border false front' back := by
  generalize hall : c :: front = all at h
  cases h with
  | here => simp at hall
  | blank hblank _ =>
    obtain ⟨rfl, -⟩ := List.cons.inj hall
    have hchar := Lexeme.isWordChar_of_isWordStart hc
    rw [Lexeme.isWordChar_eq_false_of_isBlank hblank] at hchar
    simp at hchar
  | @token _ kind lexeme front' _ hscan hborder =>
    have hkind : kind = .ident := by
      rw [← List.append_assoc, ← hall, List.cons_append,
        Lexeme.scan_isWordStart true (front ++ back) hc] at hscan
      exact (Lexeme.Scan.token.inj hscan).1.symm
    subst hkind
    obtain ⟨hword, hlongest, -⟩ := Lexeme.scan_ident_cases hscan
    exact ⟨lexeme, front', rfl, hword, hlongest, hborder⟩

/-- A dot and a word that would stand before a `Border` with extras stand before it without them. -/
theorem word_of_insert {w rest : List Char} (h : Border false front back) (hx : Text.Extras x)
    (hne : x ≠ []) (htext : front ++ (x ++ back) = '.' :: (w ++ rest))
    (hw : Lexeme.isWord w = true) (hrest : ∀ c ∈ rest.head?, Lexeme.isWordChar c = false) :
    ∃ front', front = '.' :: (w ++ front') ∧ rest = front' ++ (x ++ back) ∧
      (∀ c ∈ (front' ++ back).head?, Lexeme.isWordChar c = false) ∧ Border false front' back := by
  have hends := Lexeme.ends_of_extras hx
  obtain ⟨e, x, rfl⟩ := List.exists_cons_of_ne_nil hne
  obtain ⟨hword, hdot⟩ := Lexeme.ends_cons.1 hends
  obtain ⟨c, w, rfl⟩ : ∃ c w', w = c :: w' := by
    cases w with
    | nil => simp [Lexeme.isWord] at hw
    | cons c w => exact ⟨c, w, rfl⟩
  have hstart : Lexeme.isWordStart c = true := (Bool.and_eq_true_iff.1 hw).1
  -- neither the dot nor the first character of the word can come from the extras
  rcases front with _ | ⟨d, _ | ⟨d', front⟩⟩
  · exact absurd (List.cons.inj htext).1 hdot
  · obtain ⟨rfl, -⟩ := List.cons.inj (List.cons.inj htext).2
    rw [Lexeme.isWordChar_of_isWordStart hstart] at hword
    simp at hword
  · obtain ⟨rfl, hbehind⟩ := List.cons.inj htext
    obtain ⟨rfl, -⟩ := List.cons.inj hbehind
    obtain ⟨w', front', hsplit, hw', hlongest, hborder⟩ := h.behind_dot.behind_word hstart
    -- both words are the longest that the text behind the dot starts with
    have hlongest' := Lexeme.head_insert hlongest fun c hc => (hends c hc).1
    have hword' := Lexeme.takeWhile_dropWhile_append Lexeme.isWordChar _
      (Lexeme.isWordChar_of_isWord hw') hlongest'
    have hword := Lexeme.takeWhile_dropWhile_append Lexeme.isWordChar rest
      (Lexeme.isWordChar_of_isWord hw) hrest
    have hall : w' ++ (front' ++ (e :: x ++ back)) = d' :: w ++ rest := by
      rw [← List.append_assoc, ← hsplit]
      exact hbehind
    rw [hall] at hword'
    obtain rfl := hword'.1.symm.trans hword.1
    exact ⟨front', by rw [hsplit], hword.2.symm.trans hword'.2, hlongest, hborder⟩

/-- Extras at a `Border` do not give the word before the text a `builtinTail`. -/
theorem builtinTail_insert (h : Border false front back) (hx : Text.Extras x)
    (hnone : Lexeme.builtinTail (front ++ back) = none) :
    Lexeme.builtinTail (front ++ (x ++ back)) = none := by
  by_cases hne : x = []
  · rwa [hne, List.nil_append]
  rw [Option.eq_none_iff_forall_ne_some]
  rintro ⟨tail, rest⟩ hsome
  obtain ⟨w, rfl, hcalls⟩ := Lexeme.builtinTail_cases hsome
  have htext : front ++ (x ++ back) = '.' :: (w ++ rest) := by simpa using hcalls.text
  obtain ⟨front', rfl, rfl, hlongest, hborder⟩ :=
    h.word_of_insert hx hne htext hcalls.isWord hcalls.longest
  obtain ⟨b, hb⟩ := hcalls.names
  have hname : b.name.toList = ['g', 'x'] ++ '.' :: w := by simp [hb]
  have hopens : Lexeme.opensCall false (front' ++ back) = true := by
    rw [← hborder.opensCall_insert hx]
    exact Lexeme.opensCall_iff.2 hcalls.opens
  have hbuiltin := Lexeme.builtinTail_of_name hname hcalls.isWord hopens hlongest
  rw [List.cons_append, List.append_assoc, hbuiltin] at hnone
  simp at hnone

/-- The scanner `scan` finds a token before a `Border` as before when extras are put in, if it is no
comment. -/
theorem scan_insert {kind : Kind} {lexeme : List Char} (hx : Text.Extras x)
    (hscan : Lexeme.scan afterDot (lexeme ++ (front ++ back)) = .token kind lexeme (front ++ back))
    (hkind : kind ≠ .comment) (h : Border (kind == .dot) front back) :
    Lexeme.scan afterDot (lexeme ++ (front ++ (x ++ back)))
      = .token kind lexeme (front ++ (x ++ back)) := by
  have hends := Lexeme.ends_of_extras hx
  have hgenuine := Lexeme.genuine_of_scan hscan hkind
  by_cases hspelling : kind.spelling = ""
  · -- a kind whose text is not fixed
    cases kind with
    | ident =>
      obtain ⟨hword, hlongest, hgx⟩ := Lexeme.scan_ident_cases hscan
      refine Lexeme.scan_word hword (Lexeme.head_insert hlongest fun c hc => (hends c hc).1) ?_
      exact hgx.imp_right (Or.imp_right (h.builtinTail_insert hx))
    | str =>
      have hquoted : Lexeme.isQuoted lexeme = true := by
        simpa [Symbol.genuine] using hgenuine
      exact Lexeme.scan_quoted afterDot _ hquoted
    | number =>
      obtain ⟨c, digits, rfl, hc, hnumber⟩ := Lexeme.scan_number_cases hscan
      have hdigit := Lexeme.head_insert (Lexeme.head_of_number hnumber)
        fun c hc => Lexeme.isDigit_eq_false_of_isWordChar (hends c hc).1
      have hnumber' := Lexeme.number_congr_rest hnumber hdigit (Lexeme.offersFraction_insert hends)
      rw [List.cons_append] at hnumber' ⊢
      rw [Lexeme.scan_isDigit afterDot _ hc, hnumber']
    | builtin =>
      obtain ⟨rfl, w, rfl, htext, hword, hlongest, hnames, hopens⟩ :=
        Lexeme.scan_builtin_iff.1 hscan
      refine Lexeme.scan_builtin_iff.2 ⟨rfl, w, rfl, rfl, hword, ?_, hnames, ?_⟩
      · exact Lexeme.head_insert hlongest fun c hc => (hends c hc).1
      · rw [← Lexeme.opensCall_iff, h.opensCall_insert hx]
        exact Lexeme.opensCall_iff.2 hopens
    | comment => exact absurd rfl hkind
    | eof => simp [Symbol.genuine] at hgenuine
    | _ => simp [Kind.spelling] at hspelling
  · have hsign := Symbol.eq_sign_of_genuine hgenuine hspelling
    obtain rfl : lexeme = kind.spelling.toList := by
      simpa [Symbol.sign] using congrArg (fun s => s.text.toList) hsign
    exact Lexeme.scan_sign afterDot _ hspelling

end Border

namespace Lexes

variable {afterDot : Bool} {cs : List Char} {v : Phrase}

/-- A text of `Text.Extras` before another does not count for `Lexes`. -/
theorem extras {x : List Char} (hx : Text.Extras x) (h : Lexes afterDot cs v) :
    Lexes afterDot (x ++ cs) v := by
  induction hx with
  | nil => exact h
  | blank hc _ ih => exact .blank hc ih
  | @comment body x hopen hbody _ ih =>
    have hhead : (body ++ '\n' :: (x ++ cs)).head? ≠ some '[' := by
      cases body with
      | nil => simp
      | cons c body => simpa using hopen
    have hscan : Lexeme.scan afterDot ('#' :: (body ++ '\n' :: (x ++ cs)))
        = .token .comment ('#' :: body) ('\n' :: (x ++ cs)) :=
      Lexeme.scan_comment afterDot hbody hhead (by simp)
    have htext : '#' :: (body ++ '\n' :: x) ++ cs = '#' :: (body ++ '\n' :: (x ++ cs)) := by simp
    rw [htext]
    exact .comment hscan (.blank (by decide) ih)

/-- A token that `scan` finds at the head of a text is the first symbol for `Lexes`, unless it is a
comment. -/
theorem of_scan {kind : Kind} {lexeme rest : List Char}
    (hscan : Lexeme.scan afterDot cs = .token kind lexeme rest) (h : Lexes afterDot cs v) :
    (kind = .comment ∧ Lexes afterDot rest v) ∨
      (kind ≠ .comment ∧ ∃ v', v = ⟨kind, String.ofList lexeme⟩ :: v' ∧
        Lexes (kind == .dot) rest v') := by
  cases h with
  | nil => simp [Lexeme.scan] at hscan
  | blank hc _ =>
    rw [Lexeme.scan_blank afterDot _ hc] at hscan
    simp at hscan
  | comment hscan' h =>
    obtain ⟨rfl, rfl, rfl⟩ := Lexeme.Scan.token.inj (hscan.symm.trans hscan')
    exact .inl ⟨rfl, h⟩
  | symbol hscan' hkind h =>
    obtain ⟨rfl, rfl, rfl⟩ := Lexeme.Scan.token.inj (hscan.symm.trans hscan')
    exact .inr ⟨hkind, _, rfl, h⟩

/-- A comment takes `Text.Extras` behind it as far as its line goes, and the others do not count for
`Lexes`. -/
theorem comment_extras {body x back : List Char} (hx : Text.Extras x)
    (hbody : ∀ c ∈ body, c ≠ '\n') (hopen : (body ++ back).head? ≠ some '[')
    (hback : ∀ c ∈ back.head?, c = '\n') (h : Lexes afterDot back v) :
    Lexes afterDot ('#' :: (body ++ (x ++ back))) v := by
  have hopen' := Lexeme.head_ne_insert hx hopen
  rcases hx.split_line with hline | ⟨line, more, rfl, hline, hmore⟩
  · have hall : ∀ c ∈ body ++ x, c ≠ '\n' := List.forall_mem_append.2 ⟨hbody, hline⟩
    rw [← List.append_assoc] at hopen' ⊢
    exact .comment (Lexeme.scan_comment afterDot hall hopen' hback) h
  · have hall : ∀ c ∈ body ++ line, c ≠ '\n' := List.forall_mem_append.2 ⟨hbody, hline⟩
    have htext : body ++ (line ++ '\n' :: more ++ back)
        = body ++ line ++ '\n' :: (more ++ back) := by simp
    rw [htext] at hopen' ⊢
    exact .comment (Lexeme.scan_comment afterDot hall hopen' (by simp))
      (.blank (by decide) (h.extras hmore))

/-- A text of `Text.Extras` put in at a `Border` does not count for `Lexes`. -/
theorem insert {front back x : List Char} (hborder : Border afterDot front back)
    (hx : Text.Extras x) (h : Lexes afterDot (front ++ back) v) :
    Lexes afterDot (front ++ (x ++ back)) v := by
  induction hborder generalizing v with
  | here afterDot back =>
    rw [List.nil_append]
    exact h.extras hx
  | @blank afterDot c front back hc _ ih =>
    cases h with
    | blank _ h => exact .blank hc (ih h)
    | comment hscan _ =>
      rw [List.cons_append, Lexeme.scan_blank afterDot _ hc] at hscan
      simp at hscan
    | symbol hscan _ _ =>
      rw [List.cons_append, Lexeme.scan_blank afterDot _ hc] at hscan
      simp at hscan
  | @token afterDot kind lexeme front back hscan hborder ih =>
    rw [List.append_assoc] at h ⊢
    obtain ⟨rfl, hrest⟩ | ⟨hkind, v, rfl, hrest⟩ := h.of_scan hscan
    · obtain ⟨body, rfl, hbody, hopen, hline⟩ := Lexeme.scan_comment_cases hscan
      cases front with
      | nil =>
        rw [List.nil_append]
        exact comment_extras hx hbody hopen hline hrest
      | cons c front =>
        -- the comment has ended before the border
        have hopen' : (body ++ (c :: front ++ (x ++ back))).head? ≠ some '[' := by
          rw [← List.append_assoc] at hopen ⊢
          exact Lexeme.head_ne_insert hx hopen
        exact .comment (Lexeme.scan_comment afterDot hbody hopen' hline) (ih hrest)
    · rw [if_neg hkind] at hborder ih
      exact .symbol (hborder.scan_insert hx hscan hkind) hkind (ih hrest)

end Lexes

/-- The function `tokenize` succeeds with the tokens of the `stream`, if that meets no fault. -/
theorem tokenize_eq_ok_iff {source : String} {ts : List Token} :
    tokenize source = .ok ts ↔ (Cursor.ofSource source).stream = (ts, none) := by
  rw [tokenize, Cursor.toList_eq_stream]
  rcases (Cursor.ofSource source).stream with ⟨us, _ | e⟩ <;> simp

/-- Any `Text.Extras` that are put in between two tokens of a source, before the first or behind the
last, change no token but comments for `tokenize`. -/
theorem tokenize_insert {front back x : String} {ts : List Token}
    (h : tokenize (front ++ back) = .ok ts)
    (hborder : ∀ t ∈ ts, t.span.stop ≤ front.utf8ByteSize ∨ front.utf8ByteSize ≤ t.span.start)
    (hx : Text.Extras x.toList) :
    ∃ ts', tokenize (front ++ x ++ back) = .ok ts' ∧
      symbols (ts'.filter (·.kind != .comment)) = symbols (ts.filter (·.kind != .comment)) := by
  have hstream := tokenize_eq_ok_iff.1 h
  have hfault : (Cursor.ofSource (front ++ back)).stream.2 = none := by rw [hstream]
  have hrest : (Cursor.ofSource (front ++ back)).rest = front.toList ++ back.toList :=
    String.toList_append
  have hplace : Border false front.toList back.toList := by
    refine Cursor.border_of_stream hrest hfault ?_
    intro t ht
    rw [hstream] at ht
    simpa [Cursor.ofSource, Position.start, Text.byteSize_toList] using hborder t ht
  have hlexes := Cursor.lexes_stream hfault
  rw [hrest] at hlexes
  obtain ⟨hfault', hsymbols⟩ := (Lexes.insert hplace hx hlexes).stream .start
  have hsource : Cursor.ofSource (front ++ x ++ back)
      = ⟨front.toList ++ (x.toList ++ back.toList), .start, false⟩ := by
    simp [Cursor.ofSource]
  rw [← hsource] at hfault' hsymbols
  refine ⟨(Cursor.ofSource (front ++ x ++ back)).stream.1, ?_, ?_⟩
  · rw [tokenize_eq_ok_iff, ← hfault']
  · rw [← Cursor.significant, hsymbols, Cursor.significant, hstream]

/-- A source in two parts: the name of a builtin command and a comment, and then its call. -/
def commentedCall : String × String :=
  ("gx.cmd#", "\n(1.5)")

/-- A blank, two comments, the first of which has a parenthesis in it, and a blank. -/
def twoComments : String :=
  " #(\n#\n "

theorem tokenize_insert_commentedCall :
    ∃ ts, tokenize (commentedCall.1 ++ commentedCall.2) = .ok ts ∧
      (∀ t ∈ ts, t.span.stop ≤ commentedCall.1.utf8ByteSize ∨
        commentedCall.1.utf8ByteSize ≤ t.span.start) ∧
      Text.Extras twoComments.toList ∧
      ∃ ts', tokenize (commentedCall.1 ++ twoComments ++ commentedCall.2) = .ok ts' ∧
        symbols (ts'.filter (·.kind != .comment)) = symbols (ts.filter (·.kind != .comment)) := by
  have h : tokenize (commentedCall.1 ++ commentedCall.2)
      = .ok [⟨.builtin, "gx.cmd", ⟨0, 6, 1, 1⟩⟩, ⟨.comment, "#", ⟨6, 7, 1, 7⟩⟩,
        ⟨.parenOpen, "(", ⟨8, 9, 2, 1⟩⟩, ⟨.number, "1.5", ⟨9, 12, 2, 2⟩⟩,
        ⟨.parenClose, ")", ⟨12, 13, 2, 5⟩⟩, ⟨.eof, "", ⟨13, 13, 2, 6⟩⟩] := by
    decide +kernel
  have hx : Text.Extras twoComments.toList := by
    show Text.Extras (' ' :: '#' :: (['('] ++ '\n' :: '#' :: ([] ++ '\n' :: [' '])))
    exact .blank rfl (.comment (by simp) (by simp) (.comment (by simp) (by simp) (.blank rfl .nil)))
  exact ⟨_, h, by decide, hx, tokenize_insert h (by decide) hx⟩

end Gxl
