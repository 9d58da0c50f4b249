import Gxl.Proofs.Token.Joined

/-!
# What a token sees of the text behind it

A token is scanned by its own text and by some of the text behind it: a word asks for one character,
a number for two, the name of a builtin command for everything up to the next token.  None of them
sees beyond a closing brace or a semicolon.

`SameAhead` says of two texts that a token before them cannot tell them apart, because they are the
same up to such a sign.  A token is then scanned before the one as before the other
(`SameAhead.scan`), and so are all tokens of a run (`Cursor.Run.swap`).
-/

namespace Gxl

/-! ## The head of a text -/

namespace Lexes

variable {afterDot : Bool} {cs : List Char} {v : Phrase}

/-- A blank before a text does not count for `Lexes`. -/
theorem of_blank {c : Char} (hc : Text.isBlank c = true) (h : Lexes afterDot (c :: cs) v) :
    Lexes afterDot cs v := by
  cases h with
  | blank _ h => exact h
  | comment hscan _ =>
    rw [Lexeme.scan_blank afterDot _ hc] at hscan
    simp at hscan
  | symbol hscan _ _ =>
    rw [Lexeme.scan_blank afterDot _ hc] at hscan
    simp at hscan

/-- Nor do blanks, `gap` being all of them. -/
theorem of_blanks {gap : List Char} (hgap : ∀ c ∈ gap, Text.isBlank c = true)
    (h : Lexes afterDot (gap ++ cs) v) : Lexes afterDot cs v := by
  induction gap with
  | nil => exact h
  | cons c gap ih =>
    obtain ⟨hc, hgap⟩ := List.forall_mem_cons.1 hgap
    exact ih hgap (of_blank hc h)

/-- What `Lexes` says of a text behind `Text.Extras` it says of the text without them. -/
theorem of_extras {x : List Char} (hx : Text.Extras x) (h : Lexes afterDot (x ++ cs) v) :
    Lexes afterDot cs v := by
  induction hx with
  | nil => exact h
  | blank hc _ ih => exact ih (of_blank hc h)
  | @comment body x hopen hbody _ ih =>
    have hhead : (body ++ '\n' :: (x ++ cs)).head? ≠ some '[' := by
      cases body with
      | nil => simp
      | cons c body => simpa using hopen
    have htext : '#' :: (body ++ '\n' :: x) ++ cs = '#' :: (body ++ '\n' :: (x ++ cs)) := by simp
    rw [htext] at h
    obtain ⟨-, h⟩ | ⟨hkind, -⟩ := h.of_scan (Lexeme.scan_comment afterDot hbody hhead (by simp))
    · exact ih (of_blank (by decide) h)
    · exact absurd rfl hkind

/-- A sign at the head of a text is the first symbol that `Lexes` gives, and a `dot` is remembered
for the rest. -/
theorem of_sign {k : Kind} (hk : k.spelling ≠ "")
    (h : Lexes afterDot (k.spelling.toList ++ cs) v) :
    ∃ v', v = .sign k :: v' ∧ Lexes (k == .dot) cs v' := by
  obtain ⟨rfl, -⟩ | ⟨-, v', rfl, hrest⟩ := h.of_scan (Lexeme.scan_sign afterDot cs hk)
  · exact absurd rfl hk
  · exact ⟨v', by rw [String.ofList_toList]; rfl, hrest⟩

/-- The converse of `of_sign`: a sign stands before what `Lexes` gives for the text behind it. -/
theorem sign {k : Kind} (hk : k.spelling ≠ "") (h : Lexes (k == .dot) cs v) :
    Lexes afterDot (k.spelling.toList ++ cs) (.sign k :: v) := by
  have hne : k ≠ .comment := by
    rintro rfl
    exact hk rfl
  have hsymbol := Lexes.symbol (Lexeme.scan_sign afterDot cs hk) hne h
  rwa [String.ofList_toList] at hsymbol

end Lexes

/-! ## Texts that look the same -/

/-- Two texts are the same up to a closing brace or a semicolon, and up to there they are blanks and
tokens. -/
inductive SameAhead : Bool → List Char → List Char → Prop where
  | refl (afterDot : Bool) (cs : List Char) : SameAhead afterDot cs cs
  | sign {afterDot : Bool} {c : Char} (hc : c = '\x7d' ∨ c = ';') (back back' : List Char) :
      SameAhead afterDot (c :: back) (c :: back')
  | blank {afterDot : Bool} {c : Char} {cs cs' : List Char} (hc : Text.isBlank c = true)
      (h : SameAhead afterDot cs cs') : SameAhead afterDot (c :: cs) (c :: cs')
  | token {afterDot : Bool} {kind : Kind} {lexeme cs cs' : List Char}
      (hscan : Lexeme.scan afterDot (lexeme ++ cs) = .token kind lexeme cs)
      (h : SameAhead (if kind = .comment then afterDot else kind == .dot) cs cs') :
      SameAhead afterDot (lexeme ++ cs) (lexeme ++ cs')

namespace SameAhead

variable {afterDot : Bool} {cs cs' : List Char}

/-- Blanks keep two texts `SameAhead`. -/
theorem blanks {gap : List Char} (hgap : ∀ c ∈ gap, Text.isBlank c = true)
    (h : SameAhead afterDot cs cs') : SameAhead afterDot (gap ++ cs) (gap ++ cs') := by
  induction gap with
  | nil => exact h
  | cons c gap ih =>
    obtain ⟨hc, hgap⟩ := List.forall_mem_cons.1 hgap
    exact .blank hc (ih hgap)

/-- Texts that are `SameAhead` start with the same character, or are both empty. -/
theorem head_eq (h : SameAhead afterDot cs cs') : cs'.head? = cs.head? := by
  cases h with
  | refl => rfl
  | sign => rfl
  | blank => rfl
  | token hscan _ =>
    obtain ⟨c, lexeme, rfl⟩ := List.exists_cons_of_ne_nil (Lexeme.scan_ne_nil hscan)
    rfl

/-- The test `Lexeme.opensCall` comes to the same for texts that are `SameAhead`: neither a brace
nor a semicolon is a parenthesis. -/
theorem opensCall_eq (h : SameAhead afterDot cs cs') :
    Lexeme.opensCall false cs' = Lexeme.opensCall false cs := by
  induction h with
  | refl => rfl
  | sign hc => rcases hc with rfl | rfl <;> rfl
  | blank hc _ ih => rw [Lexeme.opensCall_blank hc, Lexeme.opensCall_blank hc, ih]
  | @token afterDot kind lexeme cs cs' hscan h ih =>
    by_cases hkind : kind = .comment
    · subst hkind
      obtain ⟨body, rfl, hbody, hopen, hline⟩ := Lexeme.scan_comment_cases hscan
      have hopen' : (body ++ cs').head? ≠ some '[' := by
        rwa [List.head?_append, h.head_eq, ← List.head?_append]
      rw [List.cons_append, List.cons_append, Lexeme.opensCall_hash hbody hopen',
        Lexeme.opensCall_hash hbody hopen, Lexeme.opensCall_end_of_line hline,
        Lexeme.opensCall_end_of_line, ih]
      rwa [h.head_eq]
    · exact Lexeme.opensCall_token hscan hkind _

/-- Behind a dot the two texts go on alike, now with `afterDot` set. -/
theorem behind_dot (h : SameAhead afterDot ('.' :: cs) cs') :
    ∃ ds, cs' = '.' :: ds ∧ SameAhead true cs ds := by
  generalize hall : '.' :: cs = all at h
  cases h with
  | refl => exact ⟨cs, hall.symm, .refl true cs⟩
  | sign hc =>
    obtain ⟨rfl, -⟩ := List.cons.inj hall
    simp at hc
  | blank hc _ =>
    obtain ⟨rfl, -⟩ := List.cons.inj hall
    simp [Text.isBlank] at hc
  | @token _ kind lexeme rest rest' hscan h =>
    have hdot : Lexeme.scan afterDot ('.' :: cs) = .token .dot ['.'] cs :=
      Lexeme.scan_sign (k := .dot) afterDot _ (by decide)
    rw [← hall, hdot] at hscan
    obtain ⟨rfl, rfl, rfl⟩ := Lexeme.Scan.token.inj hscan
    exact ⟨rest', rfl, h⟩

/-- Behind a word that follows a dot the two texts go on alike, and `afterDot` is cleared. -/
theorem behind_word {c : Char} (h : SameAhead true (c :: cs) cs')
    (hc : Lexeme.isWordStart c = true) :
    ∃ w rest rest', c :: cs = w ++ rest ∧ cs' = w ++ rest' ∧ Lexeme.isWord w = true ∧
      (∀ ch ∈ rest.head?, Lexeme.isWordChar ch = false) ∧ SameAhead false rest rest' := by
  have hword := Lexeme.scan_isWordStart true cs hc
  have hkind : (Lexeme.word true (c :: cs)).1 = .ident := rfl
  rw [hkind] at hword
  obtain ⟨hisWord, hlongest, -⟩ := Lexeme.scan_ident_cases hword
  have happend := Lexeme.scan_append hword
  generalize (Lexeme.word true (c :: cs)).2.1 = w at hword hisWord happend
  generalize (Lexeme.word true (c :: cs)).2.2 = rest at hword hlongest happend
  refine ⟨w, rest, ?_⟩
  generalize hall : c :: cs = all at h
  cases h with
  | refl => exact ⟨rest, hall ▸ happend.symm, hall ▸ happend.symm, hisWord, hlongest, .refl _ _⟩
  | sign hsign =>
    obtain ⟨rfl, -⟩ := List.cons.inj hall
    rcases hsign with rfl | rfl <;> simp [Lexeme.isWordStart] at hc
  | blank hblank _ =>
    obtain ⟨rfl, -⟩ := List.cons.inj hall
    have hchar := Lexeme.isWordChar_of_isWordStart hc
    rw [Lexeme.isWordChar_eq_false_of_isBlank hblank] at hchar
    simp at hchar
  | @token _ kind lexeme more more' hscan h =>
    rw [← hall, hword] at hscan
    obtain ⟨rfl, rfl, rfl⟩ := Lexeme.Scan.token.inj hscan
    exact ⟨more', rfl, rfl, hisWord, hlongest, h⟩

/-- The test `Lexeme.offersFraction` holds of both texts or of neither. -/
theorem offersFraction_eq (h : SameAhead afterDot cs cs') :
    Lexeme.offersFraction cs' = Lexeme.offersFraction cs := by
  have hdot : ∀ ds, Lexeme.offersFraction ('.' :: ds) = ds.head?.any Char.isDigit := by
    rintro (_ | ⟨d, ds⟩) <;> rfl
  have hother : ∀ c ds, c ≠ '.' → Lexeme.offersFraction (c :: ds) = false := by
    rintro c (_ | ⟨d, ds⟩) hc
    · rfl
    · simp [Lexeme.offersFraction, hc]
  have hhead := h.head_eq
  cases cs with
  | nil =>
    obtain rfl : cs' = [] := List.head?_eq_none_iff.1 hhead
    rfl
  | cons c cs =>
    by_cases hc : c = '.'
    · subst hc
      obtain ⟨ds, rfl, hbehind⟩ := h.behind_dot
      rw [hdot, hdot, hbehind.head_eq]
    · obtain ⟨ds, rfl⟩ := List.head?_eq_some_iff.1 hhead
      rw [hother c _ hc, hother c _ hc]

/-- The word `gx` goes on as the name of a builtin command in both texts or in neither. -/
theorem builtinTail_eq_none (h : SameAhead false cs cs') (hnone : Lexeme.builtinTail cs = none) :
    Lexeme.builtinTail cs' = none := by
  rw [Option.eq_none_iff_forall_ne_some]
  rintro ⟨tail, rest⟩ hsome
  obtain ⟨w, rfl, hcalls⟩ := Lexeme.builtinTail_cases hsome
  obtain rfl : cs' = '.' :: (w ++ rest) := by simpa using hcalls.text
  obtain ⟨ds, rfl⟩ : ∃ ds, cs = '.' :: ds := List.head?_eq_some_iff.1 h.head_eq.symm
  obtain ⟨ds', hds', h⟩ := h.behind_dot
  obtain rfl := (List.cons.inj hds').2
  obtain ⟨c, w', rfl⟩ : ∃ c w', w = c :: w' := by
    cases w with
    | nil => simpa [Lexeme.isWord] using hcalls.isWord
    | cons c w => exact ⟨c, w, rfl⟩
  have hstart : Lexeme.isWordStart c = true := (Bool.and_eq_true_iff.1 hcalls.isWord).1
  obtain ⟨es, rfl⟩ : ∃ es, ds = c :: es := List.head?_eq_some_iff.1 h.head_eq.symm
  obtain ⟨w, more, more', hmore, hmore', hw, hlongest, h⟩ := h.behind_word hstart
  -- both words are the longest that the second text goes on with
  have hlongest' : ∀ ch ∈ more'.head?, Lexeme.isWordChar ch = false := by rwa [h.head_eq]
  have hfirst := Lexeme.takeWhile_dropWhile_append Lexeme.isWordChar rest
    (Lexeme.isWordChar_of_isWord hcalls.isWord) hcalls.longest
  have hsecond := Lexeme.takeWhile_dropWhile_append Lexeme.isWordChar more'
    (Lexeme.isWordChar_of_isWord hw) hlongest'
  rw [hmore'] at hfirst
  obtain rfl := hfirst.1.symm.trans hsecond.1
  obtain rfl := hfirst.2.symm.trans hsecond.2
  obtain ⟨b, hb⟩ := hcalls.names
  have hname : b.name.toList = ['g', 'x'] ++ '.' :: (c :: w') := by simp [hb]
  have hopens : Lexeme.opensCall false more = true := by
    rw [← h.opensCall_eq]
    exact Lexeme.opensCall_iff.2 hcalls.opens
  have hbuiltin := Lexeme.builtinTail_of_name hname hw hopens hlongest
  rw [hmore, hbuiltin] at hnone
  simp at hnone

/-- The scanner `Lexeme.scan` finds the same token before two texts that are `SameAhead`. -/
theorem scan {kind : Kind} {lexeme : List Char}
    (h : SameAhead (if kind = .comment then afterDot else kind == .dot) cs cs')
    (hscan : Lexeme.scan afterDot (lexeme ++ cs) = .token kind lexeme cs) :
    Lexeme.scan afterDot (lexeme ++ cs') = .token kind lexeme cs' := by
  have hhead := h.head_eq
  by_cases hkind : kind = .comment
  · subst hkind
    obtain ⟨body, rfl, hbody, hopen, hline⟩ := Lexeme.scan_comment_cases hscan
    refine Lexeme.scan_comment afterDot hbody ?_ (by rwa [hhead])
    rwa [List.head?_append, hhead, ← List.head?_append]
  rw [if_neg hkind] at h
  have hgenuine := Lexeme.genuine_of_scan hscan hkind
  by_cases hspelling : kind.spelling = ""
  · -- a kind whose text is not fixed
    cases kind with
    | ident =>
      obtain ⟨hword, hlongest, hgx⟩ := Lexeme.scan_ident_cases hscan
      exact Lexeme.scan_word hword (by rwa [hhead])
        (hgx.imp_right (Or.imp_right h.builtinTail_eq_none))
    | str =>
      have hquoted : Lexeme.isQuoted lexeme = true := by
        simpa [Symbol.genuine] using hgenuine
      exact Lexeme.scan_quoted afterDot _ hquoted
    | number =>
      obtain ⟨c, digits, rfl, hc, hnumber⟩ := Lexeme.scan_number_cases hscan
      have hdigit : ∀ c ∈ cs'.head?, c.isDigit = false := by
        rw [hhead]
        exact Lexeme.head_of_number hnumber
      have hnumber' := Lexeme.number_congr_rest hnumber hdigit
        (by rw [h.offersFraction_eq]; exact id)
      rw [List.cons_append] at hnumber' ⊢
      rw [Lexeme.scan_isDigit afterDot _ hc, hnumber']
    | builtin =>
      obtain ⟨rfl, w, rfl, htext, hword, hlongest, hnames, hopens⟩ :=
        Lexeme.scan_builtin_iff.1 hscan
      refine Lexeme.scan_builtin_iff.2 ⟨rfl, w, rfl, rfl, hword, by rwa [hhead], hnames, ?_⟩
      rw [← Lexeme.opensCall_iff, h.opensCall_eq]
      exact Lexeme.opensCall_iff.2 hopens
    | comment => exact absurd rfl hkind
    | eof => simp [Symbol.genuine] at hgenuine
    | _ => simp [Kind.spelling] at hspelling
  · have hsign := Symbol.eq_sign_of_genuine hgenuine hspelling
    obtain rfl : lexeme = kind.spelling.toList := by
      simpa [Symbol.sign] using congrArg (fun s => s.text.toList) hsign
    exact Lexeme.scan_sign afterDot _ hspelling

end SameAhead

/-! ## Runs -/

namespace Cursor

/-- The cursor `c` with the text `cs` to read. -/
def withRest (c : Cursor) (cs : List Char) : Cursor :=
  { c with rest := cs }

/-- A `Run` reads the same tokens when the text behind it is replaced by one that is `SameAhead`. -/
theorem Run.swap {c d : Cursor} {ts : List Token} (h : Run c ts d) {cs : List Char}
    (hcs : SameAhead d.afterDot d.rest cs) :
    ∃ front, c.rest = front ++ d.rest ∧ SameAhead c.afterDot c.rest (front ++ cs) ∧
      Run (c.withRest (front ++ cs)) ts (d.withRest cs) := by
  induction h with
  | nil c => exact ⟨[], rfl, hcs, .nil _⟩
  | @cons c c' d t ts h ht _ ih =>
    obtain ⟨front, hrest, hahead, hrun⟩ := ih hcs
    obtain ⟨gap, hgap, ⟨-, heof, -⟩ | ⟨kind, lexeme, rest, -, hrest', hscan, rfl, rfl⟩⟩ :=
      next_cases h
    · exact absurd heof ht
    · obtain rfl : rest = front ++ d.rest := hrest
      refine ⟨gap ++ (lexeme ++ front), by simp [hrest'], ?_, ?_⟩
      · rw [hrest', List.append_assoc, List.append_assoc]
        exact .blanks hgap (.token hscan hahead)
      · have hnext : (c.withRest (gap ++ (lexeme ++ front) ++ cs)).next
            = (.ok ⟨kind, String.ofList lexeme, .between (c.position.after gap)
                (c.position.after (gap ++ lexeme)).offset⟩,
              ⟨front ++ cs, c.position.after (gap ++ lexeme),
                if kind = .comment then c.afterDot else kind == .dot⟩) := by
          rw [withRest, List.append_assoc, List.append_assoc, next_blanks hgap,
            next_of_scan (hahead.scan hscan), ← Position.after_append]
        exact .cons hnext ht hrun

/-- The symbols of a `Run`, comments left out, stand before what `Lexes` gives for the text behind
it. -/
theorem Run.lexes {c d : Cursor} {ts : List Token} (h : Run c ts d) {v : Phrase}
    (hv : Lexes d.afterDot d.rest v) :
    Lexes c.afterDot c.rest (symbols (ts.filter (·.kind != .comment)) ++ v) := by
  induction h with
  | nil c => exact hv
  | @cons c c' d t ts h ht _ ih =>
    have hrest := ih hv
    obtain ⟨gap, hgap, ⟨-, heof, -⟩ | ⟨kind, lexeme, rest, -, hrest', hscan, rfl, rfl⟩⟩ :=
      next_cases h
    · exact absurd heof ht
    · rw [hrest']
      refine .blanks hgap ?_
      by_cases hkind : kind = .comment
      · rw [if_pos hkind] at hrest
        rw [List.filter_cons_of_neg (by simp [hkind])]
        exact .comment (hkind ▸ hscan) hrest
      · rw [if_neg hkind] at hrest
        rw [List.filter_cons_of_pos (by simp [hkind])]
        exact .symbol hscan hkind hrest

end Cursor

end Gxl
