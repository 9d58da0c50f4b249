import Gxl.Proofs.Token.Symbol

/-!
# Scanning a symbol

What `Lexeme.scan` splits off is genuine (`genuine_of_scan`), and a genuine symbol is split off
whole wherever the text behind it cannot lengthen it.  A sign and a string literal end by
themselves.  A number and a word go on as long as they can, so the text behind them has to start
with another character (`Ends`).  The word `gx` needs one thing more: it must not be the start of
the name of a builtin command.
-/

namespace Gxl.Lexeme

/-- The text `cs` lengthens no word and no number that stands before it: it starts with no character
that passes `isWordChar`, and with no dot. -/
def Ends (cs : List Char) : Prop :=
  ∀ c ∈ cs.head?, isWordChar c = false ∧ c ≠ '.'

@[simp] theorem ends_nil : Ends [] := by simp [Ends]

@[simp] theorem ends_cons {c : Char} {cs : List Char} :
    Ends (c :: cs) ↔ isWordChar c = false ∧ c ≠ '.' := by
  simp [Ends]

/-- A character that fails `isWordChar` is no digit. -/
theorem isDigit_eq_false_of_isWordChar {c : Char} (h : isWordChar c = false) :
    c.isDigit = false := by
  simp only [isWordChar, Char.isAlphanum, Bool.or_eq_false_iff] at h
  exact h.1.2

/-- Letters, as `Char.isAlpha` has them, are those of the ASCII alphabet. -/
theorem toNat_of_isAlpha {c : Char} (h : c.isAlpha = true) :
    (65 ≤ c.toNat ∧ c.toNat ≤ 90) ∨ (97 ≤ c.toNat ∧ c.toNat ≤ 122) := by
  rcases (Bool.or_eq_true_iff.1 h : c.isUpper = true ∨ c.isLower = true) with hupper | hlower
  · have hrange : 'A'.val ≤ c.val ∧ c.val ≤ 'Z'.val := of_decide_eq_true hupper
    exact .inl ⟨UInt32.le_iff_toNat_le.1 hrange.1, UInt32.le_iff_toNat_le.1 hrange.2⟩
  · obtain ⟨hfirst, hlast⟩ := Bool.and_eq_true_iff.1 hlower
    exact .inr ⟨UInt32.le_iff_toNat_le.1 (of_decide_eq_true hfirst),
      UInt32.le_iff_toNat_le.1 (of_decide_eq_true hlast)⟩

/-- A character that passes `isWordStart` is no digit. -/
theorem isDigit_eq_false_of_isWordStart {c : Char} (h : isWordStart c = true) :
    c.isDigit = false := by
  rw [Bool.eq_false_iff]
  intro hdigit
  have hnine : c.toNat ≤ 57 := (Char.isDigit_iff_toNat.1 hdigit).2
  rcases Bool.or_eq_true_iff.1 h with halpha | hunderscore
  · have hrange := toNat_of_isAlpha halpha
    omega
  · obtain rfl : c = '_' := by simpa using hunderscore
    exact absurd hnine (by decide)

/-- Both `takeWhile` and `dropWhile` part a text where its first part ends, if the test changes
there. -/
theorem takeWhile_dropWhile_append (p : Char → Bool) {cs : List Char} (rest : List Char)
    (hcs : ∀ c ∈ cs, p c = true) (hrest : ∀ c ∈ rest.head?, p c = false) :
    (cs ++ rest).takeWhile p = cs ∧ (cs ++ rest).dropWhile p = rest := by
  rw [List.takeWhile_append_of_pos hcs, List.dropWhile_append_of_pos hcs]
  cases rest with
  | nil => simp
  | cons c rest =>
    have hc : p c = false := hrest c rfl
    simp [hc]

/-- A text of characters that pass the test is all that `takeWhile` takes. -/
theorem takeWhile_dropWhile_self (p : Char → Bool) {cs : List Char} (hcs : ∀ c ∈ cs, p c = true) :
    cs.takeWhile p = cs ∧ cs.dropWhile p = [] := by
  have h := takeWhile_dropWhile_append p [] hcs (by simp)
  rwa [List.append_nil] at h

/-! ## String literals -/

/-- The body that `closeString` splits off ends with its first closing quote. -/
theorem closeString_self {cs body rest : List Char} (h : closeString cs = some (body, rest)) :
    closeString body = some (body, []) := by
  fun_induction closeString cs generalizing body with
  | case1 => simp at h
  | case2 cs =>
    simp only [Option.some.injEq, Prod.mk.injEq] at h
    rw [← h.1, closeString]
  | case3 c cs ih =>
    -- an escaped character never closes the literal
    simp only [Option.map_eq_some_iff, Prod.mk.injEq] at h
    obtain ⟨⟨b, r⟩, hb, rfl, rfl⟩ := h
    rw [closeString, ih hb]
    rfl
  | case4 c cs hq hb ih =>
    simp only [Option.map_eq_some_iff, Prod.mk.injEq] at h
    obtain ⟨⟨b, r⟩, hbr, rfl, rfl⟩ := h
    -- a backslash is never the last character, so the body does not turn into an escape pair
    have hpair : ∀ d ds, c = '\\' → b = d :: ds → False := by
      rintro d ds rfl rfl
      have happ := closeString_append hbr
      exact hb d (ds ++ r) rfl happ.symm
    rw [closeString.eq_4 _ _ hq hpair, ih hbr]
    rfl

/-- The body that `closeString` splits off ends with the closing quote. -/
theorem closeString_last {cs body rest : List Char} (h : closeString cs = some (body, rest)) :
    ∃ inner, body = inner ++ ['"'] := by
  fun_induction closeString cs generalizing body with
  | case1 => simp at h
  | case2 cs =>
    simp only [Option.some.injEq, Prod.mk.injEq] at h
    exact ⟨[], h.1.symm⟩
  | case3 c cs ih =>
    simp only [Option.map_eq_some_iff, Prod.mk.injEq] at h
    obtain ⟨⟨b, r⟩, hb, rfl, rfl⟩ := h
    obtain ⟨inner, rfl⟩ := ih hb
    exact ⟨'\\' :: c :: inner, rfl⟩
  | case4 c cs _ _ ih =>
    simp only [Option.map_eq_some_iff, Prod.mk.injEq] at h
    obtain ⟨⟨b, r⟩, hb, rfl, rfl⟩ := h
    obtain ⟨inner, rfl⟩ := ih hb
    exact ⟨c :: inner, rfl⟩

/-- A string literal ends for `closeString` where its body does, whatever stands behind it. -/
theorem closeString_append_rest {body : List Char} (rest : List Char)
    (h : closeString body = some (body, [])) : closeString (body ++ rest) = some (body, rest) := by
  suffices hgen : ∀ {cs b r : List Char}, closeString cs = some (b, r) →
      closeString (cs ++ rest) = some (b, r ++ rest) by
    simpa using hgen h
  intro cs b r hcs
  fun_induction closeString cs generalizing b with
  | case1 => simp at hcs
  | case2 cs =>
    simp only [Option.some.injEq, Prod.mk.injEq] at hcs
    obtain ⟨rfl, rfl⟩ := hcs
    rw [List.cons_append, closeString]
  | case3 c cs ih =>
    simp only [Option.map_eq_some_iff, Prod.mk.injEq] at hcs
    obtain ⟨⟨b', r'⟩, hb, rfl, rfl⟩ := hcs
    rw [List.cons_append, List.cons_append, closeString, ih hb]
    rfl
  | case4 c cs hq hb ih =>
    simp only [Option.map_eq_some_iff, Prod.mk.injEq] at hcs
    obtain ⟨⟨b', r'⟩, hb', rfl, rfl⟩ := hcs
    have hpair : ∀ d ds, c = '\\' → cs ++ rest = d :: ds → False := by
      rintro d ds rfl hd
      cases cs with
      | nil => simp [closeString] at hb'
      | cons e es => exact hb e es rfl rfl
    rw [List.cons_append, closeString.eq_4 _ _ hq hpair, ih hb']
    rfl

/-! ## Numbers -/

/-- Applying `number` again to what it split off finds the whole of it. -/
theorem number_self (cs : List Char) : number (number cs).1 = ((number cs).1, []) := by
  have hdigits : ∀ c ∈ cs.takeWhile Char.isDigit, c.isDigit = true :=
    List.all_eq_true.1 List.all_takeWhile
  have hself := takeWhile_dropWhile_self Char.isDigit hdigits
  fun_cases number cs with
  | case1 whole d rest hdrop hd =>
    -- there are digits behind a dot
    have hfrac : ∀ c ∈ (d :: rest).takeWhile Char.isDigit, c.isDigit = true :=
      List.all_eq_true.1 List.all_takeWhile
    have hsplit := takeWhile_dropWhile_append Char.isDigit
      ('.' :: (d :: rest).takeWhile Char.isDigit) hdigits (by simp)
    have htail := takeWhile_dropWhile_self Char.isDigit hfrac
    rw [number, hsplit.1, hsplit.2]
    rw [List.takeWhile_cons_of_pos hd] at htail ⊢
    simp only [hd, if_true, htail]
    rfl
  | case2 => rw [number, hself.2, hself.1]
  | case3 => rw [number, hself.2, hself.1]

/-- A number ends for `number` where it does on its own, if the text behind it `Ends` it. -/
theorem number_append_rest {cs rest : List Char} (h : number cs = (cs, [])) (hrest : Ends rest) :
    number (cs ++ rest) = (cs, rest) := by
  have hdigit : ∀ c ∈ rest.head?, c.isDigit = false :=
    fun c hc => isDigit_eq_false_of_isWordChar (hrest c hc).1
  have hwhole : ∀ c ∈ cs.takeWhile Char.isDigit, c.isDigit = true :=
    List.all_eq_true.1 List.all_takeWhile
  have hcs := List.takeWhile_append_dropWhile (p := Char.isDigit) (l := cs)
  revert h
  fun_cases number cs with
  | case1 whole d fraction hdrop hd =>
    -- the fraction is what goes on or ends with the text behind
    intro h
    simp only [Prod.mk.injEq] at h
    have hfrac : ∀ c ∈ d :: fraction, c.isDigit = true := by
      rw [← List.takeWhile_append_dropWhile (p := Char.isDigit) (l := d :: fraction), h.2,
        List.append_nil]
      exact List.all_eq_true.1 List.all_takeWhile
    rw [hdrop] at hcs
    have hsplit := takeWhile_dropWhile_append Char.isDigit ('.' :: d :: (fraction ++ rest)) hwhole
      (by simp)
    have htail := takeWhile_dropWhile_append Char.isDigit rest hfrac hdigit
    have hall : cs ++ rest = cs.takeWhile Char.isDigit ++ '.' :: d :: (fraction ++ rest) := by
      calc cs ++ rest = (cs.takeWhile Char.isDigit ++ '.' :: d :: fraction) ++ rest := by rw [hcs]
        _ = cs.takeWhile Char.isDigit ++ '.' :: d :: (fraction ++ rest) := by simp
    rw [hall, number, hsplit.1, hsplit.2]
    rw [List.cons_append] at htail
    simp only [hd, if_true, htail]
    rw [hcs]
  | case2 => simp
  | case3 whole hno =>
    intro h
    simp only [Prod.mk.injEq] at h
    have hcs' : cs.takeWhile Char.isDigit = cs := h.1
    have hsplit := takeWhile_dropWhile_append Char.isDigit rest hwhole hdigit
    rw [hcs'] at hsplit
    rw [number, hsplit.1, hsplit.2]
    -- without a dot behind them the digits are all
    cases rest with
    | nil => rfl
    | cons c rest =>
      have hc : c ≠ '.' := (hrest c rfl).2
      simp [hc]

/-- Whether a text has a fraction for the digits before it: a point and a digit, as `number` asks
for. -/
def offersFraction : List Char → Bool
  | c :: d :: _ => c == '.' && d.isDigit
  | _ => false

/-- Digits are what `number` splits off, if the text behind them fails `offersFraction`. -/
theorem number_digits {whole rest : List Char} (hwhole : ∀ c ∈ whole, c.isDigit = true)
    (hrest : ∀ c ∈ rest.head?, c.isDigit = false) (hno : offersFraction rest = false) :
    number (whole ++ rest) = (whole, rest) := by
  have hsplit := takeWhile_dropWhile_append Char.isDigit rest hwhole hrest
  rw [number, hsplit.1, hsplit.2]
  split
  · rename_i d rest
    have hd : d.isDigit = false := by simpa [offersFraction] using hno
    simp [hd]
  · rfl

/-- Digits, a point and digits are what `number` splits off, up to the next character that is no
digit. -/
theorem number_fraction {whole fraction rest : List Char} (hwhole : ∀ c ∈ whole, c.isDigit = true)
    (hne : fraction ≠ []) (hfraction : ∀ c ∈ fraction, c.isDigit = true)
    (hrest : ∀ c ∈ rest.head?, c.isDigit = false) :
    number (whole ++ '.' :: fraction ++ rest) = (whole ++ '.' :: fraction, rest) := by
  have hsplit := takeWhile_dropWhile_append Char.isDigit ('.' :: fraction ++ rest) hwhole (by simp)
  have htail := takeWhile_dropWhile_append Char.isDigit rest hfraction hrest
  obtain ⟨d, ds, rfl⟩ := List.exists_cons_of_ne_nil hne
  have hd : d.isDigit = true := hfraction d (by simp)
  rw [List.append_assoc, number, hsplit.1, hsplit.2]
  simp only [List.cons_append] at htail ⊢
  simp only [hd, if_true, htail]

/-! ## Words and builtin names -/

/-- The characters of a text that passes `isWord` pass `isWordChar`. -/
theorem isWordChar_of_isWord {cs : List Char} (h : isWord cs = true) :
    ∀ c ∈ cs, isWordChar c = true := by
  cases cs with
  | nil => simp
  | cons c cs =>
    simp only [isWord, Bool.and_eq_true, List.all_eq_true] at h
    rintro d (_ | ⟨_, hd⟩)
    · exact isWordChar_of_isWordStart h.1
    · exact h.2 d hd

/-- The longest run of word characters passes `isWord`, if the first passes `isWordStart`. -/
theorem isWord_takeWhile {c : Char} (cs : List Char) (hc : isWordStart c = true) :
    isWord ((c :: cs).takeWhile isWordChar) = true := by
  rw [List.takeWhile_cons_of_pos (isWordChar_of_isWordStart hc), isWord, hc, List.all_takeWhile]
  rfl

/-- A word is read whole before a text that does not lengthen it.  The word `gx` must not go on as
the name of a builtin command, unless a dot stands before it. -/
theorem word_append_rest {cs rest : List Char} {afterDot : Bool} (h : isWord cs = true)
    (hrest : ∀ c ∈ rest.head?, isWordChar c = false)
    (hgx : afterDot = true ∨ cs ≠ ['g', 'x'] ∨ builtinTail rest = none) :
    word afterDot (cs ++ rest) = (.ident, cs, rest) := by
  have hsplit := takeWhile_dropWhile_append isWordChar rest (isWordChar_of_isWord h) hrest
  rw [word, hsplit.1, hsplit.2]
  rcases hgx with rfl | hne | hnone
  · rfl
  · rw [if_neg (by simp [hne])]
  · simp [hnone]

/-- What makes `gx` the name of a builtin is a dot and a word, and together they are the name. -/
theorem builtinTail_name {cs tail rest : List Char} (h : builtinTail cs = some (tail, rest)) :
    (Builtin.ofName? (String.ofList (['g', 'x'] ++ tail))).isSome = true := by
  unfold builtinTail at h
  split at h
  · simp only [Option.ite_none_right_eq_some, Option.some.injEq, Prod.mk.injEq,
      Bool.and_eq_true] at h
    obtain ⟨⟨⟨_, hname⟩, _⟩, rfl, _⟩ := h
    have htext : ∀ w : List Char, String.ofList (['g', 'x'] ++ '.' :: w)
        = "gx." ++ String.ofList w := by
      intro w
      rw [← String.toList_inj]
      simp
    rw [htext]
    exact hname
  · simp at h

/-! ## What is scanned is genuine -/

/-- What `word` finds is `genuine`: a word, or the name of a builtin command. -/
theorem genuine_of_word {afterDot : Bool} {c : Char} (cs : List Char)
    (hc : isWordStart c = true) :
    Symbol.genuine ⟨(word afterDot (c :: cs)).1, String.ofList (word afterDot (c :: cs)).2.1⟩
      = true := by
  have hword := isWord_takeWhile cs hc
  fun_cases word afterDot (c :: cs) with
  | case1 text rest hgx tail _ htail =>
    -- `gx` has become the name of a builtin
    have htext : text = ['g', 'x'] := by simpa using (Bool.and_eq_true_iff.1 hgx).2
    rw [htext]
    exact builtinTail_name htail
  | case2 => simpa [Symbol.genuine] using hword
  | case3 => simpa [Symbol.genuine] using hword

/-- A kind that `Kind.ofSign?` gives stands in the table `Kind.signs`. -/
theorem mem_signs_of_ofSign? {c : Char} {k : Kind} (h : Kind.ofSign? c = some k) :
    (c, k) ∈ Kind.signs := by
  obtain ⟨l₁, l₂, hl, _⟩ := List.lookup_eq_some_iff.1 h
  rw [hl]
  simp

/-- A sign that `Kind.ofSign?` gives is `genuine` with its one character. -/
theorem genuine_of_ofSign? {c : Char} {k : Kind} (h : Kind.ofSign? c = some k) :
    Symbol.genuine ⟨k, String.ofList [c]⟩ = true := by
  have hall : ∀ p ∈ Kind.signs, Symbol.genuine ⟨p.2, String.ofList [p.1]⟩ = true := by decide
  exact hall (c, k) (mem_signs_of_ofSign? h)

/-- The text of a token that `scan` finds is one that its kind can have: the symbol is `genuine`. -/
theorem genuine_of_scan {afterDot : Bool} {cs lexeme rest : List Char} {kind : Kind}
    (h : scan afterDot cs = .token kind lexeme rest) (hkind : kind ≠ .comment) :
    Symbol.genuine ⟨kind, String.ofList lexeme⟩ = true := by
  fun_cases scan afterDot cs with
  | case2 cs hb =>
    -- the mark that opens an annotation
    obtain ⟨rfl, rfl, rfl⟩ : _ = _ ∧ _ = _ ∧ _ = _ := by simpa [scan, hb] using h
    decide
  | case3 cs hb =>
    -- a comment
    obtain ⟨rfl, _⟩ : _ = _ ∧ _ = _ ∧ _ = _ := by simpa [scan, hb] using h
    exact absurd rfl hkind
  | case4 cs body r hb =>
    -- a string literal
    obtain ⟨rfl, rfl, rfl⟩ : _ = _ ∧ _ = _ ∧ _ = _ := by simpa [scan, hb] using h
    simp [Symbol.genuine, isQuoted, closeString_self hb]
  | case6 c cs h₁ h₂ h₃ =>
    -- a number
    obtain ⟨rfl, rfl, rfl⟩ : _ = _ ∧ _ = _ ∧ _ = _ := by simpa [scan, h₁, h₂, h₃] using h
    have hself := number_self (c :: cs)
    obtain ⟨d, ds, hds⟩ := List.exists_cons_of_ne_nil (number_ne_nil cs h₃)
    have hd : d.isDigit = true := by
      have happ := number_append (c :: cs)
      rw [hds, List.cons_append, List.cons.injEq] at happ
      rw [happ.1]
      exact h₃
    rw [hds] at hself
    simp [Symbol.genuine, hds, isNumeral, hself, hd]
  | case7 c cs h₁ h₂ h₃ h₄ =>
    -- a word or the name of a builtin
    obtain ⟨rfl, rfl, rfl⟩ : _ = _ ∧ _ = _ ∧ _ = _ := by simpa [scan, h₁, h₂, h₃, h₄] using h
    exact genuine_of_word cs h₄
  | case8 c cs h₁ h₂ h₃ h₄ k hk =>
    -- a sign of one character
    obtain ⟨rfl, rfl, rfl⟩ : _ = _ ∧ _ = _ ∧ _ = _ := by simpa [scan, h₁, h₂, h₃, h₄, hk] using h
    exact genuine_of_ofSign? hk
  | _ => simp_all [scan]

/-! ## What is genuine is scanned -/

/-- A sign is what `scan` finds wherever its `spelling` stands. -/
theorem scan_sign (afterDot : Bool) {k : Kind} (rest : List Char) (hk : k.spelling ≠ "") :
    scan afterDot (k.spelling.toList ++ rest) = .token k k.spelling.toList rest := by
  cases k <;> first | rfl | exact absurd rfl hk

/-- A string literal, which passes `isQuoted`, is what `scan` finds wherever it stands. -/
theorem scan_quoted (afterDot : Bool) {cs : List Char} (rest : List Char)
    (h : isQuoted cs = true) : scan afterDot (cs ++ rest) = .token .str cs rest := by
  cases cs with
  | nil => simp [isQuoted] at h
  | cons c body =>
    simp only [isQuoted, Bool.and_eq_true, beq_iff_eq] at h
    obtain ⟨rfl, hbody⟩ := h
    simp [scan, closeString_append_rest rest hbody]

/-- A number, which passes `isNumeral`, is what `scan` finds before a text that `Ends` it. -/
theorem scan_numeral (afterDot : Bool) {cs rest : List Char} (h : isNumeral cs = true)
    (hrest : Ends rest) : scan afterDot (cs ++ rest) = .token .number cs rest := by
  cases cs with
  | nil => simp [isNumeral] at h
  | cons c digits =>
    simp only [isNumeral, Bool.and_eq_true, beq_iff_eq] at h
    obtain ⟨hc, hself⟩ := h
    have hhash : c ≠ '#' := by rintro rfl; simp at hc
    have hquote : c ≠ '"' := by rintro rfl; simp at hc
    have hnumber := number_append_rest hself hrest
    rw [List.cons_append] at hnumber ⊢
    simp [scan, hhash, hquote, hc, hnumber]

/-- A text that starts like a word is scanned as `word` says. -/
theorem scan_isWordStart (afterDot : Bool) {c : Char} (cs : List Char)
    (hc : isWordStart c = true) :
    scan afterDot (c :: cs) = .token (word afterDot (c :: cs)).1 (word afterDot (c :: cs)).2.1
      (word afterDot (c :: cs)).2.2 := by
  have hhash : c ≠ '#' := by rintro rfl; simp [isWordStart] at hc
  have hquote : c ≠ '"' := by rintro rfl; simp [isWordStart] at hc
  have hdigit := isDigit_eq_false_of_isWordStart hc
  simp [scan, hhash, hquote, hdigit, hc]

/-- A word, which passes `isWord`, is what `scan` finds before a text that does not lengthen it and
does not make a builtin of it. -/
theorem scan_word {afterDot : Bool} {cs rest : List Char} (h : isWord cs = true)
    (hrest : ∀ c ∈ rest.head?, isWordChar c = false)
    (hgx : afterDot = true ∨ cs ≠ ['g', 'x'] ∨ builtinTail rest = none) :
    scan afterDot (cs ++ rest) = .token .ident cs rest := by
  have hword := word_append_rest h hrest hgx
  cases cs with
  | nil => simp [isWord] at h
  | cons c cs =>
    have hc : isWordStart c = true := (Bool.and_eq_true_iff.1 h).1
    rw [List.cons_append] at hword ⊢
    rw [scan_isWordStart afterDot (cs ++ rest) hc, hword]

/-- The name of a builtin is `gx`, a dot and a word. -/
theorem exists_word_of_builtin (b : Builtin) :
    ∃ w, b.name.toList = ['g', 'x'] ++ '.' :: w ∧ isWord w = true := by
  cases b <;> exact ⟨_, rfl, rfl⟩

/-- A dot and the word of a builtin make `gx` its name where an opening parenthesis comes next. -/
theorem builtinTail_of_name {b : Builtin} {w rest : List Char}
    (hname : b.name.toList = ['g', 'x'] ++ '.' :: w) (hw : isWord w = true)
    (hopen : opensCall false rest = true) (hrest : ∀ c ∈ rest.head?, isWordChar c = false) :
    builtinTail ('.' :: (w ++ rest)) = some ('.' :: w, rest) := by
  have hsplit := takeWhile_dropWhile_append isWordChar rest (isWordChar_of_isWord hw) hrest
  have htext : "gx." ++ String.ofList w = b.name := by
    rw [← String.toList_inj, hname]
    simp
  have hhead : w.head?.any isWordStart = true := by
    cases w with
    | nil => simp [isWord] at hw
    | cons c cs => exact (Bool.and_eq_true_iff.1 hw).1
  have hfound : Builtin.ofName? b.name = some b := Builtin.ofName?_eq_some_iff.2 rfl
  simp [builtinTail, hsplit.1, hsplit.2, htext, hhead, hfound, hopen]

/-- The name of a builtin is what `scan` finds where `opensCall` holds of the text behind it, unless
a dot stands before it. -/
theorem scan_builtin (b : Builtin) {rest : List Char} (hopen : opensCall false rest = true)
    (hrest : ∀ c ∈ rest.head?, isWordChar c = false) :
    scan false (b.name.toList ++ rest) = .token .builtin b.name.toList rest := by
  obtain ⟨w, hname, hw⟩ := exists_word_of_builtin b
  have htail := builtinTail_of_name hname hw hopen hrest
  have hdot : isWordChar '.' = false := by decide
  have hletters := isWordChar_of_isWord (rfl : isWord ['g', 'x'] = true)
  have hgx := takeWhile_dropWhile_append isWordChar ('.' :: (w ++ rest)) hletters (by simp [hdot])
  have hword : word false ('g' :: 'x' :: '.' :: (w ++ rest)) = (.builtin, b.name.toList, rest) := by
    rw [word]
    simp only [List.cons_append, List.nil_append] at hgx hname
    simp [hgx.1, hgx.2, htail, hname]
  rw [hname]
  simp only [List.cons_append, List.nil_append] at hname ⊢
  rw [scan_isWordStart false _ (by decide), hword, hname]

end Gxl.Lexeme
