import Gxl.Proofs.Token.Run

/-!
# The texts of literals

`closeString` and `number` split a literal off a text.  This module says without them which texts
are literals: what may stand between two quotes (`isRaw`), and what a number looks like
(`IsDecimal`).

A string literal ends with the first quote that no backslash takes (`closeString_eq_some_iff`), and
a number is the longest text that is one (`IsDecimal.length_le_number`).
-/

namespace Gxl.Lexeme

/-- Whether a text can stand between the quotes of a string literal: a backslash takes the character
after it, of which there is one, and no other quote stands in the text.  It is `closeString` turned
into a language. -/
def isRaw : List Char → Bool
  | [] => true
  | ['\\'] => false
  | '\\' :: _ :: cs => isRaw cs
  | c :: cs => c != '"' && isRaw cs

/-- Whether a text is one or more digits, as `Char.isDigit` has them. -/
def isDigits (cs : List Char) : Bool :=
  !cs.isEmpty && cs.all Char.isDigit

/-- A text that is a number: digits, or digits, a point and digits, as `isDigits` has them. -/
def IsDecimal (cs : List Char) : Prop :=
  isDigits cs = true ∨
    ∃ whole fraction, cs = whole ++ '.' :: fraction ∧ isDigits whole = true ∧
      isDigits fraction = true

/-! ## String literals -/

/-- The quote behind a text closes a string literal for `closeString` exactly if the text passes
`isRaw`. -/
theorem closeString_concat_iff (cs : List Char) :
    closeString (cs ++ ['"']) = some (cs ++ ['"'], []) ↔ isRaw cs = true := by
  fun_induction isRaw cs with
  | case1 => simp [closeString]
  | case2 => simp [closeString]
  | case3 c cs ih => simp [closeString, ← ih, Prod.ext_iff]
  | case4 c cs hlone hpair ih =>
    by_cases hc : c = '"'
    · simp [hc, closeString]
    · have hcons : ∀ (d : Char) (ds : List Char), c = '\\' → cs ++ ['"'] = d :: ds → False := by
        intro d ds hback hsplit
        cases cs with
        | nil => exact hlone hback rfl
        | cons e es => exact hpair e es hback rfl
      rw [List.cons_append, closeString.eq_4 _ _ hc hcons]
      simp [hc, ← ih, Prod.ext_iff]

/-- A text in quotes passes `isQuoted` exactly if it passes `isRaw` without them. -/
theorem isQuoted_iff_isRaw (raw : String) :
    isQuoted ("\"" ++ raw ++ "\"").toList = true ↔ isRaw raw.toList = true := by
  rw [← closeString_concat_iff]
  simp [isQuoted]

/-- A successful `closeString` splits a string literal off behind the first quote that no backslash
takes. -/
theorem closeString_eq_some_iff {cs body rest : List Char} :
    closeString cs = some (body, rest) ↔
      ∃ raw, body = raw ++ ['"'] ∧ cs = body ++ rest ∧ isRaw raw = true := by
  constructor
  · intro h
    obtain ⟨raw, rfl⟩ := closeString_last h
    exact ⟨raw, rfl, (closeString_append h).symm,
      (closeString_concat_iff raw).1 (closeString_self h)⟩
  · rintro ⟨raw, rfl, rfl, hraw⟩
    exact closeString_append_rest rest ((closeString_concat_iff raw).2 hraw)

/-- A `closeString` fails exactly if a backslash takes every quote. -/
theorem closeString_eq_none_iff {cs : List Char} :
    closeString cs = none ↔ ∀ raw tail, cs = raw ++ '"' :: tail → isRaw raw = false := by
  constructor
  · rintro h raw tail rfl
    rw [Bool.eq_false_iff]
    intro hraw
    have hclosed : closeString (raw ++ '"' :: tail) = some (raw ++ ['"'], tail) :=
      closeString_eq_some_iff.2 ⟨raw, rfl, by simp, hraw⟩
    simp [h] at hclosed
  · intro h
    rw [Option.eq_none_iff_forall_ne_some]
    rintro ⟨body, rest⟩ hclosed
    obtain ⟨raw, rfl, hcs, hraw⟩ := closeString_eq_some_iff.1 hclosed
    have hnone := h raw rest (by simp [hcs])
    simp [hraw] at hnone

/-! ## Numbers -/

/-- A text passes `isDigits` exactly if it is not empty and holds digits only. -/
theorem isDigits_iff {cs : List Char} :
    isDigits cs = true ↔ cs ≠ [] ∧ ∀ c ∈ cs, c.isDigit = true := by
  simp [isDigits]

/-- A text that `IsDecimal` starts with a digit. -/
theorem IsDecimal.exists_cons {cs : List Char} (h : IsDecimal cs) :
    ∃ c digits, cs = c :: digits ∧ c.isDigit = true := by
  rcases h with h | ⟨whole, fraction, rfl, h, -⟩ <;> obtain ⟨hne, hdigits⟩ := isDigits_iff.1 h
  · obtain ⟨c, digits, rfl⟩ := List.exists_cons_of_ne_nil hne
    exact ⟨c, digits, rfl, hdigits c (by simp)⟩
  · obtain ⟨c, digits, rfl⟩ := List.exists_cons_of_ne_nil hne
    exact ⟨c, _, rfl, hdigits c (by simp)⟩

/-- What `number` splits off `IsDecimal`, if the text starts with a digit. -/
theorem isDecimal_number {cs : List Char} (hdigit : cs.takeWhile Char.isDigit ≠ []) :
    IsDecimal (number cs).1 := by
  have hwhole : isDigits (cs.takeWhile Char.isDigit) = true :=
    isDigits_iff.2 ⟨hdigit, List.all_eq_true.1 List.all_takeWhile⟩
  fun_cases number cs with
  | case1 whole d rest _ hd =>
    have hfraction : isDigits ((d :: rest).takeWhile Char.isDigit) = true :=
      isDigits_iff.2 ⟨by simp [hd], List.all_eq_true.1 List.all_takeWhile⟩
    exact .inr ⟨whole, _, rfl, hwhole, hfraction⟩
  | case2 => exact .inl hwhole
  | case3 => exact .inl hwhole

/-- A text that `IsDecimal` is split off whole by `number`, its fraction included. -/
theorem number_of_isDecimal {cs : List Char} (h : IsDecimal cs) : number cs = (cs, []) := by
  rcases h with h | ⟨whole, fraction, rfl, hwhole, hfraction⟩
  · have hnumber : number (cs ++ []) = (cs, []) :=
      number_digits (isDigits_iff.1 h).2 (by simp) rfl
    rwa [List.append_nil] at hnumber
  · obtain ⟨hne, hdigits⟩ := isDigits_iff.1 hfraction
    have hnumber : number (whole ++ '.' :: fraction ++ []) = (whole ++ '.' :: fraction, []) :=
      number_fraction (isDigits_iff.1 hwhole).2 hne hdigits (by simp)
    rwa [List.append_nil] at hnumber

/-- The number literals of the grammar, those that pass `isNumeral`, are the texts that `IsDecimal`
describes. -/
theorem isNumeral_iff_isDecimal (cs : List Char) : isNumeral cs = true ↔ IsDecimal cs := by
  constructor
  · intro h
    cases cs with
    | nil => simp [isNumeral] at h
    | cons c cs =>
      obtain ⟨hc, hnumber⟩ : c.isDigit = true ∧ number (c :: cs) = (c :: cs, []) := by
        simpa [isNumeral] using h
      have hdigit : (c :: cs).takeWhile Char.isDigit ≠ [] := by simp [hc]
      have hdecimal := isDecimal_number hdigit
      rwa [hnumber] at hdecimal
  · intro h
    have hnumber := number_of_isDecimal h
    obtain ⟨c, digits, rfl, hc⟩ := h.exists_cons
    simp [isNumeral, hc, hnumber]

/-- A number that a text starts with is no longer than the one that `number` splits off. -/
theorem IsDecimal.length_le_number {front : List Char} (h : IsDecimal front) (back : List Char) :
    front.length ≤ (number (front ++ back)).1.length := by
  rcases h with h | ⟨whole, fraction, rfl, hwhole, hfraction⟩
  · have hdigits := (isDigits_iff.1 h).2
    have hle : front.length ≤ ((front ++ back).takeWhile Char.isDigit).length := by
      rw [List.takeWhile_append_of_pos hdigits, List.length_append]
      exact Nat.le_add_right _ _
    fun_cases number (front ++ back) with
    | case1 =>
      rw [List.length_append]
      exact Nat.le_trans hle (Nat.le_add_right _ _)
    | case2 => exact hle
    | case3 => exact hle
  · -- the fraction may go on in the text behind
    obtain ⟨hne, hdigits⟩ := isDigits_iff.1 hfraction
    have hrun : fraction.length ≤ ((fraction ++ back).takeWhile Char.isDigit).length := by
      rw [List.takeWhile_append_of_pos hdigits, List.length_append]
      exact Nat.le_add_right _ _
    have hnumber := number_fraction (isDigits_iff.1 hwhole).2
      (List.ne_nil_of_length_pos (Nat.lt_of_lt_of_le (List.length_pos_iff.2 hne) hrun))
      (List.all_eq_true.1 List.all_takeWhile) (head_dropWhile Char.isDigit (fraction ++ back))
    rw [List.append_assoc, List.cons_append, List.takeWhile_append_dropWhile] at hnumber
    rw [List.append_assoc, List.cons_append, hnumber]
    simpa using hrun

end Gxl.Lexeme
