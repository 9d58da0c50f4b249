import Mathlib.Data.List.Basic
import Gxl.Json.Text

/-!
# The text of a JSON value tells the value

Two values are never written alike: `Json.compact` and `Json.pretty` are injective
(`compact_injective`, `pretty_injective`), as is `Json.textAt` in every `Style`.

## The shape of the argument

A text is read from the left.  Its first character tells the constructor (`head_textAt`); a string
ends at its closing quote, since no text of `escapeChar` starts with one, and those texts are a
prefix code (`eq_of_prefix_escapeChar`); an array or object goes on with a comma or ends.  Only a
number does not say itself where it ends, so what stands behind a value is asked not to go on with a
digit or a point (`Ends`).  A value is `Told` by its text when two texts with such ends are only
equal where the values and the ends are, and `told_textAt` is the induction over values.
-/

namespace Gxl.Json

/-- What stands behind a value: `rest` does not go on with a digit or a point. -/
def Ends (rest : List Char) : Prop :=
  ∀ c ∈ rest.head?, c.isDigit = false ∧ c ≠ '.'

@[simp] theorem ends_nil : Ends [] := by
  simp [Ends]

@[simp] theorem ends_cons {c : Char} {rest : List Char} :
    Ends (c :: rest) ↔ c.isDigit = false ∧ c ≠ '.' := by
  simp [Ends]

/-- Among texts with something behind them, `text a` is written for `a` alone. -/
def Told {α : Type} (text : α → String) (a : α) : Prop :=
  ∀ ⦃b : α⦄ ⦃rest rest' : List Char⦄, Ends rest → Ends rest' →
    (text a).toList ++ rest = (text b).toList ++ rest' → a = b ∧ rest = rest'

/-! ## Strings -/

/-- The characters that stand for themselves in a string, as `escapeChar` has it. -/
def isPlain (c : Char) : Bool :=
  0x20 ≤ c.toNat && c != '"' && c != '\\'

/-- The characters that do not: those for which `isPlain` fails. -/
def escaped : List Char :=
  '"' :: '\\' :: (List.range 0x20).map Char.ofNat

/-- A character that is not plain is one of those `escaped`. -/
theorem mem_escaped {c : Char} (h : isPlain c = false) : c ∈ escaped := by
  have hcases : c.toNat < 0x20 ∨ c = '"' ∨ c = '\\' := by
    by_contra hne
    simp only [not_or, Nat.not_lt] at hne
    simp [isPlain, hne] at h
  rcases hcases with hlow | rfl | rfl
  · exact .tail _ (.tail _ (List.mem_map.2
      ⟨c.toNat, List.mem_range.2 hlow, Char.ofNat_toNat c⟩))
  · exact .head _
  · exact .tail _ (.head _)

/-- The text that `escapeChar` gives for a plain character is the character. -/
theorem escapeChar_of_plain {c : Char} (h : isPlain c = true) :
    (escapeChar c).toList = [c] := by
  have hlow : 0x20 ≤ c.toNat := by
    simp only [isPlain, Bool.and_eq_true, decide_eq_true_eq] at h
    exact h.1.1
  unfold escapeChar
  split <;> try exact absurd h (by decide)
  rw [if_neg (by omega), if_neg (by omega)]
  simp

/-- The escaped characters are few, so their texts are looked at one by one. -/
theorem all_escaped :
    (escaped.all fun c => (escapeChar c).toList.head? == some '\\' &&
      escaped.all fun d => !(escapeChar c).toList.isPrefixOf (escapeChar d).toList || c == d)
      = true := by
  decide +kernel

/-- The text that `escapeChar` gives for an escaped character starts with a backslash, and none
starts another. -/
theorem escapeChar_of_escaped {c : Char} (hc : c ∈ escaped) :
    (escapeChar c).toList.head? = some '\\' ∧
      ∀ d ∈ escaped, (escapeChar c).toList <+: (escapeChar d).toList → c = d := by
  have hall := List.all_eq_true.1 all_escaped c hc
  rw [Bool.and_eq_true, List.all_eq_true] at hall
  refine ⟨beq_iff_eq.1 hall.1, fun d hd hprefix => ?_⟩
  have hpair := hall.2 d hd
  rw [List.isPrefixOf_iff_prefix.2 hprefix] at hpair
  simpa using hpair

/-- The text that `escapeChar` gives starts with the character or with a backslash. -/
theorem head_escapeChar (c : Char) :
    (escapeChar c).toList.head? = some (if isPlain c then c else '\\') := by
  cases hc : isPlain c with
  | true => simp [escapeChar_of_plain hc]
  | false => simp [(escapeChar_of_escaped (mem_escaped hc)).1]

/-- The texts of `escapeChar` are a prefix code. -/
theorem eq_of_prefix_escapeChar {c d : Char}
    (h : (escapeChar c).toList <+: (escapeChar d).toList) : c = d := by
  have hhead : (if isPlain c then c else '\\') = if isPlain d then d else '\\' := by
    obtain ⟨rest, hrest⟩ := h
    have := head_escapeChar d
    rw [← hrest, List.head?_append, head_escapeChar c] at this
    simpa using this
  cases hc : isPlain c <;> cases hd : isPlain d <;> simp only [hc, hd, ↓reduceIte] at hhead
  case false.false => exact (escapeChar_of_escaped (mem_escaped hc)).2 d (mem_escaped hd) h
  case true.true => exact hhead
  case false.true => simp [← hhead, isPlain] at hd
  case true.false => simp [hhead, isPlain] at hc

/-- So the text that `escapeChar` gives tells the character, whatever stands behind it. -/
theorem eq_of_escapeChar_append {c d : Char} {rest rest' : List Char}
    (h : (escapeChar c).toList ++ rest = (escapeChar d).toList ++ rest') :
    c = d ∧ rest = rest' := by
  have hcd : c = d := by
    have hprefix := List.prefix_append (escapeChar c).toList rest
    rw [h] at hprefix
    rcases List.prefix_or_prefix_of_prefix hprefix (List.prefix_append _ _) with hle | hle
    · exact eq_of_prefix_escapeChar hle
    · exact (eq_of_prefix_escapeChar hle).symm
  subst hcd
  exact ⟨rfl, List.append_cancel_left h⟩

/-- No text that `escapeChar` gives starts with the closing quote of a string. -/
theorem escapeChar_append_ne (c : Char) (rest rest' : List Char) :
    (escapeChar c).toList ++ rest ≠ '"' :: rest' := by
  intro h
  have hhead := congrArg List.head? h
  rw [List.head?_append, head_escapeChar] at hhead
  cases hc : isPlain c with
  | true =>
    obtain rfl : c = '"' := by simpa [hc] using hhead
    exact absurd hc (by decide)
  | false => simp [hc] at hhead

/-- The text between the quotes is told by what `escapeChar` gives for its characters, up to the
closing quote. -/
theorem eq_of_escaped_append {cs ds rest rest' : List Char}
    (h : (cs.flatMap fun c => (escapeChar c).toList) ++ '"' :: rest
      = (ds.flatMap fun d => (escapeChar d).toList) ++ '"' :: rest') :
    cs = ds ∧ rest = rest' := by
  induction cs generalizing ds with
  | nil =>
    cases ds with
    | nil => simpa using h
    | cons d ds => exact absurd (by simpa using h.symm) (escapeChar_append_ne d _ _)
  | cons c cs ih =>
    cases ds with
    | nil => exact absurd (by simpa using h) (escapeChar_append_ne c _ _)
    | cons d ds =>
      simp only [List.flatMap_cons, List.append_assoc] at h
      obtain ⟨rfl, hbehind⟩ := eq_of_escapeChar_append h
      obtain ⟨hcs, hrest⟩ := ih hbehind
      exact ⟨congrArg (c :: ·) hcs, hrest⟩

/-- A string that is written by `quote` ends at its closing quote, so its text tells it. -/
theorem eq_of_quote_append {s t : String} {rest rest' : List Char}
    (h : (quote s).toList ++ rest = (quote t).toList ++ rest') : s = t ∧ rest = rest' := by
  simp only [quote, String.toList_append, String.toList_join, List.flatMap_map] at h
  obtain ⟨hst, hrest⟩ := eq_of_escaped_append (by simpa using h)
  exact ⟨String.toList_inj.1 hst, hrest⟩

/-! ## Numbers -/

/-- Leading zeros are of no account to `Nat.ofDigitChars`. -/
theorem ofDigitChars_zeros (n : Nat) (ds : List Char) :
    Nat.ofDigitChars 10 (List.replicate n '0' ++ ds) 0 = Nat.ofDigitChars 10 ds 0 := by
  induction n with
  | zero => rfl
  | succ n ih =>
    rw [List.replicate_succ, List.cons_append, Nat.ofDigitChars_cons]
    exact ih

/-- The sign of the number with these `digits`. -/
def sign (digits : Int) : List Char :=
  if digits < 0 then ['-'] else []

/-- A point and the places `fraction` behind it, if there are any. -/
def pointed (fraction : List Char) : List Char :=
  if fraction = [] then [] else '.' :: fraction

/-- A number that `decimal` writes is its `sign`, the digits before its point, and its places. -/
theorem decimal_parts (digits : Int) (places : Nat) :
    ∃ whole fraction, (decimal digits places).toList = sign digits ++ whole ++ pointed fraction ∧
      (∀ c ∈ whole, c.isDigit = true) ∧ (∀ c ∈ fraction, c.isDigit = true) ∧ whole ≠ [] ∧
      fraction.length = places ∧
      Nat.ofDigitChars 10 (whole ++ fraction) 0 = digits.natAbs := by
  obtain ⟨padded, hpadded⟩ : ∃ padded, padded = List.replicate
      (places + 1 - (Nat.toDigits 10 digits.natAbs).length) '0'
        ++ Nat.toDigits 10 digits.natAbs := ⟨_, rfl⟩
  have hdigit : ∀ c ∈ padded, c.isDigit = true := by
    intro c hc
    rw [hpadded, List.mem_append, List.mem_replicate] at hc
    rcases hc with ⟨-, rfl⟩ | hc
    · rfl
    · exact Nat.isDigit_of_mem_toDigits (by decide) (by decide) hc
  have hlength : places + 1 ≤ padded.length := by
    rw [hpadded, List.length_append, List.length_replicate]
    omega
  have hfraction : (padded.drop (padded.length - places)).length = places := by
    rw [List.length_drop]
    omega
  refine ⟨padded.take (padded.length - places), padded.drop (padded.length - places), ?_,
    fun c hc => hdigit c (List.mem_of_mem_take hc),
    fun c hc => hdigit c (List.mem_of_mem_drop hc), ?_, hfraction, ?_⟩
  · have hempty : padded.drop (padded.length - places) = [] ↔ places = 0 := by
      rw [← List.length_eq_zero_iff, hfraction]
    simp only [decimal, ← hpadded, pointed, hempty]
    split <;> simp [sign, apply_ite String.toList]
  · rw [ne_eq, ← List.length_eq_zero_iff, List.length_take]
    omega
  · rw [List.take_append_drop, hpadded, ofDigitChars_zeros,
      Nat.ofDigitChars_toDigits (by decide) (by decide)]

/-- Digits, as `Char.isDigit` has them, end where something else stands behind them. -/
theorem eq_of_digits_append {ds es rest rest' : List Char} (hds : ∀ c ∈ ds, c.isDigit = true)
    (hes : ∀ c ∈ es, c.isDigit = true) (hrest : ∀ c ∈ rest.head?, c.isDigit = false)
    (hrest' : ∀ c ∈ rest'.head?, c.isDigit = false) (h : ds ++ rest = es ++ rest') :
    ds = es ∧ rest = rest' := by
  induction ds generalizing es with
  | nil =>
    cases es with
    | nil => exact ⟨rfl, h⟩
    | cons e es =>
      obtain rfl : rest = e :: (es ++ rest') := h
      simp [hes e (.head _)] at hrest
  | cons d ds ih =>
    cases es with
    | nil =>
      obtain rfl : d :: (ds ++ rest) = rest' := h
      simp [hds d (.head _)] at hrest'
    | cons e es =>
      obtain ⟨rfl, hbehind⟩ := List.cons.inj h
      obtain ⟨hds, hrest⟩ := ih (fun c hc => hds c (.tail _ hc)) (fun c hc => hes c (.tail _ hc))
        hbehind
      exact ⟨congrArg (d :: ·) hds, hrest⟩

/-- Behind `sign` stands a digit, so the text tells whether the number is negative. -/
theorem eq_of_sign_append {m n : Int} {rest rest' : List Char}
    (hrest : ∀ c ∈ rest.head?, c.isDigit = true) (hrest' : ∀ c ∈ rest'.head?, c.isDigit = true)
    (h : sign m ++ rest = sign n ++ rest') : (m < 0 ↔ n < 0) ∧ rest = rest' := by
  unfold sign at h
  split at h <;> split at h
  · exact ⟨by simp [*], List.append_cancel_left h⟩
  · obtain rfl : '-' :: rest = rest' := h
    exact absurd (hrest' _ rfl) (by decide)
  · obtain rfl : rest = '-' :: rest' := h
    exact absurd (hrest _ rfl) (by decide)
  · exact ⟨by simp [*], h⟩

/-- The places of a number end with `pointed`, and with them its whole digits. -/
theorem head_pointed {rest : List Char} (hrest : Ends rest) (fraction : List Char) :
    ∀ c ∈ (pointed fraction ++ rest).head?, c.isDigit = false := by
  unfold pointed
  split
  · exact fun c hc => (hrest c hc).1
  · rintro c ⟨⟩
    rfl

/-- A point and the places behind it are told by their text, if what is left `Ends` them. -/
theorem eq_of_pointed_append {ds es rest rest' : List Char} (hds : ∀ c ∈ ds, c.isDigit = true)
    (hes : ∀ c ∈ es, c.isDigit = true) (hrest : Ends rest) (hrest' : Ends rest')
    (h : pointed ds ++ rest = pointed es ++ rest') : ds = es ∧ rest = rest' := by
  unfold pointed at h
  split at h <;> split at h
  · simp_all
  · obtain rfl : rest = '.' :: (es ++ rest') := h
    exact absurd rfl (hrest _ rfl).2
  · obtain rfl : '.' :: (ds ++ rest) = rest' := h
    exact absurd rfl (hrest' _ rfl).2
  · exact eq_of_digits_append hds hes (fun c hc => (hrest c hc).1) (fun c hc => (hrest' c hc).1)
      (List.cons.inj h).2

/-- The text of a number tells its digits and its places, if what is left `Ends` it. -/
theorem eq_of_decimal_append {m n : Int} {p q : Nat} {rest rest' : List Char} (hrest : Ends rest)
    (hrest' : Ends rest')
    (h : (decimal m p).toList ++ rest = (decimal n q).toList ++ rest') :
    m = n ∧ p = q ∧ rest = rest' := by
  obtain ⟨whole, fraction, htext, hwhole, hfraction, hne, rfl, hm⟩ := decimal_parts m p
  obtain ⟨whole', fraction', htext', hwhole', hfraction', hne', rfl, hn⟩ := decimal_parts n q
  have hhead : ∀ {ds : List Char} (tail : List Char), ds ≠ [] → (∀ c ∈ ds, c.isDigit = true) →
      ∀ c ∈ (ds ++ tail).head?, c.isDigit = true := by
    intro ds tail hds hdigit c hc
    rw [List.head?_append_of_ne_nil _ hds] at hc
    exact hdigit c (List.mem_of_mem_head? hc)
  simp only [htext, htext', List.append_assoc] at h
  obtain ⟨hsign, hdigits⟩ := eq_of_sign_append (hhead _ hne hwhole) (hhead _ hne' hwhole') h
  obtain ⟨rfl, hplaces⟩ := eq_of_digits_append hwhole hwhole' (head_pointed hrest _)
    (head_pointed hrest' _) hdigits
  obtain ⟨rfl, hbehind⟩ := eq_of_pointed_append hfraction hfraction' hrest hrest' hplaces
  exact ⟨by omega, rfl, hbehind⟩

/-! ## Arrays and objects -/

/-- What stands behind a part between brackets, if `parts` follow it. -/
def Style.behind (style : Style) (closing : Char) (depth : Nat) : List String → List Char
  | [] => (style.line depth).toList ++ [closing]
  | part :: parts =>
    ',' :: ((style.line (depth + 1)).toList
      ++ (part.toList ++ style.behind closing depth parts))

section Enclose

variable {style : Style} {closing : Char} {depth : Nat}

/-- Parts between separators and a closing bracket are the first of them, and then what
`Style.behind` puts behind it. -/
theorem toList_intercalate_behind (part : String) (parts : List String) :
    (("," ++ style.line (depth + 1)).intercalate (part :: parts)).toList
        ++ ((style.line depth).toList ++ [closing])
      = part.toList ++ style.behind closing depth parts := by
  induction parts generalizing part with
  | nil => simp [Style.behind]
  | cons next parts ih =>
    rw [String.intercalate_cons_cons, String.toList_append, List.append_assoc, ih]
    simp [Style.behind]

/-- What `Style.enclose` writes for one part or more, with `Style.behind` for all that stands behind
the first. -/
theorem toList_enclose_cons {opening closed : String} (hclosed : closed.toList = [closing])
    (part : String) (parts : List String) :
    (style.enclose opening closed depth (part :: parts)).toList
      = opening.toList ++ ((style.line (depth + 1)).toList
          ++ (part.toList ++ style.behind closing depth parts)) := by
  rw [← toList_intercalate_behind]
  simp [Style.enclose, hclosed]

/-- What `Style.line` begins starts with a blank, or else with what the line holds. -/
theorem head_line {c : Char} {rest : List Char}
    (h : c ∈ ((style.line depth).toList ++ rest).head?) : c = ' ' ∨ c = '\n' ∨ c ∈ rest.head? := by
  have hblank := style.blank_line depth
  cases hline : (style.line depth).toList with
  | nil => exact .inr (.inr (by simpa [hline] using h))
  | cons d ds =>
    obtain rfl : d = c := by simpa [hline] using h
    exact (hblank d (by simp [hline])).imp_right .inl

variable (hclosing : closing = ']' ∨ closing = '\x7d')
include hclosing

/-- No number goes on with what `Style.behind` writes. -/
theorem ends_behind (parts : List String) (rest : List Char) :
    Ends (style.behind closing depth parts ++ rest) := by
  cases parts with
  | nil =>
    intro c hc
    rw [Style.behind, List.append_assoc] at hc
    rcases head_line hc with rfl | rfl | hc
    · decide
    · decide
    · obtain rfl : closing = c := by simpa using hc
      rcases hclosing with rfl | rfl <;> decide
  | cons part parts => exact ends_cons.2 (by decide)

/-- What `Style.behind` writes behind the last part starts with no comma. -/
theorem behind_nil_append_ne (rest rest' : List Char) :
    style.behind closing depth [] ++ rest ≠ ',' :: rest' := by
  intro h
  rw [Style.behind, List.append_assoc] at h
  rcases head_line (c := ',') (by rw [h]; rfl) with hc | hc | hc
  · exact absurd hc (by decide)
  · exact absurd hc (by decide)
  · obtain rfl : closing = ',' := by simpa using hc
    revert hclosing
    decide

/-- Brackets with nothing between them are not brackets around parts of which none starts with the
closing one. -/
theorem enclose_nil_append_ne {opening closed : String} (hclosed : closed.toList = [closing])
    {part : String} (hpart : ∃ c ∈ part.toList.head?, c ≠ closing) (parts : List String)
    (rest rest' : List Char) :
    (style.enclose opening closed depth []).toList ++ rest
      ≠ (style.enclose opening closed depth (part :: parts)).toList ++ rest' := by
  intro h
  have hline : (style.line (depth + 1)).toList
      ++ (part.toList ++ (style.behind closing depth parts ++ rest')) = closing :: rest := by
    rw [toList_enclose_cons hclosed] at h
    simpa [Style.enclose, hclosed] using h.symm
  obtain ⟨c, hc, hne⟩ := hpart
  rcases head_line (c := closing) (by rw [hline]; rfl) with rfl | rfl | hfirst
  · exact absurd hclosing (by decide)
  · exact absurd hclosing (by decide)
  · rw [List.head?_append, Option.mem_def.1 hc] at hfirst
    exact hne (by simpa using hfirst)

variable {α : Type} {text : α → String} {xs ys : List α} {rest rest' : List Char}
  (htold : ∀ x ∈ xs, Told text x)
include htold

/-- Parts are told apart by what `Style.behind` writes for them, if each of them is. -/
theorem eq_of_behind_append
    (h : style.behind closing depth (xs.map text) ++ rest
      = style.behind closing depth (ys.map text) ++ rest') : xs = ys ∧ rest = rest' := by
  induction xs generalizing ys with
  | nil =>
    cases ys with
    | nil => exact ⟨rfl, List.append_cancel_left h⟩
    | cons y ys => exact absurd h (behind_nil_append_ne hclosing _ _)
  | cons x xs ih =>
    cases ys with
    | nil => exact absurd h.symm (behind_nil_append_ne hclosing _ _)
    | cons y ys =>
      simp only [List.map_cons, Style.behind, List.cons_append, List.append_assoc, List.cons.injEq,
        true_and, List.append_cancel_left_eq] at h
      obtain ⟨rfl, hbehind⟩ := htold x (.head _) (ends_behind hclosing _ _)
        (ends_behind hclosing _ _) h
      obtain ⟨hxs, hrest⟩ := ih (fun z hz => htold z (.tail _ hz)) hbehind
      exact ⟨congrArg (x :: ·) hxs, hrest⟩

/-- Parts are told apart by what `Style.enclose` writes for them, if each of them is and none starts
with the closing bracket. -/
theorem eq_of_enclose_append {opening closed : String} (hclosed : closed.toList = [closing])
    (hopen : ∀ y, ∃ c ∈ (text y).toList.head?, c ≠ closing)
    (h : (style.enclose opening closed depth (xs.map text)).toList ++ rest
      = (style.enclose opening closed depth (ys.map text)).toList ++ rest') :
    xs = ys ∧ rest = rest' := by
  cases xs with
  | nil =>
    cases ys with
    | nil => exact ⟨rfl, List.append_cancel_left h⟩
    | cons y ys => exact absurd h (enclose_nil_append_ne hclosing hclosed (hopen y) _ _ _)
  | cons x xs =>
    cases ys with
    | nil => exact absurd h.symm (enclose_nil_append_ne hclosing hclosed (hopen x) _ _ _)
    | cons y ys =>
      simp only [List.map_cons, toList_enclose_cons hclosed, List.append_assoc,
        List.append_cancel_left_eq] at h
      -- all the parts stand as they would behind another one
      have hbehind : style.behind closing depth ((x :: xs).map text) ++ rest
          = style.behind closing depth ((y :: ys).map text) ++ rest' := by
        simpa [Style.behind] using h
      exact eq_of_behind_append hclosing htold hbehind

end Enclose

/-! ## Values -/

/-- The constructor of a value, as `Json.ctorIdx` counts them, by the first character of its
text. -/
def constructorOf (c : Char) : Option Nat :=
  match c with
  | 'n' => some 0
  | 't' | 'f' => some 1
  | '"' => some 3
  | '[' => some 4
  | '\x7b' => some 5
  | c => if c.isDigit || c = '-' then some 2 else none

theorem constructorOf_number {c : Char} (h : c.isDigit = true ∨ c = '-') :
    constructorOf c = some 2 := by
  unfold constructorOf
  split <;> first | exact absurd h (by decide) | simp [h]

/-- The text that `decimal` writes starts with a sign or a digit. -/
theorem head_decimal (digits : Int) (places : Nat) :
    ∃ c ∈ (decimal digits places).toList.head?, c.isDigit = true ∨ c = '-' := by
  obtain ⟨whole, fraction, htext, hwhole, -, hne, -, -⟩ := decimal_parts digits places
  obtain ⟨c, cs, rfl⟩ := List.exists_cons_of_ne_nil hne
  rw [htext]
  unfold sign
  split
  · exact ⟨'-', rfl, .inr rfl⟩
  · exact ⟨c, rfl, .inl (hwhole c (.head _))⟩

theorem head_enclose (style : Style) {opening : String} {c : Char} (h : opening.toList = [c])
    (closed : String) (depth : Nat) (parts : List String) :
    (style.enclose opening closed depth parts).toList.head? = some c := by
  unfold Style.enclose
  split <;> simp [h]

/-- The first character of a text tells by `constructorOf` the constructor of the value. -/
theorem head_textAt (style : Style) (depth : Nat) (v : Json) :
    ∃ c ∈ (v.textAt style depth).toList.head?, constructorOf c = some v.ctorIdx := by
  cases v with
  | null => exact ⟨'n', by simp [textAt], rfl⟩
  | bool b =>
    cases b with
    | false => exact ⟨'f', by simp [textAt], rfl⟩
    | true => exact ⟨'t', by simp [textAt], rfl⟩
  | number digits places =>
    obtain ⟨c, hc, hdigit⟩ := head_decimal digits places
    exact ⟨c, by simpa only [textAt] using hc, constructorOf_number hdigit⟩
  | string s => exact ⟨'\x22', by simp [textAt, quote], rfl⟩
  | array items => exact ⟨'[', by simp only [textAt]; exact head_enclose style rfl _ _ _, rfl⟩
  | object fields =>
    exact ⟨'\x7b', by simp only [textAt]; exact head_enclose style rfl _ _ _, rfl⟩

/-- So texts that agree are texts of values with one `ctorIdx`. -/
theorem ctorIdx_eq_of_append {style : Style} {depth : Nat} {v w : Json} {rest rest' : List Char}
    (h : (v.textAt style depth).toList ++ rest = (w.textAt style depth).toList ++ rest') :
    v.ctorIdx = w.ctorIdx := by
  obtain ⟨c, hc, hv⟩ := head_textAt style depth v
  obtain ⟨d, hd, hw⟩ := head_textAt style depth w
  have hcd : c = d := by
    have hhead := congrArg List.head? h
    rw [List.head?_append, List.head?_append, Option.mem_def.1 hc, Option.mem_def.1 hd] at hhead
    simpa using hhead
  exact Option.some.inj (hv.symm.trans ((congrArg constructorOf hcd).trans hw))

/-- A field of an object at a depth, as `Style` has it: its name, a colon and its value. -/
def fieldText (style : Style) (depth : Nat) (field : String × Json) : String :=
  quote field.1 ++ ":" ++ style.gap ++ field.2.textAt style depth

/-- The texts of the items of an array are their `textAt`. -/
theorem itemTexts_eq (style : Style) (depth : Nat) (items : List Json) :
    itemTexts style depth items = items.map (textAt style depth) := by
  induction items with
  | nil => simp [itemTexts]
  | cons v items ih => simp [itemTexts, ih]

/-- The texts of the fields of an object are their `fieldText`. -/
theorem fieldTexts_eq (style : Style) (depth : Nat) (fields : List (String × Json)) :
    fieldTexts style depth fields = fields.map (fieldText style depth) := by
  induction fields with
  | nil => simp [fieldTexts]
  | cons field fields ih => simp [fieldTexts, fieldText, ih]

/-- A field is `Told` by its text if its value is. -/
theorem told_fieldText {style : Style} {depth : Nat} {field : String × Json}
    (h : Told (textAt style depth) field.2) : Told (fieldText style depth) field := by
  intro other rest rest' hrest hrest' heq
  simp only [fieldText, String.toList_append, List.append_assoc] at heq
  obtain ⟨hname, hbehind⟩ := eq_of_quote_append heq
  obtain ⟨hvalue, hend⟩ := h hrest hrest' (by simpa using hbehind)
  exact ⟨Prod.ext hname hvalue, hend⟩

/-- No text of a value starts with the bracket that closes an array. -/
theorem exists_head_ne (style : Style) (depth : Nat) (v : Json) :
    ∃ c ∈ (v.textAt style depth).toList.head?, c ≠ ']' := by
  obtain ⟨c, hc, hv⟩ := head_textAt style depth v
  refine ⟨c, hc, ?_⟩
  rintro rfl
  exact absurd hv (by simp [constructorOf])

/-- The value of a field is smaller than the object, which is what `told_textAt` recurs on. -/
theorem sizeOf_value_lt {field : String × Json} {fields : List (String × Json)}
    (h : field ∈ fields) : sizeOf field.2 < 1 + sizeOf fields := by
  have hfield := List.sizeOf_lt_of_mem h
  obtain ⟨name, value⟩ := field
  rw [Prod.mk.sizeOf_spec] at hfield
  simp only
  omega

/-- Every value is `Told` by its text, in every style and at every depth. -/
theorem told_textAt (style : Style) (v : Json) (depth : Nat) : Told (textAt style depth) v := by
  intro w rest rest' hrest hrest' h
  match v, w, ctorIdx_eq_of_append h with
  | .null, .null, _ => exact ⟨rfl, List.append_cancel_left h⟩
  | .bool b, .bool b', _ =>
    cases b <;> cases b' <;> simp_all [textAt]
  | .number m p, .number n q, _ =>
    obtain ⟨rfl, rfl, hend⟩ := eq_of_decimal_append hrest hrest' (by simpa only [textAt] using h)
    exact ⟨rfl, hend⟩
  | .string s, .string t, _ =>
    obtain ⟨rfl, hend⟩ := eq_of_quote_append (by simpa only [textAt] using h)
    exact ⟨rfl, hend⟩
  | .array items, .array items', _ =>
    simp only [textAt, itemTexts_eq] at h
    obtain ⟨rfl, hend⟩ := eq_of_enclose_append (.inl rfl)
      (fun x hx => told_textAt style x (depth + 1)) rfl (exists_head_ne style (depth + 1)) h
    exact ⟨rfl, hend⟩
  | .object fields, .object fields', _ =>
    simp only [textAt, fieldTexts_eq] at h
    obtain ⟨rfl, hend⟩ := eq_of_enclose_append (.inr rfl)
      (fun field hfield =>
        have hsize := sizeOf_value_lt hfield
        told_fieldText (told_textAt style field.2 (depth + 1))) rfl
      (fun field => ⟨'\x22', by simp [fieldText, quote], by decide⟩) h
    exact ⟨rfl, hend⟩
termination_by v

/-- So `textAt` writes no two values alike at one depth. -/
theorem textAt_injective (style : Style) (depth : Nat) :
    Function.Injective (textAt style depth) := by
  intro v w h
  exact (told_textAt style v depth ends_nil ends_nil (congrArg (·.toList ++ []) h)).1

/-- Values that `compact` writes alike, on one line, are equal. -/
theorem compact_injective : Function.Injective compact :=
  textAt_injective .oneLine 0

/-- Values that `pretty` writes alike, over several lines, are equal. -/
theorem pretty_injective : Function.Injective pretty :=
  textAt_injective .indented 0

end Gxl.Json
