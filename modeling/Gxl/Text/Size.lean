/-!
# Sizes, slices and lines of a text

Offsets into a text count the bytes of its UTF-8 form, while a text is handled as a list of
characters.  This module measures texts in bytes (`byteSize`) and cuts them at byte offsets
(`slice?`); a cut that falls inside a character, or past the end, is refused.

It also divides a text into `lines`.  A line ends at a line feed, and a carriage return directly
before the line feed belongs to the ending.  A text that ends in a line feed has no further line
after it; a carriage return anywhere else is an ordinary character.

Reference: the slices of `src/crates/core/src/span.rs` (`Span::text`) and
`src/crates/core/src/lexer.rs`, and `str::lines` as `src/crates/core/src/diagnostic.rs` uses it
(`render`).
-/

namespace Gxl.Text

/-! ## Sizes and slices in bytes -/

/-- The number of bytes of a text in UTF-8, which is the sum of `Char.utf8Size`. -/
def byteSize : List Char → Nat
  | [] => 0
  | c :: cs => c.utf8Size + byteSize cs

@[simp] theorem byteSize_nil : byteSize [] = 0 := rfl

@[simp] theorem byteSize_cons (c : Char) (cs : List Char) :
    byteSize (c :: cs) = c.utf8Size + byteSize cs := rfl

/-- Sizes add up: `byteSize` of an append is the sum of the two. -/
@[simp] theorem byteSize_append (as bs : List Char) :
    byteSize (as ++ bs) = byteSize as + byteSize bs := by
  induction as with
  | nil => simp
  | cons c as ih => simp [ih, Nat.add_assoc]

/-- The `byteSize` of a string's characters is the size of the string. -/
theorem byteSize_toList (s : String) : byteSize s.toList = s.utf8ByteSize := by
  suffices h : ∀ cs, (String.ofList cs).utf8ByteSize = byteSize cs by
    rw [← h, String.ofList_toList]
  intro cs
  induction cs with
  | nil => simp
  | cons c cs ih =>
    have hc : String.ofList (c :: cs) = String.singleton c ++ String.ofList cs := by
      rw [String.singleton_eq_ofList, ← String.ofList_append]
      rfl
    rw [hc, String.utf8ByteSize_append, ih, String.utf8ByteSize_singleton, byteSize_cons]

/-- Cuts a text after its first `n` bytes, unless that is inside a character or past the end. -/
def splitBytes? : Nat → List Char → Option (List Char × List Char)
  | 0, cs => some ([], cs)
  | _ + 1, [] => none
  | n + 1, c :: cs =>
    if c.utf8Size ≤ n + 1 then
      (splitBytes? (n + 1 - c.utf8Size) cs).map fun (taken, rest) => (c :: taken, rest)
    else
      none

/-- The part of a text between two byte offsets, cut by `splitBytes?`.  It exists when the offsets
are in order, within the text, and each between two characters. -/
def slice? (cs : List Char) (start stop : Nat) : Option (List Char) :=
  if start ≤ stop then
    (splitBytes? start cs).bind fun (_, rest) => (splitBytes? (stop - start) rest).map Prod.fst
  else
    none

/-- A text is cut by `splitBytes?` where its first part ends. -/
theorem splitBytes?_append (as bs : List Char) :
    splitBytes? (byteSize as) (as ++ bs) = some (as, bs) := by
  induction as with
  | nil => simp [splitBytes?]
  | cons c as ih =>
    have hc : 0 < c.utf8Size := Char.utf8Size_pos c
    obtain ⟨n, hn⟩ : ∃ n, byteSize (c :: as) = n + 1 :=
      ⟨byteSize (c :: as) - 1, by simp only [byteSize_cons]; omega⟩
    have hle : c.utf8Size ≤ n + 1 := by rw [← hn, byteSize_cons]; omega
    have hsub : n + 1 - c.utf8Size = byteSize as := by rw [← hn, byteSize_cons]; omega
    rw [hn, List.cons_append, splitBytes?, if_pos hle, hsub, ih]
    rfl

/-- The `slice?` between the ends of a middle part is that part. -/
theorem slice?_append (as bs cs : List Char) :
    slice? (as ++ bs ++ cs) (byteSize as) (byteSize as + byteSize bs) = some bs := by
  rw [slice?, if_pos (Nat.le_add_right _ _), List.append_assoc, splitBytes?_append]
  simp [splitBytes?_append]

/-! ## Lines -/

/-- A line, held in reverse, without the carriage return that stands directly before its line feed.
-/
def chomp : List Char → List Char
  | '\r' :: line => line
  | line => line

/-- The lines of a text of which `line` has been read already, in reverse. -/
def linesAfter (line : List Char) : List Char → List (List Char)
  | [] => if line.isEmpty then [] else [line.reverse]
  | c :: cs =>
    if c = '\n' then (chomp line).reverse :: linesAfter [] cs else linesAfter (c :: line) cs

/-- The lines of a text, without their endings (`str::lines`). -/
def lines (cs : List Char) : List (List Char) :=
  linesAfter [] cs

end Gxl.Text
