/-!
# Values of TOML

The settings of the formatter are kept in a TOML file.  This module has the values of TOML and the
statements that make up a file; `Gxl.Toml.Reader` reads them.

A scalar that is not a string is a run of letters, digits and a few signs: a number, a truth value
or a moment.  The functions in `Gxl.Toml.Scalar` tell what such a run means; a run that means
nothing is refused.

Reference: the values of the `toml` crate as `src/crates/cli/src/config.rs` uses it
(`parse_config`).
-/

namespace Gxl.Toml

/-- A TOML value.  Floats and moments are kept as written. -/
inductive Value where
  | string (s : String)
  | integer (n : Int)
  | float (text : String)
  | boolean (b : Bool)
  | moment (text : String)
  | array (items : List Value)
  /-- A table on one line: the path of each key, and its value. -/
  | table (fields : List (List String × Value))
  deriving Inhabited

/-- A statement of a TOML file. -/
inductive Statement where
  /-- The header of a table. -/
  | header (path : List String)
  /-- The header of a table in an array of tables. -/
  | arrayHeader (path : List String)
  /-- A key and its value. -/
  | assign (path : List String) (value : Value)
  deriving Inhabited

namespace Scalar

/-- Whether `c` may stand in a scalar that is not a string: a letter, a digit or one of `+-._:`. -/
def isScalarChar (c : Char) : Bool :=
  c.isAlphanum || c == '_' || c == '+' || c == '-' || c == '.' || c == ':'

/-! ## Integers -/

/-- Digits in which single underscores may stand between two digits, without the underscores. -/
def ungroup (isDigit : Char → Bool) : List Char → Option (List Char)
  | [] => none
  | [c] => if isDigit c then some [c] else none
  | c :: '_' :: cs => if isDigit c then (ungroup isDigit cs).map (c :: ·) else none
  | c :: cs => if isDigit c then (ungroup isDigit cs).map (c :: ·) else none

/-- The value of a digit, up to sixteen digits. -/
def digitValue (c : Char) : Nat :=
  if c.isDigit then c.toNat - '0'.toNat
  else if c.isLower then c.toNat - 'a'.toNat + 10
  else c.toNat - 'A'.toNat + 10

/-- Whether a character is a digit in a base up to sixteen. -/
def isDigitIn (base : Nat) (c : Char) : Bool :=
  c.isAlphanum && digitValue c < base

/-- The natural number that the digits `ds` spell in a base. -/
def natOfDigits (base : Nat) (ds : List Char) : Nat :=
  ds.foldl (fun n d => n * base + digitValue d) 0

/-- The natural number that grouped digits spell in a base, once `ungroup` has taken them apart. -/
def natIn (base : Nat) (cs : List Char) : Option Nat :=
  (ungroup (isDigitIn base) cs).map (natOfDigits base)

/-- Decimal digits, which start with `0` only when there is no other. -/
def wholeDigits (cs : List Char) : Option (List Char) :=
  if cs.head? = some '0' && cs.length > 1 then none else ungroup Char.isDigit cs

/-- The sign `+` or `-` at the front, if there is one, and what follows it. -/
def splitSign : List Char → Option Char × List Char
  | '+' :: cs => (some '+', cs)
  | '-' :: cs => (some '-', cs)
  | cs => (none, cs)

/-- The least integer of 64 bits, `-2 ^ 63`. -/
def minInteger : Int := -9223372036854775808

/-- The greatest integer of 64 bits, `2 ^ 63 - 1`. -/
def maxInteger : Int := 9223372036854775807

/-- An integer between `minInteger` and `maxInteger`: decimal with an optional sign, or without one
in base 16, 8 or 2. -/
def integer? (cs : List Char) : Option Int :=
  let value : Option Int :=
    match cs with
    | '0' :: 'x' :: ds => (natIn 16 ds).map Int.ofNat
    | '0' :: 'o' :: ds => (natIn 8 ds).map Int.ofNat
    | '0' :: 'b' :: ds => (natIn 2 ds).map Int.ofNat
    | _ =>
      let (sign, ds) := splitSign cs
      (wholeDigits ds).map fun ds =>
        let n := natOfDigits 10 ds
        if sign = some '-' then -(n : Int) else n
  value.filter fun n => minInteger ≤ n && n ≤ maxInteger

/-! ## Floats -/

/-- A decimal number without a sign. -/
structure Decimal where
  /-- Its digits.  They may start with zeros. -/
  digits : List Char
  /-- The power of ten by which they are multiplied. -/
  exponent : Int

/-- The least number for which a float of 64 bits has no room: half a step above the greatest
float, which is `(2 ^ 53 - 1) * 2 ^ 971`. -/
def floatLimit : Nat := Nat.shiftLeft 0x3FFFFFFFFFFFFF 970

/-- The number of digits of `floatLimit`. -/
def floatLimitWidth : Nat := 309

/-- Whether a decimal number is at least `floatLimit`.  Only a number with as many digits before
its point as the limit has is compared with it, and its fraction is of no account there. -/
def Decimal.isTooLarge (d : Decimal) : Bool :=
  let digits := d.digits.dropWhile (· == '0')
  let width : Int := digits.length + d.exponent
  if digits.isEmpty || width < floatLimitWidth then false
  else if width > floatLimitWidth then true
  else
    let whole := (digits ++ List.replicate floatLimitWidth '0').take floatLimitWidth
    floatLimit ≤ natOfDigits 10 whole

/-- An exponent: a sign, if there is one, and digits. -/
def exponent? (cs : List Char) : Option Int :=
  let (sign, ds) := splitSign cs
  (natIn 10 ds).map fun n => if sign = some '-' then -(n : Int) else n

/-- Whether a character may stand in grouped digits. -/
def isGroupChar (c : Char) : Bool :=
  c.isDigit || c == '_'

/-- The part of a float behind its whole digits: the digits of its fraction and its exponent, of
which one may be missing. -/
def floatTail? : List Char → Option (List Char × Int)
  | '.' :: cs => do
    let fraction ← ungroup Char.isDigit (cs.takeWhile isGroupChar)
    match cs.dropWhile isGroupChar with
    | [] => return (fraction, 0)
    | 'e' :: ds | 'E' :: ds => return (fraction, ← exponent? ds)
    | _ => none
  | 'e' :: cs | 'E' :: cs => (exponent? cs).map fun n => ([], n)
  | _ => none

/-- The number that a float spells, without its sign, from its whole digits and its `floatTail?`. -/
def decimal? (cs : List Char) : Option Decimal := do
  let whole ← wholeDigits (cs.takeWhile isGroupChar)
  let (fraction, exponent) ← floatTail? (cs.dropWhile isGroupChar)
  return ⟨whole ++ fraction, exponent - fraction.length⟩

/-- Whether a run is a float.  A positive number that is too large for one is refused, a negative
one is not. -/
def isFloat (cs : List Char) : Bool :=
  let (sign, body) := splitSign cs
  body == "inf".toList || body == "nan".toList
    || (decimal? body).any fun d => sign == some '-' || !d.isTooLarge

/-! ## Moments -/

/-- A number of exactly `width` digits, and what follows it. -/
def fixedNat (width : Nat) (cs : List Char) : Option (Nat × List Char) :=
  let digits := cs.take width
  if digits.length = width && digits.all Char.isDigit then
    some (natOfDigits 10 digits, cs.drop width)
  else
    none

/-- A number of exactly `width` digits from `low` to `high`, and what follows it. -/
def boundedNat (width low high : Nat) (cs : List Char) : Option (Nat × List Char) :=
  (fixedNat width cs).filter fun (n, _) => low ≤ n && n ≤ high

/-- What follows the character `c`, if the text starts with it. -/
def after (c : Char) : List Char → Option (List Char)
  | d :: cs => if d = c then some cs else none
  | [] => none

/-- The number of days of a month, with leap years. -/
def daysIn (year month : Nat) : Nat :=
  if month = 2 then
    if year % 4 = 0 && (year % 100 ≠ 0 || year % 400 = 0) then 29 else 28
  else if month = 4 || month = 6 || month = 9 || month = 11 then 30
  else 31

/-- What follows a date, written `1979-05-27`. -/
def afterDate (cs : List Char) : Option (List Char) := do
  let (year, cs) ← fixedNat 4 cs
  let (month, cs) ← boundedNat 2 1 12 (← after '-' cs)
  let (_, cs) ← boundedNat 2 1 (daysIn year month) (← after '-' cs)
  return cs

/-- What follows a time of day, written `07:32:00` and perhaps a fraction of a second. -/
def afterTime (cs : List Char) : Option (List Char) := do
  let (_, cs) ← boundedNat 2 0 23 cs
  let (_, cs) ← boundedNat 2 0 59 (← after ':' cs)
  let (_, cs) ← boundedNat 2 0 60 (← after ':' cs)
  match cs with
  | '.' :: ds =>
    if (ds.takeWhile Char.isDigit).isEmpty then none else some (ds.dropWhile Char.isDigit)
  | _ => return cs

/-- Whether the rest of a moment is an offset from universal time, or nothing. -/
def isOffset (cs : List Char) : Bool :=
  match cs with
  | [] | ['Z'] | ['z'] => true
  | '+' :: ds | '-' :: ds =>
    (do
      let (_, ds) ← boundedNat 2 0 23 ds
      let (_, ds) ← boundedNat 2 0 59 (← after ':' ds)
      guard ds.isEmpty).isSome
  | _ => false

/-- Whether a run is a moment: a date, a time of day, or both with an optional offset. -/
def isMoment (cs : List Char) : Bool :=
  match afterDate cs with
  | some [] => true
  | some (d :: ds) => (d == 'T' || d == 't' || d == ' ') && (afterTime ds).any isOffset
  | none => (afterTime cs).any List.isEmpty

/-! ## Scalars -/

/-- The value of a run: a truth value, an `integer?`, a float (`isFloat`) or a moment
(`isMoment`). -/
def value? (cs : List Char) : Option Value :=
  if cs = "true".toList then some (.boolean true)
  else if cs = "false".toList then some (.boolean false)
  else
    match integer? cs with
    | some n => some (.integer n)
    | none =>
      if isFloat cs then some (.float (String.ofList cs))
      else if isMoment cs then some (.moment (String.ofList cs))
      else none

/-- Splits a text behind the scalar it starts with, the longest run of `isScalarChar`.  A date and a
time of day with a space between them are one scalar. -/
def split (cs : List Char) : List Char × List Char :=
  let run := cs.takeWhile isScalarChar
  let rest := cs.dropWhile isScalarChar
  match afterDate run, rest with
  | some [], ' ' :: d :: ds =>
    if d.isDigit then
      (run ++ ' ' :: (d :: ds).takeWhile isScalarChar, (d :: ds).dropWhile isScalarChar)
    else
      (run, rest)
  | _, _ => (run, rest)

end Scalar

end Gxl.Toml
