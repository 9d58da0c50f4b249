/-!
# JSON values

Trees, tokens and errors are shown to other programs as JSON.  An object keeps its fields in the
order they were given, and may hold a name twice: the printed form of a tree does.  Read back, an
object is a map in which the last field of a name counts; `Json.canonical` is that reading, with the
fields in the order of their names.

Reference: `serde_json::Value` as `src/crates/core/src/testing.rs` uses it (`strip_spans` is
`Json.stripSpans`).
-/

namespace Gxl

/-- A JSON value (`serde_json::Value`).  A number is a whole number divided by a power of ten. -/
inductive Json where
  | null
  | bool (b : Bool)
  | number (digits : Int) (places : Nat)
  | string (s : String)
  | array (items : List Json)
  | object (fields : List (String × Json))
  deriving Inhabited

namespace Json

/-- A natural number, with no places behind its point: `number n 0`. -/
def nat (n : Nat) : Json :=
  .number n 0

/-- A value, or `null` where there is none. -/
def ofOption {α : Type} (f : α → Json) : Option α → Json
  | some a => f a
  | none => .null

/-- A list of values, as an `array`. -/
def ofList {α : Type} (f : α → Json) (items : List α) : Json :=
  .array (items.map f)

/-! ## Equality -/

mutual

/-- Equality of JSON values is decidable; this is `DecidableEq Json`. -/
def decEq : (a b : Json) → Decidable (a = b)
  | .null, .null => isTrue rfl
  | .bool a, .bool b => decidable_of_iff (a = b) (by simp)
  | .number m p, .number n q => decidable_of_iff (m = n ∧ p = q) (by simp)
  | .string s, .string t => decidable_of_iff (s = t) (by simp)
  | .array xs, .array ys =>
    have := decEqList xs ys
    decidable_of_iff (xs = ys) (by simp)
  | .object fs, .object gs =>
    have := decEqFields fs gs
    decidable_of_iff (fs = gs) (by simp)
  | .null, .bool _ | .null, .number _ _ | .null, .string _ | .null, .array _ | .null, .object _
  | .bool _, .null | .bool _, .number _ _ | .bool _, .string _ | .bool _, .array _
  | .bool _, .object _
  | .number _ _, .null | .number _ _, .bool _ | .number _ _, .string _ | .number _ _, .array _
  | .number _ _, .object _
  | .string _, .null | .string _, .bool _ | .string _, .number _ _ | .string _, .array _
  | .string _, .object _
  | .array _, .null | .array _, .bool _ | .array _, .number _ _ | .array _, .string _
  | .array _, .object _
  | .object _, .null | .object _, .bool _ | .object _, .number _ _ | .object _, .string _
  | .object _, .array _ => isFalse (by simp)

/-- Equality of lists of JSON values is decidable, item by item with `decEq`. -/
def decEqList : (xs ys : List Json) → Decidable (xs = ys)
  | [], [] => isTrue rfl
  | [], _ :: _ => isFalse (by simp)
  | _ :: _, [] => isFalse (by simp)
  | x :: xs, y :: ys =>
    have := decEq x y
    have := decEqList xs ys
    decidable_of_iff (x = y ∧ xs = ys) (by simp)

/-- Equality of fields is decidable, field by field with `decEq`. -/
def decEqFields : (fs gs : List (String × Json)) → Decidable (fs = gs)
  | [], [] => isTrue rfl
  | [], _ :: _ => isFalse (by simp)
  | _ :: _, [] => isFalse (by simp)
  | (k, x) :: fs, (l, y) :: gs =>
    have := decEq x y
    have := decEqFields fs gs
    decidable_of_iff ((k = l ∧ x = y) ∧ fs = gs) (by simp)

end

instance : DecidableEq Json := decEq

/-! ## Objects as maps -/

/-- Sets a field among fields in the order of their names, as `serde_json::Map` does. -/
def setField (name : String) (value : Json) : List (String × Json) → List (String × Json)
  | [] => [(name, value)]
  | (k, v) :: fields =>
    if name = k then (name, value) :: fields
    else if name < k then (name, value) :: (k, v) :: fields
    else (k, v) :: setField name value fields

mutual

/-- The value as it is read back (`serde_json::to_value`): objects hold each name once, with the
value given last, in the order of the names. -/
def canonical : Json → Json
  | .array items => .array (canonicalList items)
  | .object fields => .object (canonicalFields [] fields)
  | v => v

/-- `canonical` on every item. -/
def canonicalList : List Json → List Json
  | [] => []
  | v :: items => v.canonical :: canonicalList items

/-- Sets fields one after the other, with `canonical` on their values. -/
def canonicalFields (seen : List (String × Json)) : List (String × Json) → List (String × Json)
  | [] => seen
  | (k, v) :: fields => canonicalFields (setField k v.canonical seen) fields

end

/-! ## Spans -/

mutual

/-- The value without its fields named `span`, at any depth. -/
def stripSpans : Json → Json
  | .array items => .array (stripSpansList items)
  | .object fields => .object (stripSpansFields fields)
  | v => v

/-- `stripSpans` on every item. -/
def stripSpansList : List Json → List Json
  | [] => []
  | v :: items => v.stripSpans :: stripSpansList items

/-- Leaves out the fields named `span`, with `stripSpans` on the others. -/
def stripSpansFields : List (String × Json) → List (String × Json)
  | [] => []
  | (k, v) :: fields =>
    if k = "span" then stripSpansFields fields else (k, v.stripSpans) :: stripSpansFields fields

end

end Json

end Gxl
