import Gxl.Toml.Value

/-!
# Reading TOML

`Toml.parse` reads a file into its statements, and refuses a text that is not TOML.  Which tables
the statements define, and whether they define one twice, is left to their reader; only the keys of
a table on one line are compared here.

Arrays and tables nest at most `maxDepth` deep, and no path is longer than that.

Reference: `toml::from_str` as `src/crates/cli/src/config.rs` uses it (`parse_config`).
-/

namespace Gxl.Toml

/-- A step of reading: it may refuse the text, and leaves what it did not read. -/
abbrev Scanner := StateT (List Char) Option

namespace Scanner

/-- Repeats `step` until it declines.  A step that reads nothing is refused. -/
def manyFrom {α : Type} (step : Scanner (Option α)) (cs : List Char) :
    Option (List α × List Char) :=
  match step cs with
  | none => none
  | some (none, rest) => some ([], rest)
  | some (some a, rest) =>
    if rest.length < cs.length then
      (manyFrom step rest).map fun (as, rest) => (a :: as, rest)
    else
      none
termination_by cs.length

/-- Repeats `step` as `manyFrom` does. -/
def many {α : Type} (step : Scanner (Option α)) : Scanner (List α) :=
  manyFrom step

/-- The next character, if there is one. -/
def peek : Scanner (Option Char) := do
  return (← get).head?

/-- Takes the character `c`, and refuses any other. -/
def char (c : Char) : Scanner Unit := do
  match ← get with
  | d :: cs => if d = c then set cs else failure
  | [] => failure

/-- Takes the character `c` if it comes next, and says whether it did. -/
def eat (c : Char) : Scanner Bool := do
  match ← get with
  | d :: cs => if d = c then set cs; return true else return false
  | [] => return false

/-- Takes the characters of `text` if they come next, and says whether they did. -/
def eatAll (text : List Char) : Scanner Bool := do
  let cs ← get
  if text.isPrefixOf cs then
    set (cs.drop text.length)
    return true
  else
    return false

/-- Takes the longest run of characters for which `p` holds. -/
def takeWhile (p : Char → Bool) : Scanner (List Char) := do
  let cs ← get
  set (cs.dropWhile p)
  return cs.takeWhile p

/-! ## Blanks, comments and line ends -/

/-- Whether a character may stand in a comment: the tab and all that is not a control. -/
def isVisible (c : Char) : Bool :=
  c == '\t' || (0x20 ≤ c.toNat && c.toNat != 0x7F)

/-- Skips spaces and tabs. -/
def blanks : Scanner Unit :=
  discard <| takeWhile fun c => c == ' ' || c == '\t'

/-- Skips a comment from `#` to the end of the line, if there is one. -/
def comment : Scanner Unit := do
  if ← eat '#' then discard <| takeWhile isVisible

/-- Takes the end of a line, `\n` or `\r\n`, if it comes next, and says whether it did. -/
def eatNewline : Scanner Bool := do
  if ← eat '\n' then return true else eatAll ['\r', '\n']

/-- The end of a line or of the text. -/
def lineEnd : Scanner Unit := do
  if (← get).isEmpty then return
  guard (← eatNewline)

/-- What may stand behind a statement: `blanks`, a `comment`, and the `lineEnd`. -/
def trailing : Scanner Unit := do
  blanks
  comment
  lineEnd

/-- Skips blanks, comments and line ends between the items of an `array`. -/
def spacing : Scanner Unit :=
  discard <| many do
    match ← peek with
    | some ' ' | some '\t' => blanks; return some ()
    | some '\n' | some '\r' => guard (← eatNewline); return some ()
    | some '#' => comment; guard (← eatNewline); return some ()
    | _ => return none

/-! ## Strings -/

/-- The character of a number of `width` hexadecimal digits. -/
def codePoint (width : Nat) : Scanner Char := do
  let cs ← get
  let digits := cs.take width
  guard (digits.length = width && digits.all (Scalar.isDigitIn 16))
  set (cs.drop width)
  let n := Scalar.natOfDigits 16 digits
  if n.isValidChar then return Char.ofNat n else failure

/-- The character of an escape, whose backslash is read.  The forms `\u` and `\U` go through
`codePoint`. -/
def escape : Scanner Char := do
  match ← get with
  | c :: cs =>
    set cs
    match c with
    | 'b' => return '\x08'
    | 't' => return '\t'
    | 'n' => return '\n'
    | 'f' => return '\x0c'
    | 'r' => return '\r'
    | '"' => return '"'
    | '\\' => return '\\'
    | 'u' => codePoint 4
    | 'U' => codePoint 8
    | _ => failure
  | [] => failure

/-- A character of a string on one line that ends with `quote`; escapes are read if asked for. -/
def stringChar (quote : Char) (escapes : Bool) : Scanner (Option Char) := do
  match ← get with
  | c :: cs =>
    if c = quote then
      return none
    else if escapes && c == '\\' then
      set cs
      return some (← escape)
    else if isVisible c then
      set cs
      return some c
    else
      failure
  | [] => failure

/-- A string on one line, which `quote` ends. -/
def lineString (quote : Char) (escapes : Bool) : Scanner String := do
  char quote
  let text ← many (stringChar quote escapes)
  char quote
  return String.ofList text

/-- Skips the line end behind a backslash, with all blanks and line ends that follow, if there is
one. -/
def lineContinuation : Scanner Bool := do
  let saved ← get
  blanks
  if ← eatNewline then
    discard <| many do
      match ← peek with
      | some ' ' | some '\t' => blanks; return some ()
      | some '\n' | some '\r' => guard (← eatNewline); return some ()
      | _ => return none
    return true
  else
    set saved
    return false

/-- A piece of a string over several lines; escapes are read if asked for.  One `quote` or two are
part of the string. -/
def blockPiece (quote : Char) (escapes : Bool) : Scanner (Option (List Char)) := do
  let quotes := (← get).takeWhile (· == quote)
  if quotes.length ≥ 3 then
    return none
  else if quotes.length > 0 then
    set ((← get).drop quotes.length)
    return some quotes
  else
    match ← get with
    | c :: cs =>
      if escapes && c == '\\' then
        set cs
        if ← lineContinuation then return some [] else return some [← escape]
      else if isVisible c then
        set cs
        return some [c]
      else
        guard (← eatNewline)
        return some ['\n']
    | [] => failure

/-- A string over several lines.  Up to two quotes may stand before the closing three. -/
def blockString (quote : Char) (escapes : Bool) : Scanner String := do
  guard (← eatAll (List.replicate 3 quote))
  discard eatNewline
  let pieces ← many (blockPiece quote escapes)
  let quotes ← takeWhile (· == quote)
  guard (3 ≤ quotes.length && quotes.length ≤ 5)
  return String.ofList (pieces.flatten ++ quotes.drop 3)

/-- A string of any form: a `lineString` or a `blockString`, in either quotes. -/
def string : Scanner String := do
  let cs ← get
  if "\"\"\"".toList.isPrefixOf cs then blockString '"' true
  else if "'''".toList.isPrefixOf cs then blockString '\'' false
  else if cs.head? = some '"' then lineString '"' true
  else lineString '\'' false

/-! ## Keys -/

/-- Whether a character may stand in a key without quotes. -/
def isKeyChar (c : Char) : Bool :=
  c.isAlphanum || c == '_' || c == '-'

/-- A single key: characters for which `isKeyChar` holds, or a string on one line. -/
def simpleKey : Scanner String := do
  match ← peek with
  | some '"' => lineString '"' true
  | some '\'' => lineString '\'' false
  | _ =>
    let word ← takeWhile isKeyChar
    guard (!word.isEmpty)
    return String.ofList word

/-- How many arrays and tables may stand inside each other, and how many keys a path may have. -/
def maxDepth : Nat := 79

/-- A path: at most `maxDepth` keys joined by dots, with blanks around them. -/
def path : Scanner (List String) := do
  blanks
  let first ← simpleKey
  blanks
  let rest ← many do
    if ← eat '.' then
      blanks
      let key ← simpleKey
      blanks
      return some key
    else
      return none
  guard (rest.length < maxDepth)
  return first :: rest

/-! ## Values -/

/-- A `path`, an equals sign, and a value. -/
def pair (value : Scanner Value) : Scanner (List String × Value) := do
  let key ← path
  char '='
  blanks
  return (key, ← value)

/-- Items between brackets, separated by commas with `spacing` around them; a comma may stand behind
the last. -/
def array (value : Scanner Value) : Scanner (List Value) := do
  char '['
  spacing
  if ← eat ']' then
    return []
  let first ← value
  spacing
  let rest ← many do
    if ← eat ',' then
      spacing
      if (← peek) == some ']' then
        return none
      let item ← value
      spacing
      return some item
    else
      return none
  char ']'
  return first :: rest

/-- Whether two paths name the same key, or one names a key inside the other. -/
def clash (a b : List String) : Bool :=
  a.isPrefixOf b || b.isPrefixOf a

/-- Whether no two paths clash in the sense of `clash`. -/
def noClash : List (List String) → Bool
  | [] => true
  | p :: ps => ps.all (fun q => !clash p q) && noClash ps

/-- Pairs between braces on one line, separated by commas, with `noClash` among their paths. -/
def inlineTable (value : Scanner Value) : Scanner (List (List String × Value)) := do
  char '\x7b'
  blanks
  if ← eat '\x7d' then
    return []
  let first ← pair value
  blanks
  let rest ← many do
    if ← eat ',' then
      let next ← pair value
      blanks
      return some next
    else
      return none
  char '\x7d'
  let fields := first :: rest
  guard (noClash (fields.map Prod.fst))
  return fields

/-- A number, truth value or moment: the run that `split` cuts off, if `value?` gives it a
meaning. -/
def scalar : Scanner Value := do
  let (run, rest) := Scalar.split (← get)
  set rest
  match Scalar.value? run with
  | some v => return v
  | none => failure

/-- A value that holds no other: a `string` or a `scalar`. -/
def atom : Scanner Value := do
  match ← peek with
  | some '"' | some '\'' => return .string (← string)
  | _ => scalar

/-- A value in which `array` and `inlineTable` nest so deep. -/
def valueWithin : Nat → Scanner Value
  | 0 => atom
  | depth + 1 => do
    match ← peek with
    | some '[' => return .array (← array (valueWithin depth))
    | some '\x7b' => return .table (← inlineTable (valueWithin depth))
    | _ => atom

/-- A value, nested at most `maxDepth` deep. -/
def value : Scanner Value :=
  valueWithin maxDepth

/-! ## Statements -/

/-- The header of a table, `[path]`, or of a table in an array, `[[path]]`. -/
def header : Scanner Statement := do
  char '['
  if ← eat '[' then
    let p ← path
    char ']'
    char ']'
    return .arrayHeader p
  else
    let p ← path
    char ']'
    return .header p

/-- A line: a `header` or a `pair`, or nothing but blanks and a comment. -/
def line : Scanner (Option Statement) := do
  blanks
  match ← peek with
  | none | some '#' | some '\n' | some '\r' => trailing; return none
  | some '[' =>
    let s ← header
    trailing
    return some s
  | some _ =>
    let (key, v) ← pair value
    trailing
    return some (.assign key v)

/-- All lines of a text, as `line` reads them. -/
def lines : Scanner (List (Option Statement)) :=
  many do
    if (← get).isEmpty then return none else return some (← line)

end Scanner

/-- The statements of a TOML file (`toml::from_str`).  A byte order mark may stand before them. -/
def parse (text : String) : Option (List Statement) :=
  let cs := text.toList
  let body := if cs.head? = some '\ufeff' then cs.tail else cs
  (Scanner.lines body).map fun (statements, _) => statements.filterMap id

end Gxl.Toml
