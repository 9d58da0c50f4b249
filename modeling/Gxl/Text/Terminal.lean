/-!
# Text without orders to a terminal

Some characters are orders to the terminal that shows a text: a control such as a bell, or a
sequence that starts with an escape and sets a colour or a title.  `withoutOrders` leaves them out,
so that a line of the log shows what it says and does nothing else.

`Place.next` follows the forms of sequences.  A sequence is left out up to the character that ends
it, or to the end of the text when nothing does.

Blanks that are controls, such as a line break, are shown even inside a control sequence, and with
them all that follows up to the next order.  The sequence then goes on where it was left.

Reference: the writer that `src/crates/cli/src/main.rs` sets up for the log
(`env_logger::Builder`), which strips such orders where the log goes to no terminal.
-/

namespace Gxl.Text

/-- Where a character stands with respect to the sequences of a terminal. -/
inductive Place where
  /-- Outside of all sequences. -/
  | plain
  /-- Behind an escape. -/
  | escape
  /-- In a sequence of an escape and several characters, which one from `0` to `~` ends. -/
  | designation
  /-- In a control sequence, which a character from `@` to `~` ends. -/
  | control
  /-- At the start of a device control string. -/
  | device
  /-- In the parameters of a device control string. -/
  | parameters
  /-- Behind the parameters of a device control string. -/
  | intermediates
  /-- In the body of a device control string, or in a string of another kind that is not meant for
  display. -/
  | string
  /-- In an operating system command, which a bell ends. -/
  | command
  deriving DecidableEq, Inhabited

namespace Place

/-- The place behind an escape and a character from the space to `~`. -/
def afterEscape (c : Char) : Place :=
  match c with
  | '[' => .control
  | ']' => .command
  | 'P' => .device
  | 'X' | '^' | '_' => .string
  | _ => if c.toNat < '0'.toNat then .designation else .plain

/-- Whether the octet that ends a string, 0x9C, is part of a character. -/
def endsString (c : Char) : Bool :=
  (String.utf8EncodeChar c).any fun octet => octet.toNat == 0x9C

/-- The place behind a character from the space to `~`. -/
def afterGraphic (p : Place) (c : Char) : Place :=
  match p with
  | .plain => .plain
  | .escape => afterEscape c
  | .designation => if c.toNat < '0'.toNat then .designation else .plain
  | .control => if c.toNat < '@'.toNat then .control else .plain
  | .device =>
    if c.toNat < '0'.toNat then .intermediates
    else if c.toNat < '@'.toNat then .parameters
    else .string
  | .parameters =>
    if c.toNat < '0'.toNat then .intermediates
    else if c.toNat < '<'.toNat then .parameters
    else .string
  | .intermediates => if c.toNat < '0'.toNat then .intermediates else .string
  | .string => .string
  | .command => .command

/-- The place behind a character.  An escape starts a sequence anywhere, and two controls give up
any sequence; what else happens is `afterEscape`, `endsString` and `afterGraphic`. -/
def next (p : Place) (c : Char) : Place :=
  if c = '\x1b' then .escape
  else if c = '\x18' || c = '\x1a' then .plain
  else if c.toNat < ' '.toNat then
    if p = .command && c = '\x07' then .plain else p
  else if c.toNat > '~'.toNat then
    if p = .string && endsString c then .plain else p
  else
    p.afterGraphic c

end Place

/-- Whether a character is a blank that is also a control. -/
def isBlankControl (c : Char) : Bool :=
  c == '\t' || c == '\n' || c == '\x0c' || c == '\r'

/-- Whether a character is shown outside of all sequences. -/
def isShown (c : Char) : Bool :=
  isBlankControl c || (' '.toNat ≤ c.toNat && c.toNat != 0x7F)

/-- Whether a character at a place is shown although orders stand before it. -/
def Place.shows (p : Place) (c : Char) : Bool :=
  match p with
  | .plain => isShown c
  | .escape | .designation | .control => isBlankControl c
  | .device | .parameters | .intermediates | .string | .command => false

/-- The characters of a text that are no orders, from a place on.  While characters are `showing`
the place is kept, for a sequence that they interrupt; a character beyond ASCII ends that sequence.
-/
def shownFrom (showing : Bool) (p : Place) : List Char → List Char
  | [] => []
  | c :: cs =>
    if showing && isShown c then
      c :: shownFrom true (if c.toNat > '~'.toNat then .plain else p) cs
    else if !showing && p.shows c then
      c :: shownFrom true (p.next c) cs
    else
      shownFrom false (p.next c) cs

/-- A text without orders to a terminal: what `shownFrom` leaves of it from its start. -/
def withoutOrders (text : String) : String :=
  String.ofList (shownFrom false .plain text.toList)

end Gxl.Text
