import Gxl.Position

/-!
# Tokens

A token is a piece of a source text that the grammar takes as a unit: a word, a literal, a sign.
Keywords are ordinary words; only the grammar knows where one is meant.

Reference: `src/crates/core/src/lexer.rs` (`TokenKind`, `Token`).
-/

namespace Gxl

/-- The kinds of token (`TokenKind`). -/
inductive Kind where
  /-- A word: a letter or underscore, then letters, digits and underscores. -/
  | ident
  /-- A string literal with its quotes, escapes kept as written. -/
  | str
  /-- Digits, with an optional fraction. -/
  | number
  /-- A hash sign and the rest of its line. -/
  | comment
  /-- The sign `#[` that opens an annotation. -/
  | annotOpen
  /-- The full name of a builtin command that an opening parenthesis follows. -/
  | builtin
  | braceOpen
  | braceClose
  | parenOpen
  | parenClose
  | bracketClose
  | colon
  | semicolon
  | comma
  | equals
  | pipe
  | atSign
  | dot
  | star
  /-- The end of the text. -/
  | eof
  deriving DecidableEq, Inhabited

namespace Kind

/-- Every kind of token, each constructor of `Kind` once. -/
def all : List Kind :=
  [ident, str, number, comment, annotOpen, builtin, braceOpen, braceClose, parenOpen, parenClose,
   bracketClose, colon, semicolon, comma, equals, pipe, atSign, dot, star, eof]

/-- The name of a kind in data formats, as `tokenJson` gives it. -/
def name : Kind → String
  | ident => "ident"
  | str => "str"
  | number => "number"
  | comment => "comment"
  | annotOpen => "annotation_open"
  | builtin => "builtin"
  | braceOpen => "l_brace"
  | braceClose => "r_brace"
  | parenOpen => "l_paren"
  | parenClose => "r_paren"
  | bracketClose => "r_bracket"
  | colon => "colon"
  | semicolon => "semi"
  | comma => "comma"
  | equals => "eq"
  | pipe => "pipe"
  | atSign => "at"
  | dot => "dot"
  | star => "star"
  | eof => "eof"

/-- The kind with a given `name`. -/
def ofName? (s : String) : Option Kind :=
  all.find? fun k => k.name == s

/-- The title of a kind in token listings: the name of the variant of `TokenKind`. -/
def title : Kind → String
  | ident => "Ident"
  | str => "Str"
  | number => "Number"
  | comment => "Comment"
  | annotOpen => "AnnotationOpen"
  | builtin => "Builtin"
  | braceOpen => "LBrace"
  | braceClose => "RBrace"
  | parenOpen => "LParen"
  | parenClose => "RParen"
  | bracketClose => "RBracket"
  | colon => "Colon"
  | semicolon => "Semi"
  | comma => "Comma"
  | equals => "Eq"
  | pipe => "Pipe"
  | atSign => "At"
  | dot => "Dot"
  | star => "Star"
  | eof => "Eof"

/-- The one-character signs, each with its kind. -/
def signs : List (Char × Kind) :=
  [('\x7b', braceOpen), ('\x7d', braceClose), ('(', parenOpen), (')', parenClose),
   (']', bracketClose), (':', colon), (';', semicolon), (',', comma), ('=', equals), ('|', pipe),
   ('@', atSign), ('.', dot), ('*', star)]

/-- The kind of a one-character sign, looked up in `signs`. -/
def ofSign? (c : Char) : Option Kind :=
  signs.lookup c

/-- The words of a message for a kind (the display of `TokenKind`). -/
def label : Kind → String
  | ident => "identifier"
  | str => "string"
  | number => "number"
  | comment => "comment"
  | annotOpen => "'#['"
  | builtin => "builtin command"
  | braceOpen => "'\x7b'"
  | braceClose => "'\x7d'"
  | parenOpen => "'('"
  | parenClose => "')'"
  | bracketClose => "']'"
  | colon => "':'"
  | semicolon => "';'"
  | comma => "','"
  | equals => "'='"
  | pipe => "'|'"
  | atSign => "'@'"
  | dot => "'.'"
  | star => "'*'"
  | eof => "end of input"

end Kind

/-- A token: its kind, its text as written, and where it stands (`Token`, with `Token::text`). -/
structure Token where
  kind : Kind
  text : String
  span : Span
  deriving DecidableEq, Inhabited

namespace Token

/-- Whether a token is the word `w`. -/
def isWord (t : Token) (w : String) : Bool :=
  t.kind == .ident && t.text == w

end Token

end Gxl
