import Gxl.Token.Cursor

/-!
# Symbols

A symbol is a token without its place.  The grammar is about symbols: which ones follow each other
decides whether a text is a document, wherever they stand in it.

`Symbol.genuine` says which texts a kind can have.  The two directions that tie it to the scanner
are `genuine_of_scan` (what is scanned is genuine) and the `scan_*` lemmas (a genuine symbol is
scanned whole, as long as the text behind it cannot lengthen it).
-/

namespace Gxl

/-- A `Token` without its place: its kind and its text. -/
structure Symbol where
  kind : Kind
  text : String
  deriving DecidableEq, Inhabited

/-- A run of symbols, such as the `symbols` of some tokens. -/
abbrev Phrase := List Symbol

/-- The symbol of the token `t`. -/
def Token.symbol (t : Token) : Symbol :=
  ⟨t.kind, t.text⟩

@[simp] theorem Token.symbol_kind (t : Token) : t.symbol.kind = t.kind := rfl

@[simp] theorem Token.symbol_text (t : Token) : t.symbol.text = t.text := rfl

/-- The symbols of the tokens `ts`, in order. -/
def symbols (ts : List Token) : Phrase :=
  ts.map Token.symbol

@[simp] theorem symbols_nil : symbols [] = [] := rfl

@[simp] theorem symbols_cons (t : Token) (ts : List Token) :
    symbols (t :: ts) = t.symbol :: symbols ts := rfl

/-- The `symbols` of tokens and more tokens stand one behind the other. -/
@[simp] theorem symbols_append (as bs : List Token) :
    symbols (as ++ bs) = symbols as ++ symbols bs :=
  List.map_append

/-- The text of a kind that has only one: the signs, and `#[`. -/
def Kind.spelling : Kind → String
  | .annotOpen => "#["
  | .braceOpen => "\x7b"
  | .braceClose => "\x7d"
  | .parenOpen => "("
  | .parenClose => ")"
  | .bracketClose => "]"
  | .colon => ":"
  | .semicolon => ";"
  | .comma => ","
  | .equals => "="
  | .pipe => "|"
  | .atSign => "@"
  | .dot => "."
  | .star => "*"
  | _ => ""

namespace Lexeme

/-- Whether a text is a word: it starts as `isWordStart` has it and goes on as `isWordChar` does. -/
def isWord : List Char → Bool
  | [] => false
  | c :: cs => isWordStart c && cs.all isWordChar

/-- Whether a text is a string literal, quotes included: `closeString` finds its end at the end of
the text. -/
def isQuoted : List Char → Bool
  | [] => false
  | c :: cs => c == '"' && closeString cs == some (cs, [])

/-- Whether a text is a number literal: it starts with a digit, and `number` takes all of it. -/
def isNumeral : List Char → Bool
  | [] => false
  | c :: cs => c.isDigit && number (c :: cs) == (c :: cs, [])

end Lexeme

namespace Symbol

/-- The symbol of a kind that has only one text, its `spelling`. -/
def sign (k : Kind) : Symbol :=
  ⟨k, k.spelling⟩

/-- The symbol of the word `w`. -/
def word (w : String) : Symbol :=
  ⟨.ident, w⟩

/-- The symbol of a string literal with the text `raw` between its quotes. -/
def quoted (raw : String) : Symbol :=
  ⟨.str, "\"" ++ raw ++ "\""⟩

/-- The symbol of a number literal, its text as it stands. -/
def numeral (text : String) : Symbol :=
  ⟨.number, text⟩

/-- The symbol of the name of the builtin command `b`. -/
def builtin (b : Builtin) : Symbol :=
  ⟨.builtin, b.name⟩

/-- Whether the text of the symbol `s` is one that its kind can have.  Comments and the end of the
text are no symbols of the grammar. -/
def genuine (s : Symbol) : Bool :=
  match s.kind with
  | .ident => Lexeme.isWord s.text.toList
  | .str => Lexeme.isQuoted s.text.toList
  | .number => Lexeme.isNumeral s.text.toList
  | .builtin => (Builtin.ofName? s.text).isSome
  | .comment | .eof => false
  | k => s.text == k.spelling

@[simp] theorem sign_kind (k : Kind) : (sign k).kind = k := rfl

@[simp] theorem word_kind (w : String) : (word w).kind = .ident := rfl

@[simp] theorem quoted_kind (raw : String) : (quoted raw).kind = .str := rfl

@[simp] theorem numeral_kind (text : String) : (numeral text).kind = .number := rfl

@[simp] theorem builtin_kind (b : Builtin) : (builtin b).kind = .builtin := rfl

/-- The name of a builtin command is `genuine`. -/
@[simp] theorem genuine_builtin (b : Builtin) : (builtin b).genuine = true := by
  cases b <;> decide

/-- A sign is `genuine`, if its kind has one `spelling`. -/
theorem genuine_sign {k : Kind} (hk : k.spelling ≠ "") : (sign k).genuine = true := by
  cases k <;> first | rfl | exact absurd rfl hk

/-- A `genuine` symbol of a kind with one `spelling` has that text. -/
theorem eq_sign_of_genuine {s : Symbol} (hs : s.genuine = true) (hk : s.kind.spelling ≠ "") :
    s = sign s.kind := by
  obtain ⟨kind, text⟩ := s
  cases kind <;> simp_all [genuine, sign, Kind.spelling]

end Symbol

/-- The phrase of entries with a comma between every two, `y` giving the phrase of each. -/
def separated {β : Type} (y : β → Phrase) : List β → Phrase
  | [] => []
  | b :: bs => y b ++ bs.flatMap fun b' => .sign .comma :: y b'

end Gxl
