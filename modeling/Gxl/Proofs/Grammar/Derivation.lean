import Gxl.Document
import Gxl.Grammar.Member
import Gxl.Proofs.Token.Symbol

/-!
# The grammar

A derivation says how a phrase is made up by the rules of the grammar.  There is one type for each
rule, and every choice that a rule leaves open is a field or a constructor: the words and literals,
what is there or missing, and the semicolons that may follow a closing brace.

`yield` is the phrase that a derivation derives; the rules can be read off its equations.  Words
with a meaning, such as `env`, are ordinary words that stand at a certain place.  `tree` is the
piece of tree that a derivation denotes, all of whose spans are the same; it says nothing of the
optional semicolons.
-/

namespace Gxl.Derivation

/-! ## Leaves -/

/-- A name: a text that `Lexeme.isWord` accepts. -/
structure Name where
  text : String
  isWord : Lexeme.isWord text.toList = true
  deriving DecidableEq

/-- A string literal, by the text `raw` between its quotes. -/
structure Quoted where
  raw : String
  isQuoted : Lexeme.isQuoted ("\"" ++ raw ++ "\"").toList = true
  deriving DecidableEq

/-- A number literal: a text that `Lexeme.isNumeral` accepts. -/
structure Numeral where
  text : String
  isNumeral : Lexeme.isNumeral text.toList = true
  deriving DecidableEq

instance : Inhabited Name := ⟨⟨"x", by decide⟩⟩

instance : Inhabited Quoted := ⟨⟨"", by decide⟩⟩

instance : Inhabited Numeral := ⟨⟨"0", by decide⟩⟩

/-- The symbol of a name, of the kind `ident`. -/
def Name.symbol (n : Name) : Symbol :=
  .word n.text

/-- The symbol of a string literal, of the kind `str`. -/
def Quoted.symbol (s : Quoted) : Symbol :=
  .quoted s.raw

/-- The symbol of a number literal, of the kind `number`. -/
def Numeral.symbol (n : Numeral) : Symbol :=
  .numeral n.text

def Name.tree (n : Name) : Ident :=
  ⟨n.text, default⟩

def Quoted.tree (s : Quoted) : StrLit :=
  ⟨s.raw, default⟩

def Numeral.tree (n : Numeral) : NumLit :=
  ⟨n.text, default⟩

/-- Names with a comma between every two, at least one, the `head`. -/
structure Refs where
  head : Name
  tail : List Name
  deriving DecidableEq

def Refs.yield (r : Refs) : Phrase :=
  separated (fun n => [n.symbol]) (r.head :: r.tail)

def Refs.tree (r : Refs) : RefList :=
  ⟨(r.head :: r.tail).map Name.tree, default⟩

/-- Names behind the sign `sign`, if there are any. -/
def Refs.yieldAfter (sign : Kind) : Option Refs → Phrase
  | none => []
  | some r => .sign sign :: r.yield

/-- The semicolon that may follow a closing brace: `semi` tells whether it does. -/
def terminator (semi : Bool) : Phrase :=
  if semi then [.sign .semicolon] else []

/-- Entries between braces, and the semicolon that may follow (`terminator`). -/
def braced {β : Type} (y : β → Phrase) (bs : List β) (semi : Bool) : Phrase :=
  .sign .braceOpen :: (bs.flatMap y ++ .sign .braceClose :: terminator semi)

/-! ## Annotations -/

/-- An argument of an annotation, `key = "value"` or `"value"`. -/
inductive AnnotArg where
  | keyed (key : Name) (value : Quoted)
  | bare (value : Quoted)
  deriving DecidableEq

def AnnotArg.yield : AnnotArg → Phrase
  | .keyed key value => [key.symbol, .sign .equals, value.symbol]
  | .bare value => [value.symbol]

def AnnotArg.tree : AnnotArg → Annot.Arg
  | .keyed key value => .keyed key.tree value.tree
  | .bare value => .bare value.tree

/-- An annotation `#[name]`, or with arguments `#[name(arg, …)]`. -/
structure Annot where
  name : Name
  args : List AnnotArg
  deriving DecidableEq

/-- The arguments of an annotation: none at all, or at least one between parentheses, `separated` by
commas. -/
def Annot.yieldArgs : List AnnotArg → Phrase
  | [] => []
  | args => .sign .parenOpen :: (separated AnnotArg.yield args ++ [.sign .parenClose])

def Annot.yield (a : Annot) : Phrase :=
  .sign .annotOpen :: a.name.symbol :: (Annot.yieldArgs a.args ++ [.sign .bracketClose])

def Annot.tree (a : Annot) : Gxl.Annot :=
  ⟨a.name.tree, a.args.map AnnotArg.tree, default⟩

/-! ## Properties and commands -/

/-- The value of a property, a string or a number. -/
inductive Literal where
  | string (value : Quoted)
  | number (value : Numeral)
  deriving DecidableEq

def Literal.symbol : Literal → Symbol
  | .string value => value.symbol
  | .number value => value.symbol

def Literal.tree : Literal → Gxl.Literal
  | .string value => .string value.tree
  | .number value => .number value.tree

/-- A property `key = value;`. -/
structure Property where
  key : Name
  value : Literal
  deriving DecidableEq

instance : Inhabited Property := ⟨⟨default, .string default⟩⟩

def Property.yield (p : Property) : Phrase :=
  [p.key.symbol, .sign .equals, p.value.symbol, .sign .semicolon]

def Property.tree (p : Property) : Gxl.Property :=
  ⟨p.key.tree, p.value.tree, default⟩

/-- The value of an argument, a string or a name. -/
inductive ArgValue where
  | string (value : Quoted)
  | variable (name : Name)
  deriving DecidableEq

def ArgValue.symbol : ArgValue → Symbol
  | .string value => value.symbol
  | .variable name => name.symbol

def ArgValue.tree : ArgValue → Arg.Value
  | .string value => .string value.tree
  | .variable name => .variable name.tree

/-- An argument `key: value`. -/
structure Arg where
  key : Name
  value : ArgValue
  deriving DecidableEq

def Arg.yield (a : Arg) : Phrase :=
  [a.key.symbol, .sign .colon, a.value.symbol]

def Arg.tree (a : Arg) : Gxl.Arg :=
  ⟨a.key.tree, a.value.tree, default⟩

/-- What a call calls: names joined by dots, the `head` first. -/
structure Target where
  head : Name
  tail : List Name
  deriving DecidableEq

def Target.yield (t : Target) : Phrase :=
  t.head.symbol :: t.tail.flatMap fun n => [.sign .dot, n.symbol]

def Target.tree (t : Target) : Gxl.Target :=
  match t.tail with
  | [] => .name t.head.tree
  | _ :: _ => .path ⟨(t.head :: t.tail).map Name.tree, default⟩

/-- The `segments` of the tree of a target are its names. -/
theorem Target.segments_tree (t : Target) :
    t.tree.segments = (t.head :: t.tail).map Name.text := by
  obtain ⟨n, _ | ⟨m, ns⟩⟩ := t
  · rfl
  · exact List.map_map

/-- A command `callee(args);`. -/
inductive Command where
  | builtin (builtin : Builtin) (args : List Arg)
  | call (target : Target) (args : List Arg)
  deriving DecidableEq

instance : Inhabited Command := ⟨.builtin .echo []⟩

/-- The arguments of a command between parentheses and its semicolon. -/
def Command.yieldTail (args : List Arg) : Phrase :=
  .sign .parenOpen :: (separated Arg.yield args ++ [.sign .parenClose, .sign .semicolon])

def Command.yield : Command → Phrase
  | .builtin b args => .builtin b :: yieldTail args
  | .call t args => t.yield ++ yieldTail args

def Command.tree : Command → Gxl.Command
  | .builtin b args => .builtin ⟨b, args.map Arg.tree, default⟩
  | .call t args => .call ⟨t.tree, args.map Arg.tree, default⟩

/-! ## The members of a module -/

/-- What an environment holds: properties, commands and blocks of variables. -/
inductive EnvironmentEntry where
  | property (property : Property)
  | command (command : Command)
  | vars (args : List Arg) (semi : Bool)
  deriving DecidableEq

def EnvironmentEntry.yield : EnvironmentEntry → Phrase
  | .property p => p.yield
  | .command c => c.yield
  | .vars args semi =>
    .word "gx" :: .sign .dot :: .word "vars" :: .sign .braceOpen ::
      (separated Arg.yield args ++ .sign .braceClose :: terminator semi)

def EnvironmentEntry.tree : EnvironmentEntry → Environment.Entry
  | .property p => .property p.tree
  | .command c => .command c.tree
  | .vars args _ => .vars ⟨args.map Arg.tree, default⟩

/-- Whether an entry ends with a semicolon: a block `vars` may go without. -/
def EnvironmentEntry.ended : EnvironmentEntry → Bool
  | .vars _ semi => semi
  | _ => true

/-- What a flow holds: commands and properties. -/
inductive FlowEntry where
  | command (command : Command)
  | property (property : Property)
  deriving DecidableEq

def FlowEntry.yield : FlowEntry → Phrase
  | .command c => c.yield
  | .property p => p.yield

def FlowEntry.tree : FlowEntry → Flow.Entry
  | .command c => .command c.tree
  | .property p => .property p.tree

/-- A parameter `*name = "…"`, the star and the default optional. -/
structure Param where
  variadic : Bool
  name : Name
  fallback : Option Quoted
  deriving DecidableEq

def Param.yield (p : Param) : Phrase :=
  (if p.variadic then [.sign .star] else []) ++ p.name.symbol ::
    match p.fallback with
    | none => []
    | some value => [.sign .equals, value.symbol]

def Param.tree (p : Param) : Gxl.Param :=
  ⟨p.variadic, p.name.tree, p.fallback.map Quoted.tree, default⟩

/-- A member of a module that annotations may stand before: all but a `Property`. -/
inductive Construct where
  | environment (name : Name) (refs : Option Refs) (entries : List EnvironmentEntry) (semi : Bool)
  | flow (before : Option Refs) (name : Name) (after : Option Refs) (entries : List FlowEntry)
      (semi : Bool)
  | flowAlias (name : Name) (targets : Refs)
  | fn (name : Name) (params : List Param) (body : List Command) (semi : Bool)
  | activity (name : Name) (props : List Property) (semi : Bool)
  deriving DecidableEq

/-- The names before a flow, with the bar `|` behind them. -/
def Construct.yieldBefore : Option Refs → Phrase
  | none => []
  | some r => r.yield ++ [.sign .pipe]

def Construct.yield : Construct → Phrase
  | .environment name refs entries semi =>
    .word "env" :: name.symbol ::
      (Refs.yieldAfter .colon refs ++ braced EnvironmentEntry.yield entries semi)
  | .flow before name after entries semi =>
    .word "flow" :: (yieldBefore before ++ .sign .atSign :: name.symbol ::
      (Refs.yieldAfter .pipe after ++ braced FlowEntry.yield entries semi))
  | .flowAlias name targets =>
    .word "flow" :: name.symbol :: .sign .colon :: (targets.yield ++ [.sign .semicolon])
  | .fn name params body semi =>
    .word "fn" :: name.symbol :: .sign .parenOpen ::
      (separated Param.yield params ++ .sign .parenClose :: braced Command.yield body semi)
  | .activity name props semi =>
    .word "activity" :: name.symbol :: braced Property.yield props semi

def Construct.tree (annots : List Gxl.Annot) : Construct → Gxl.Member
  | .environment name refs entries _ =>
    .environment ⟨annots, name.tree, refs.map Refs.tree, entries.map EnvironmentEntry.tree, default⟩
  | .flow before name after entries _ =>
    .flow ⟨annots, before.map Refs.tree, name.tree, after.map Refs.tree,
      entries.map FlowEntry.tree, default⟩
  | .flowAlias name targets => .flowAlias ⟨annots, name.tree, targets.tree, default⟩
  | .fn name params body _ =>
    .fn ⟨annots, name.tree, params.map Param.tree, body.map Command.tree, default⟩
  | .activity name props _ => .activity ⟨annots, name.tree, props.map Property.tree, default⟩

/-- Whether a construct ends with a semicolon: only a `flowAlias` must have one. -/
def Construct.ended : Construct → Bool
  | .environment _ _ _ semi => semi
  | .flow _ _ _ _ semi => semi
  | .flowAlias _ _ => true
  | .fn _ _ _ semi => semi
  | .activity _ _ semi => semi

/-- A member of a module: a property, or annotations and a `Construct`. -/
inductive Member where
  | property (property : Property)
  | construct (annots : List Annot) (construct : Construct)
  deriving DecidableEq

def Member.yield : Member → Phrase
  | .property p => p.yield
  | .construct annots c => annots.flatMap Annot.yield ++ c.yield

def Member.tree : Member → Gxl.Member
  | .property p => .property p.tree
  | .construct annots c => c.tree (annots.map Annot.tree)

/-- Whether a member ends with a semicolon: a `property` must, a `construct` may. -/
def Member.ended : Member → Bool
  | .property _ => true
  | .construct _ c => c.ended

/-! ## Documents -/

/-- Where external modules come from: a path, or a repository and a channel of it. -/
inductive Origin where
  | path (place : Quoted)
  | git (url channel : Quoted)
  deriving DecidableEq

def Origin.yield : Origin → Phrase
  | .path place => [.word "path", .sign .equals, place.symbol, .sign .semicolon]
  | .git url channel =>
    [.word "git", .sign .equals, url.symbol, .sign .comma, .word "channel", .sign .equals,
     channel.symbol, .sign .semicolon]

def Origin.tree : Origin → Gxl.Origin
  | .path place => .path place.tree default
  | .git url channel => .git url.tree channel.tree default

/-- An item of a document: a module with its annotations, or external modules. -/
inductive Top where
  | module (annots : List Annot) (name : Name) (refs : Option Refs) (members : List Member)
      (semi : Bool)
  | external (names : Refs) (origin : Origin) (semi : Bool)
  deriving DecidableEq

/-- A module up to the brace that opens it: `mod`, its name and the names behind a colon. -/
def Top.yieldHeader (annots : List Annot) (name : Name) (refs : Option Refs) : Phrase :=
  annots.flatMap Annot.yield ++ .word "mod" :: name.symbol :: Refs.yieldAfter .colon refs

def Top.yield : Top → Phrase
  | .module annots name refs members semi =>
    yieldHeader annots name refs ++ braced Member.yield members semi
  | .external names origin semi =>
    .word "extern" :: .word "mod" :: (names.yield ++ .sign .braceOpen ::
      (origin.yield ++ .sign .braceClose :: terminator semi))

def Top.tree : Top → Item
  | .module annots name refs members _ =>
    .module ⟨annots.map Annot.tree, name.tree, refs.map Refs.tree, members.map Member.tree, default⟩
  | .external names origin _ =>
    .external ⟨(names.head :: names.tail).map Name.tree, origin.tree, default⟩

/-- Whether an item ends with a semicolon, as its `terminator` says. -/
def Top.ended : Top → Bool
  | .module _ _ _ _ semi => semi
  | .external _ _ semi => semi

/-- A document: its items, one behind the other. -/
structure File where
  tops : List Top
  deriving DecidableEq

def File.yield (d : File) : Phrase :=
  d.tops.flatMap Top.yield

def File.tree (d : File) : Document :=
  ⟨d.tops.map Top.tree, default⟩

end Gxl.Derivation

namespace Gxl

/-- The phrases that an alternative of an error stands for: a token, a keyword, or an item of some
kind. -/
def Expected.Fits : Expected → Phrase → Prop
  | .token kind, u => ∃ s : Symbol, s.kind = kind ∧ u = [s]
  | .keyword word, u => u = [.word word]
  | .item name, u =>
    (name = "property" ∧ ∃ p : Derivation.Property, u = p.yield) ∨
      (name = "command" ∧ ∃ c : Derivation.Command, u = c.yield) ∨
      (name = "gx.vars block" ∧ ∃ args semi, u = (Derivation.EnvironmentEntry.vars args semi).yield)

end Gxl
