/-!
# Builtin commands

The commands that the language itself provides.  Their names share the first segment `gx`; the set
is closed, and names are compared letter by letter.

Reference: `src/crates/core/src/ast.rs` (`Builtin::ALL`, `Builtin::as_str`, `Builtin::from_name`).
-/

namespace Gxl

/-- A builtin command (`Builtin` of `ast.rs`). -/
inductive Builtin where
  | echo
  | vars
  | cmd
  | read
  | tpl
  | assert
  | ver
  | readCmd
  | readStdin
  | readFile
  deriving DecidableEq, Inhabited

namespace Builtin

/-- Every builtin command, in the order of `Builtin::ALL`. -/
def all : List Builtin :=
  [echo, vars, cmd, read, tpl, assert, ver, readCmd, readStdin, readFile]

/-- The name of a builtin, as sources spell it (`Builtin::as_str`). -/
def name : Builtin → String
  | echo => "gx.echo"
  | vars => "gx.vars"
  | cmd => "gx.cmd"
  | read => "gx.read"
  | tpl => "gx.tpl"
  | assert => "gx.assert"
  | ver => "gx.ver"
  | readCmd => "gx.read_cmd"
  | readStdin => "gx.read_stdin"
  | readFile => "gx.read_file"

/-- The builtin with a given name (`Builtin::from_name`). -/
def ofName? (s : String) : Option Builtin :=
  all.find? fun b => b.name == s

/-- Looking a name up with `ofName?` gives the builtin that has it as its `name`. -/
theorem ofName?_eq_some_iff {s : String} {b : Builtin} : ofName? s = some b ↔ b.name = s := by
  constructor
  · intro h
    simpa using List.find?_some h
  · rintro rfl
    cases b <;> decide

end Builtin

end Gxl
