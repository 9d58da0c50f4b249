import Gxl.Document.Layout
import Gxl.Toml.Reader

/-!
# Settings of the formatter

A settings file is a TOML file with a table `fmt`, in which the key `indent` gives the number of
spaces for each level.  Both may be missing.  Any other key and any other type of value is refused.
The table may also be written as a list, whose first item is the indentation.

Reference: `src/crates/cli/src/config.rs` (`GxlConfig`, `FmtConfig`, `ConfigError`,
`parse_config`).
-/

namespace Gxl

/-- The settings of the formatter (`GxlConfig` and `FmtConfig`). -/
structure Settings where
  /-- The number of spaces for each level. -/
  indent : Nat
  deriving DecidableEq, Inhabited

/-- Why a settings file is refused (`ConfigError`). -/
inductive SettingsError where
  /-- The file is not TOML, or has other keys or types of values than settings have. -/
  | malformed
  /-- The indentation is outside its bounds. -/
  | indent (n : Nat)
  deriving DecidableEq, Inhabited

/-- The wording of an error in a settings file (the display of `ConfigError`).  What is wrong with a
malformed file is not told. -/
def SettingsError.message (path : String) : SettingsError → String
  | .malformed => "invalid config '" ++ path ++ "'"
  | .indent n =>
    "invalid config '" ++ path ++ "': fmt.indent must be between 1 and 16, got " ++ toString n

namespace Settings

/-- The settings when there is no settings file (the default of `GxlConfig`). -/
def standard : Settings := ⟨defaultIndent⟩

/-- Settings with an indentation as a file gives it, which must not be negative (a `usize`). -/
def ofInteger? (n : Int) : Option Settings :=
  if 0 ≤ n then some ⟨n.toNat⟩ else none

/-- The settings that the statements of a file give: `GxlConfig` as it is read from them. -/
def ofStatements? : List Toml.Statement → Option Settings
  | [] => some standard
  | [.header ["fmt"]] => some standard
  | [.header ["fmt"], .assign ["indent"] (.integer n)] => ofInteger? n
  | [.assign ["fmt", "indent"] (.integer n)] => ofInteger? n
  | [.assign ["fmt"] (.table [])] => some standard
  | [.assign ["fmt"] (.table [(["indent"], .integer n)])] => ofInteger? n
  | [.assign ["fmt"] (.array [])] => some standard
  | [.assign ["fmt"] (.array (.integer n :: _))] => ofInteger? n
  | _ => none

/-- The settings of a file (`parse_config`). -/
def parse (text : String) : Except SettingsError Settings :=
  match (Toml.parse text).bind ofStatements? with
  | none => .error .malformed
  | some s => if 1 ≤ s.indent ∧ s.indent ≤ 16 then .ok s else .error (.indent s.indent)

end Settings

end Gxl
