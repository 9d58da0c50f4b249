import Gxl.Tool.Run

/-!
# The program

Reads the command line, looks at the files it names, does the task, and shows the outcome.

Reference: `src/crates/cli/src/main.rs` (`main`).
-/

namespace Gxl.Tool

/-- What a path of the file system leads to, as an `Entry`. -/
def readEntry (path : String) : IO Entry := do
  try
    return .file (← IO.FS.readBinFile path)
  catch e =>
    match e with
    | .noFileOrDirectory .. => return .fault .missing
    | .inappropriateType _ 20 _ => return .fault .notDirectory
    | .inappropriateType _ 21 _ => return .fault .isDirectory
    | e => return .fault (.other (toString e))

/-- The entries of paths, as they are now, by `readEntry`. -/
def readEntries (paths : List String) : IO Files := do
  let entries ← paths.mapM fun path => return (path, ← readEntry path)
  return fun path => (entries.lookup path).getD (.fault .missing)

end Gxl.Tool

open Gxl.Tool in
/-- The command line program: it runs the `Invocation` that the arguments ask for. -/
def main (args : List String) : IO UInt32 := do
  match Invocation.ofArgs? args with
  | none => return 2
  | some invocation =>
    let o := invocation.run (← readEntries invocation.paths)
    if let some (path, text) := o.written then
      IO.FS.writeFile path text
    IO.print o.stdout
    IO.eprint (o.stderr invocation.verbose)
    return o.exit.toUInt32
