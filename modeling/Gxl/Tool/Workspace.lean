/-!
# Files

A run reads files by their paths and may put a new text in place of one.  `Entry` is what a path
leads to; a `Workspace` is a directory with its files held in memory, and `Workspace.entry` follows
a path in it.

Reference: the files that `src/crates/cli/src/commands/mod.rs` (`read_source`),
`src/crates/cli/src/commands/fmt.rs` (`cmd_fmt`) and `src/crates/cli/src/config.rs` (`load`) read
and write through `std::fs`.
-/

namespace Gxl.Tool

/-- Why a text could not be read, by the kinds of `std::io::Error`. -/
inductive ReadFault where
  /-- Nothing is there. -/
  | missing
  /-- A directory is there. -/
  | isDirectory
  /-- The path goes through something that is not a directory. -/
  | notDirectory
  /-- The bytes are not a text. -/
  | notText
  /-- Any other reason, in the words of the system. -/
  | other (reason : String)
  deriving DecidableEq, Inhabited

/-- The wording of a fault, as `std::io::Error` is displayed. -/
def ReadFault.message : ReadFault → String
  | .missing => "No such file or directory (os error 2)"
  | .isDirectory => "Is a directory (os error 21)"
  | .notDirectory => "Not a directory (os error 20)"
  | .notText => "stream did not contain valid UTF-8"
  | .other reason => reason

/-- What a path leads to. -/
inductive Entry where
  | file (bytes : ByteArray)
  | fault (fault : ReadFault)
  deriving Inhabited

namespace Entry

/-- Whether a path leads to a file (`Path::is_file`). -/
def isFile : Entry → Bool
  | .file _ => true
  | .fault _ => false

/-- The text of a file (`read_to_string`), whose bytes must be UTF-8. -/
def text : Entry → Except ReadFault String
  | .file bytes =>
    match String.fromUTF8? bytes with
    | some s => .ok s
    | none => .error .notText
  | .fault reason => .error reason

end Entry

/-- A file of a workspace: its path from there, and its bytes. -/
structure File where
  path : String
  bytes : ByteArray
  deriving Inhabited

/-- A directory with its files. -/
structure Workspace where
  files : List File
  deriving Inhabited

/-- Splits a path at its slashes, with `part` as the reverse of the part read so far. -/
def splitPath (part : List Char) : List Char → List String
  | [] => [String.ofList part.reverse]
  | c :: cs =>
    if c = '/' then String.ofList part.reverse :: splitPath [] cs else splitPath (c :: part) cs

/-- The steps of a path, without those that stay in place: empty ones and `.`. -/
def pathSteps (path : String) : List String :=
  (splitPath [] path.toList).filter fun s => s != "" && s != "."

namespace Workspace

/-- The file that `steps` lead to. -/
def file? (w : Workspace) (steps : List String) : Option File :=
  w.files.find? fun f => pathSteps f.path == steps

/-- Whether `steps` lead to a directory: the workspace itself, or one that holds a file. -/
def isDirectory (w : Workspace) (steps : List String) : Bool :=
  steps.isEmpty
    || w.files.any fun f => steps.isPrefixOf (pathSteps f.path) && pathSteps f.path != steps

/-- Where a path leads. -/
inductive Place where
  | file (file : File)
  | directory
  | fault (fault : ReadFault)
  deriving Inhabited

/-- Follows the parts of a path from the directory `here`, given by its steps, last first.  Nothing
is known of what lies outside the workspace. -/
def follow (w : Workspace) (here : List String) : List String → Place
  | [] => .directory
  | part :: parts =>
    if part = "" || part = "." then
      follow w here parts
    else if part = ".." then
      match here with
      | _ :: above => follow w above parts
      | [] => if parts.all (fun p => p == "" || p == "." || p == "..") then .directory
        else .fault .missing
    else
      let steps := (part :: here).reverse
      match w.file? steps with
      | some f => if parts.isEmpty then .file f else .fault .notDirectory
      | none => if w.isDirectory steps then follow w (part :: here) parts else .fault .missing

/-- Where a path leads, as `follow` finds it from the workspace itself. -/
def place (w : Workspace) (path : String) : Place :=
  match path.toList with
  | '/' :: _ => if (pathSteps path).isEmpty then .directory else .fault .missing
  | cs => w.follow [] (splitPath [] cs)

/-- What a path leads to, with a directory as the fault `isDirectory`. -/
def entry (w : Workspace) (path : String) : Entry :=
  match w.place path with
  | .file f => .file f.bytes
  | .directory => .fault .isDirectory
  | .fault reason => .fault reason

/-- Puts a text in place of the file that a path leads to (`fs::write`). -/
def write (w : Workspace) (path text : String) : Workspace :=
  match w.place path with
  | .file f => ⟨w.files.map fun g => if g.path = f.path then { g with bytes := text.toUTF8 } else g⟩
  | _ => w

/-- The files whose bytes differ between two states of a workspace, as they are in the state
`after`. -/
def changes (before after : Workspace) : List File :=
  ((before.files.zip after.files).filter fun (a, b) => a.bytes != b.bytes).map Prod.snd

end Workspace

end Gxl.Tool
