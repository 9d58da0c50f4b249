/-!
# The command line

`Invocation.ofArgs?` reads the arguments of a run: options, then the name of a task, then its own
options and paths.  Arguments that do not follow the usage are refused, and a refusal is all that is
told about them.

The general options may stand before or behind the name of the task, once on each side.  Given on
both sides, the value behind the name counts.

Reference: `src/crates/cli/src/main.rs` (`Cli`, `Commands`, `OutputFormat`) and
`src/crates/cli/src/commands/fmt.rs` (`FmtMode::from_flags`).
-/

namespace Gxl.Tool

/-- The form of what a run tells (`OutputFormat`). -/
inductive Format where
  | text
  | json
  deriving DecidableEq, Inhabited

/-- The format with a given name, `text` or `json`. -/
def Format.ofName? : String → Option Format
  | "text" => some .text
  | "json" => some .json
  | _ => none

/-- What formatting does with its result (`FmtMode`). -/
inductive Mode where
  /-- Show it. -/
  | print
  /-- Put it in place of the file. -/
  | write
  /-- Only tell whether it differs from the file. -/
  | check
  deriving DecidableEq, Inhabited

/-- The name of a mode in the log, as `Debug` prints it. -/
def Mode.title : Mode → String
  | .print => "Print"
  | .write => "Write"
  | .check => "Check"

/-- What a run is to do (`Commands`). -/
inductive Task where
  /-- Show the tree of a file. -/
  | parse (file : String)
  /-- Check files, and tell of the first fault in each. -/
  | check (files : List String)
  /-- Bring a file into canonical form. -/
  | format (file : String) (mode : Mode)
  /-- List the tokens of a file. -/
  | tokens (file : String)
  deriving DecidableEq, Inhabited

/-- How a run tells what it has to tell: the general options of `Cli`. -/
structure Options where
  format : Format
  quiet : Bool
  verbose : Bool
  /-- The path of the settings file, if it is given. -/
  config : Option String
  deriving DecidableEq, Inhabited

/-- A run as it is asked for. -/
inductive Invocation where
  /-- Show the version. -/
  | version
  /-- Do a task. -/
  | task (options : Options) (task : Task)
  deriving DecidableEq, Inhabited

/-! ## Arguments -/

/-- The form of an argument. -/
inductive Argument where
  /-- The mark `--`, behind which no argument is an option. -/
  | mark
  /-- A long option, with the value behind its equals sign. -/
  | long (name : String) (value : Option String)
  /-- Short options behind one dash. -/
  | short (letters : List Char)
  /-- Any other argument. -/
  | plain (text : String)
  deriving DecidableEq, Inhabited

/-- The form of an argument, by the dashes it starts with. -/
def Argument.ofString (s : String) : Argument :=
  match s.toList with
  | ['-', '-'] => .mark
  | '-' :: '-' :: cs =>
    let name := String.ofList (cs.takeWhile (· != '='))
    match cs.dropWhile (· != '=') with
    | [] => .long name none
    | _ :: value => .long name (some (String.ofList value))
  | '-' :: c :: cs => .short (c :: cs)
  | _ => .plain s

/-- The general options as they are given on one side of the name of the task, each at most once. -/
structure Given where
  format : Option Format
  quiet : Bool
  verbose : Bool
  config : Option String
  deriving DecidableEq, Inhabited

/-- A general option that takes a value: `--output` or `--config`. -/
inductive Valued where
  | output
  | config
  deriving DecidableEq, Inhabited

namespace Given

/-- No options. -/
def empty : Given := ⟨none, false, false, none⟩

/-- Adds an option with its value, which `Format.ofName?` must know if it is a format. -/
def setValue (g : Given) : Valued → String → Option Given
  | .output, value =>
    if g.format.isSome then none
    else (Format.ofName? value).map fun f => { g with format := some f }
  | .config, value =>
    if g.config.isSome || value.isEmpty then none else some { g with config := some value }

/-- Adds `--verbose`, the option that asks for more detail. -/
def setVerbose (g : Given) : Option Given :=
  if g.verbose then none else some { g with verbose := true }

/-- Adds a long option.  An option without its value waits for it, as the second component tells. -/
def setLong (g : Given) (name : String) (value : Option String) :
    Option (Given × Option Valued) :=
  match name, value with
  | "output", none => if g.format.isSome then none else some (g, some .output)
  | "output", some value => (g.setValue .output value).map (·, none)
  | "config", none => if g.config.isSome then none else some (g, some .config)
  | "config", some value => (g.setValue .config value).map (·, none)
  | "quiet", none => if g.quiet then none else some ({ g with quiet := true }, none)
  | "verbose", none => g.setVerbose.map (·, none)
  | _, _ => none

/-- The options of both sides together: the value behind the name of the task counts. -/
def toOptions (before behind : Given) : Options where
  format := (behind.format.or before.format).getD .text
  quiet := before.quiet || behind.quiet
  verbose := before.verbose || behind.verbose
  config := behind.config.or before.config

end Given

/-- The value of an option.  A value may not look like an option, so only `Argument.plain` is
one. -/
def optionValue? (s : String) : Option String :=
  match Argument.ofString s with
  | .plain value => some value
  | _ => none

/-! ## Behind the name of the task -/

/-- What is given behind the name of a task: general options, the `write` and `check` of the
formatter, and paths. -/
structure TaskArgs where
  given : Given
  write : Bool
  check : Bool
  /-- The paths, last first. -/
  paths : List String
  deriving DecidableEq, Inhabited

namespace TaskArgs

/-- Nothing. -/
def empty : TaskArgs := ⟨.empty, false, false, []⟩

/-- Adds a path, which may not be empty. -/
def addPath (a : TaskArgs) (path : String) : Option TaskArgs :=
  if path.isEmpty then none else some { a with paths := path :: a.paths }

/-- Adds short options: only `-v`, which asks for more detail, stands here. -/
def addShort (a : TaskArgs) : List Char → Option TaskArgs
  | [] => some a
  | 'v' :: cs => a.given.setVerbose.bind fun g => addShort { a with given := g } cs
  | _ :: _ => none

/-- Adds a long option.  The formatter, told by `formats`, has `--write` and `--check` of its
own. -/
def addLong (a : TaskArgs) (formats : Bool) (name : String) (value : Option String) :
    Option (TaskArgs × Option Valued) :=
  if formats && name == "write" then
    if a.write || value.isSome then none else some ({ a with write := true }, none)
  else if formats && name == "check" then
    if a.check || value.isSome then none else some ({ a with check := true }, none)
  else
    (a.given.setLong name value).map fun (g, wait) => ({ a with given := g }, wait)

/-- Reads the arguments behind the name of a task.  `wait` is the option whose value comes next,
and `marked` tells that no more options follow. -/
def read (formats : Bool) (a : TaskArgs) (wait : Option Valued) (marked : Bool) :
    List String → Option TaskArgs
  | [] => if wait.isSome then none else some a
  | arg :: args =>
    match wait with
    | some option =>
      (optionValue? arg).bind fun value =>
        (a.given.setValue option value).bind fun g =>
          read formats { a with given := g } none marked args
    | none =>
      if marked then
        (a.addPath arg).bind fun a => read formats a none true args
      else
        match Argument.ofString arg with
        | .mark => read formats a none true args
        | .long name value =>
          (a.addLong formats name value).bind fun (a, wait) => read formats a wait false args
        | .short letters => (a.addShort letters).bind fun a => read formats a none false args
        | .plain path => (a.addPath path).bind fun a => read formats a none false args

end TaskArgs

/-- The mode that `--write` and `--check` ask for; they exclude each other
(`FmtMode::from_flags`). -/
def Mode.ofFlags? (write check : Bool) : Option Mode :=
  match write, check with
  | false, false => some .print
  | true, false => some .write
  | false, true => some .check
  | true, true => none

/-- The task of a given name, with what is given behind the name.  A `check` takes one path or more,
the others exactly one. -/
def Task.ofArgs? (name : String) (a : TaskArgs) : Option Task :=
  match name, a.paths.reverse with
  | "parse", [file] => some (.parse file)
  | "check", file :: files => some (.check (file :: files))
  | "fmt", [file] => (Mode.ofFlags? a.write a.check).map (.format file)
  | "tokens", [file] => some (.tokens file)
  | _, _ => none

/-! ## Before the name of the task -/

namespace Invocation

/-- What short options before the name of the task ask for: the version, `-V`, or more detail,
`-v`. -/
def addShort (g : Given) : List Char → Option (Given ⊕ Unit)
  | [] => some (.inl g)
  | 'v' :: cs => g.setVerbose.bind fun g => addShort g cs
  | 'V' :: _ => some (.inr ())
  | _ :: _ => none

/-- Reads all arguments.  `wait` is the option whose value comes next. -/
def read (g : Given) (wait : Option Valued) : List String → Option Invocation
  | [] => none
  | arg :: args =>
    match wait with
    | some option =>
      (optionValue? arg).bind fun value => (g.setValue option value).bind fun g => read g none args
    | none =>
      match Argument.ofString arg with
      | .mark => none
      | .long "version" none => some .version
      | .long name value => (g.setLong name value).bind fun (g, wait) => read g wait args
      | .short letters =>
        (addShort g letters).bind fun
          | .inl g => read g none args
          | .inr () => some .version
      | .plain name =>
        (TaskArgs.read (name == "fmt") .empty none false args).bind fun a =>
          (Task.ofArgs? name a).map (.task (g.toOptions a.given))

/-- The run that arguments ask for, unless they do not follow the usage (`Cli::parse`). -/
def ofArgs? (args : List String) : Option Invocation :=
  read .empty none args

end Invocation

end Gxl.Tool
