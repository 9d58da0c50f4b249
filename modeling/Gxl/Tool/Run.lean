import Gxl.Document.Shape
import Gxl.Error.Report
import Gxl.Grammar.Document
import Gxl.Settings
import Gxl.Text.Terminal
import Gxl.Tool.Invocation
import Gxl.Tool.Workspace

/-!
# Runs

A run does one task.  It looks at files through a function from paths to entries, and its outcome
says everything it did: what it told, on which channel and in which order, whether it puts a new
text in place of a file, and its exit status.

Options decide how a run tells things.  Quiet runs leave out what is not essential; verbose runs
also show the log.

Reference: `src/crates/cli/src/commands/parse.rs` (`cmd_parse`), `tokens.rs` (`cmd_tokens`),
`check.rs` (`cmd_check`), `fmt.rs` (`cmd_fmt`, `report_status`) and `mod.rs` (`read_source`,
`report_gxl_error`), `src/crates/cli/src/config.rs` (`load`) and `src/crates/cli/src/main.rs`
(`main`, `report_error`).
-/

namespace Gxl.Tool

/-- Something that a run tells, on one of three channels. -/
inductive Emission where
  /-- A piece of its result. -/
  | result (text : String)
  /-- A piece of a report. -/
  | report (text : String)
  /-- A line of the log. -/
  | log (record : Record)
  deriving DecidableEq, Inhabited

/-- What a run did. -/
structure Outcome where
  /-- The exit status. -/
  exit : Nat
  /-- What it told, in order. -/
  emissions : List Emission
  /-- The path of a file and the text put in its place. -/
  written : Option (String × String)
  deriving DecidableEq, Inhabited

/-- A function from paths to what they lead to. -/
abbrev Files := String → Entry

/-! ## Channels -/

/-- The text of a line of the log.  A message of several lines goes on four spaces in, and orders to
the terminal are left out (`Text.withoutOrders`). -/
def logLine (r : Record) : String :=
  Text.withoutOrders
    ("[" ++ level ++ " " ++ r.target ++ "] "
      ++ String.join (r.message.toList.map fun c => if c = '\n' then "\n    " else c.toString)
      ++ "\n")
where
  /-- The level in capital letters. -/
  level : String :=
    match r.level with
    | .debug => "DEBUG"
    | .trace => "TRACE"

/-- The part of an emission that goes to the standard output: a `result`. -/
def Emission.stdout : Emission → String
  | .result text => text
  | .report _ | .log _ => ""

/-- The part of an emission that goes to the standard error: a `report`, and a `log` record when
`verbose` asks for it, down to the level `debug`. -/
def Emission.stderr (verbose : Bool) : Emission → String
  | .result _ => ""
  | .report text => text
  | .log record => if verbose && record.level == .debug then logLine record else ""

namespace Outcome

/-- What a run writes to the standard output, its results joined. -/
def stdout (o : Outcome) : String :=
  String.join (o.emissions.map Emission.stdout)

/-- What a run writes to the standard error, its reports and log joined. -/
def stderr (verbose : Bool) (o : Outcome) : String :=
  String.join (o.emissions.map (Emission.stderr verbose))

/-- An outcome with something told `before`. -/
def after (before : List Emission) (o : Outcome) : Outcome :=
  { o with emissions := before ++ o.emissions }

/-- A run that succeeds, with exit status `0`. -/
def success (emissions : List Emission) : Outcome :=
  ⟨0, emissions, none⟩

/-- A run that fails, with exit status `1`. -/
def failure (emissions : List Emission) : Outcome :=
  ⟨1, emissions, none⟩

end Outcome

/-! ## Reports -/

/-- A JSON value on a line of its own (`println!` of `to_string`). -/
def jsonLine (v : Json) : String :=
  v.compact ++ "\n"

/-- A JSON value over several lines (`println!` of `to_string_pretty`). -/
def jsonLines (v : Json) : String :=
  v.pretty ++ "\n"

/-- A message about the run itself, which a quiet run leaves out (`report_error`). -/
def reportMessage (options : Options) (message : String) : List Emission :=
  if options.quiet then []
  else
    match options.format with
    | .text => [.report (message ++ "\n")]
    | .json => [.report (jsonLine (.object [("error", .string message)]))]

/-- The beginning of a `reportMessage`, up to the point where the reason would stand. -/
def reportOpening (options : Options) (message : String) : List Emission :=
  if options.quiet then []
  else
    match options.format with
    | .text => [.report message]
    | .json =>
      [.report ("\x7b\"error\":\"" ++ String.join (message.toList.map Json.escapeChar))]

/-- The report of an error in a file (`report_gxl_error`).  As JSON it is told even when the run is
quiet. -/
def reportError (options : Options) (source file : String) (e : Error) : List Emission :=
  match options.format with
  | .json => [.report (jsonLines (e.toJsonIn file))]
  | .text => if options.quiet then [] else [.report (e.render source file)]

/-- The report of a file that could not be read (`read_source`). -/
def reportUnreadable (options : Options) (file : String) (fault : ReadFault) : List Emission :=
  reportMessage options ("error reading file '" ++ file ++ "': " ++ fault.message)

/-- The log of reading a source text: the records of `parseEvents`. -/
def parseLog (source : String) : List Emission :=
  (parseEvents source).map fun e => .log e.record

/-- A record at the level `debug`. -/
def debug (target message : String) : Emission :=
  .log ⟨.debug, target, message⟩

/-! ## Trees and tokens -/

/-- Shows the tree of a source text (`cmd_parse`). -/
def parseSource (options : Options) (file source : String) : Outcome :=
  match parse source with
  | .ok d =>
    .success
      (parseLog source
        ++ [debug "gxl::commands::parse"
            (file ++ ": " ++ toString d.items.length ++ " top-level items"),
          .result (jsonLines d.toJson)])
  | .error e => .failure (parseLog source ++ reportError options source file e)

/-- A token on a line of its own: place, `Kind.title` and text. -/
def tokenLine (t : Token) : String :=
  toString t.span.line ++ ":" ++ toString t.span.column ++ "\t" ++ t.kind.title ++ "\t" ++ t.text
    ++ "\n"

/-- A token as JSON, with its fields in the order of their names. -/
def tokenJson (t : Token) : Json :=
  .object
    [("column", .nat t.span.column), ("end", .nat t.span.stop), ("kind", .string t.kind.name),
     ("line", .nat t.span.line), ("start", .nat t.span.start), ("text", .string t.text)]

/-- Lists the tokens of a source text (`cmd_tokens`).  The end of the text is listed only as
JSON. -/
def tokensSource (options : Options) (file source : String) : Outcome :=
  match tokenize source with
  | .ok tokens =>
    match options.format with
    | .text =>
      .success ((tokens.filter fun t => t.kind != .eof).map fun t => .result (tokenLine t))
    | .json => .success [.result (jsonLines (.ofList tokenJson tokens))]
  | .error e => .failure (reportError options source file (.lex e))

/-! ## Checks -/

/-- What a check tells of one file when it tells of each in turn (the loop of `cmd_check`). -/
def checkReport (options : Options) (file source : String) : List Emission :=
  match parse source with
  | .ok d =>
    debug "gxl::commands::check"
        (file ++ ": ok, " ++ toString d.items.length ++ " top-level items")
      :: match options.format with
        | .text => if options.quiet then [] else [.result ("ok " ++ file ++ "\n")]
        | .json => []
  | .error e =>
    match options.format with
    | .text => reportError options source file e
    | .json => []

/-- The result of a check of one file as JSON: `file` and `ok`, with `items` or `error` between. -/
def checkJson (file source : String) : Json :=
  match parse source with
  | .ok d =>
    .object [("file", .string file), ("items", .nat d.items.length), ("ok", .bool true)]
  | .error e =>
    .object [("error", e.toJsonIn file), ("file", .string file), ("ok", .bool false)]

/-- Whether a source text has a fault, that is, `parse` refuses it. -/
def isFaulty (source : String) : Bool :=
  match parse source with
  | .ok _ => false
  | .error _ => true

/-- The summary of a check as JSON: how many files were `checked`, how many `failed`, and the
`checkJson` of each. -/
def checkSummary (sources : List (String × String)) : Json :=
  .object
    [("checked", .nat sources.length),
     ("failed", .nat (sources.countP fun (_, source) => isFaulty source)),
     ("results", .ofList (fun (file, source) => checkJson file source) sources)]

/-- Checks source texts (`cmd_check`).  All are read before any is told of. -/
def checkSources (options : Options) (sources : List (String × String)) : Outcome where
  exit := if sources.any fun (_, source) => isFaulty source then 1 else 0
  emissions :=
    sources.flatMap (fun (_, source) => parseLog source)
      ++ sources.flatMap (fun (file, source) => checkReport options file source)
      ++ match options.format with
        | .text => []
        | .json => [.result (jsonLines (checkSummary sources))]
  written := none

/-- The texts of `files` with their paths, or the first path that leads to none. -/
def readAll (files : Files) : List String → Except (String × ReadFault) (List (String × String))
  | [] => .ok []
  | path :: paths =>
    match (files path).text with
    | .error fault => .error (path, fault)
    | .ok source => (readAll files paths).map ((path, source) :: ·)

/-! ## Formatting -/

/-- Tells whether a file was, or would be, changed (`report_status`). -/
def reportStatus (options : Options) (file : String) (changed : Bool) : List Emission :=
  match options.format with
  | .json =>
    [.result (jsonLine (.object [("changed", .bool changed), ("file", .string file)]))]
  | .text =>
    if options.quiet then []
    else [.result ((if changed then "reformatted " else "unchanged ") ++ file ++ "\n")]

/-- Brings a source text into canonical form (`cmd_fmt`). -/
def formatSource (options : Options) (settings : Settings) (mode : Mode) (file source : String) :
    Outcome :=
  match parse source with
  | .error e => .failure (parseLog source ++ reportError options source file e)
  | .ok d =>
    let formatted := d.print settings.indent
    let changed := formatted != source
    let log :=
      parseLog source
        ++ [debug "gxl::commands::fmt"
            (file ++ ": " ++ mode.title ++ ", changed = " ++ (if changed then "true" else "false"))]
    match mode with
    | .print => .success (log ++ [.result formatted])
    | .write =>
      ⟨0, log ++ reportStatus options file changed,
        if changed then some (file, formatted) else none⟩
    | .check => ⟨if changed then 1 else 0, log ++ reportStatus options file changed, none⟩

/-- The path of the settings file that is used when none is given. -/
def settingsPath : String := "gxl.toml"

/-- The report of settings that are refused.  The reason why a text is not TOML is left open
(`reportOpening`). -/
def reportSettings (options : Options) (path : String) (e : SettingsError) : List Emission :=
  match e with
  | .malformed => reportOpening options (e.message path)
  | .indent _ => reportMessage options (e.message path)

/-- The settings in the file that a path leads to, or a report why there are none (`load`). -/
def loadSettingsFrom (options : Options) (files : Files) (path : String) :
    Except (List Emission) (Settings × List Emission) :=
  match (files path).text with
  | .error fault =>
    .error (reportMessage options ("error reading config '" ++ path ++ "': " ++ fault.message))
  | .ok text =>
    match Settings.parse text with
    | .error e => .error (reportSettings options path e)
    | .ok settings =>
      .ok (settings,
        [debug "gxl::config"
          ("loaded config from " ++ path ++ ": GxlConfig \x7b fmt: FmtConfig \x7b indent: "
            ++ toString settings.indent ++ " \x7d \x7d")])

/-- The settings of a run: from the file that is given, else from `settingsPath` if it leads to a
file, else the standard ones. -/
def loadSettings (options : Options) (files : Files) :
    Except (List Emission) (Settings × List Emission) :=
  match options.config with
  | some path => loadSettingsFrom options files path
  | none =>
    if (files settingsPath).isFile then
      loadSettingsFrom options files settingsPath
    else
      .ok (.standard,
        [debug "gxl::config" ("no " ++ settingsPath ++ " found, using defaults")])

/-! ## Tasks -/

/-- Does something with the text of a file, or reports that it could not be read (`read_source`). -/
def withSource (options : Options) (files : Files) (file : String) (run : String → Outcome) :
    Outcome :=
  match (files file).text with
  | .ok source => run source
  | .error fault => .failure (reportUnreadable options file fault)

/-- Does a task: one of `cmd_parse`, `cmd_tokens`, `cmd_check` and `cmd_fmt`. -/
def Task.run (options : Options) (files : Files) : Task → Outcome
  | .parse file => withSource options files file (parseSource options file)
  | .tokens file => withSource options files file (tokensSource options file)
  | .check paths =>
    match readAll files paths with
    | .ok sources => checkSources options sources
    | .error (path, fault) => .failure (reportUnreadable options path fault)
  | .format file mode =>
    match loadSettings options files with
    | .error report => .failure report
    | .ok (settings, log) =>
      (withSource options files file (formatSource options settings mode file)).after log

/-- What `--version` shows. -/
def versionLine : String := "gxl 0.1.0\n"

namespace Invocation

/-- Whether the log is shown: the option `verbose`. -/
def verbose : Invocation → Bool
  | .version => false
  | .task options _ => options.verbose

/-- Does what is asked for (`main`). -/
def run (files : Files) : Invocation → Outcome
  | .version => .success [.result versionLine]
  | .task options job => job.run options files

/-- The paths that `run` may look at. -/
def paths : Invocation → List String
  | .version => []
  | .task _ (.parse file) => [file]
  | .task _ (.tokens file) => [file]
  | .task _ (.check files) => files
  | .task options (.format file _) => [options.config.getD settingsPath, file]

end Invocation

/-- What a run in a workspace shows, and the workspace it leaves. -/
structure Session where
  exit : Nat
  stdout : String
  stderr : String
  workspace : Workspace
  deriving Inhabited

/-- Runs an invocation in a workspace: `Invocation.run` with the entries of `w`, and what it wrote
put in place. -/
def Workspace.run (w : Workspace) (invocation : Invocation) : Session :=
  let o := invocation.run w.entry
  { exit := o.exit
    stdout := o.stdout
    stderr := o.stderr invocation.verbose
    workspace :=
      match o.written with
      | some (path, text) => w.write path text
      | none => w }

end Gxl.Tool
