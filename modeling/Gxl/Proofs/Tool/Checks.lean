import Gxl.Proofs.Json.Text
import Gxl.Proofs.Tool.Formatting

/-!
# Checking many files

A check of many files tells of each what a check of that file alone tells (`check_composes`).  As
text the two are put one behind the other, and `verdict` says what is told of one file.  As JSON the
results, which are `checkJson` of each file, stand in one summary, `summaryOf`, which counts those
that tell of a fault.  The run fails exactly if one of the files alone makes it fail.

What is printed as JSON is the `Json.pretty` text of the summary and a line feed, so that the
summary can be read off it: by `Json.pretty_injective` no other value is printed like that.

All files are read before any is told of, so a file that cannot be read is all that is told of
(`readAll_of_unreadable`).
-/

namespace Gxl.Tool

/-! ## What is told on a channel -/

/-- What goes to a `channel` from one thing after the other is put one behind the other. -/
theorem join_map_flatMap {α : Type} (channel : Emission → String) (f : α → List Emission)
    (xs : List α) :
    String.join ((xs.flatMap f).map channel)
      = String.join (xs.map fun x => String.join ((f x).map channel)) := by
  induction xs with
  | nil => rfl
  | cons x xs ih =>
    rw [List.flatMap_cons, List.map_append, String.join_append, ih, List.map_cons,
      String.join_cons]

section Channel

variable {channel : Emission → String} (hlog : ∀ record, channel (.log record) = "")
include hlog

/-- The records of `parseLog` show nothing on a `channel` that does not show the log. -/
theorem join_logs (sources : List (String × String)) :
    String.join ((sources.flatMap fun s => parseLog s.2).map channel) = "" := by
  refine join_eq_empty fun e he => ?_
  obtain ⟨s, -, he⟩ := List.mem_flatMap.1 he
  obtain ⟨event, -, rfl⟩ := List.mem_map.1 he
  exact hlog _

/-- On a `channel` that does not show the log, `checkSources` as text shows the `checkReport` of
each file in order. -/
theorem join_checkSources {options : Options} (hformat : options.format = .text)
    (sources : List (String × String)) :
    String.join ((checkSources options sources).emissions.map channel)
      = String.join (sources.map fun s =>
          String.join ((checkReport options s.1 s.2).map channel)) := by
  simp only [checkSources, hformat, List.append_nil, List.map_append, String.join_append,
    join_logs hlog, String.empty_append]
  exact join_map_flatMap channel _ sources

/-- So `checkSources` shows what it shows of the files alone, put one behind the other. -/
theorem join_checkSources_singletons {options : Options} (hformat : options.format = .text)
    (sources : List (String × String)) :
    String.join ((checkSources options sources).emissions.map channel)
      = String.join (sources.map fun s =>
          String.join ((checkSources options [s]).emissions.map channel)) := by
  simp only [join_checkSources hlog hformat, List.map_cons, List.map_nil, String.join_cons,
    String.join_nil, String.append_empty]

end Channel

/-! ## Summaries -/

/-- Whether the result of a check tells of a fault: it has the field `ok`, which is false. -/
def isFailure : Json → Bool
  | .object fields => fields.lookup "ok" == some (.bool false)
  | _ => false

/-- The summary of the `results` of checks: how many there are, how many of them tell of a fault,
and the results. -/
def summaryOf (results : List Json) : Json :=
  .object
    [("checked", .nat results.length), ("failed", .nat (results.countP isFailure)),
     ("results", .array results)]

/-- The result that `checkJson` gives tells of a fault exactly if the source `isFaulty`. -/
theorem isFailure_checkJson (file source : String) :
    isFailure (checkJson file source) = isFaulty source := by
  unfold checkJson isFaulty
  cases parse source <;> rfl

/-- The summary that is printed is `summaryOf` the results that `checkJson` gives for the files. -/
theorem checkSummary_eq (sources : List (String × String)) :
    checkSummary sources = summaryOf (sources.map fun s => checkJson s.1 s.2) := by
  simp only [checkSummary, summaryOf, Json.ofList, List.length_map, List.countP_map,
    Function.comp_def, isFailure_checkJson]

/-- As JSON, no `checkReport` shows anything. -/
theorem join_checkReports {options : Options} (hformat : options.format = .json)
    {channel : Emission → String} (hlog : ∀ record, channel (.log record) = "")
    (sources : List (String × String)) :
    String.join ((sources.flatMap fun s => checkReport options s.1 s.2).map channel) = "" := by
  refine join_eq_empty fun e he => ?_
  obtain ⟨s, -, he⟩ := List.mem_flatMap.1 he
  unfold checkReport at he
  split at he
  · obtain rfl : e = debug _ _ := by simpa [hformat] using he
    exact hlog _
  · simp [hformat] at he

/-- As JSON, `checkSources` shows the `pretty` text of its summary and a line feed, and nothing
else. -/
theorem join_checkSources_json {options : Options} (hformat : options.format = .json)
    {channel : Emission → String} (hlog : ∀ record, channel (.log record) = "")
    (sources : List (String × String)) :
    String.join ((checkSources options sources).emissions.map channel)
      = channel
          (.result ((summaryOf (sources.map fun s => checkJson s.1 s.2)).pretty ++ "\n")) := by
  simp only [checkSources, hformat, List.map_append, String.join_append, join_logs hlog,
    join_checkReports hformat hlog, checkSummary_eq, jsonLines]
  simp [String.join_cons]

/-! ## Reading all files first -/

/-- Files that can all be read are read by `readAll` with their texts, in order. -/
theorem readAll_of_text {files : Files} {source : String → String} {paths : List String}
    (h : ∀ path ∈ paths, (files path).text = .ok (source path)) :
    readAll files paths = .ok (paths.map fun path => (path, source path)) := by
  induction paths with
  | nil => rfl
  | cons path paths ih =>
    obtain ⟨hpath, hrest⟩ := List.forall_mem_cons.1 h
    simp [readAll, hpath, ih hrest, Except.map]

/-- The first file that cannot be read ends `readAll`. -/
theorem readAll_of_unreadable {files : Files} {before after : List String} {path : String}
    {fault : ReadFault} (h : ∀ p ∈ before, ∃ source, (files p).text = .ok source)
    (hfault : (files path).text = .error fault) :
    readAll files (before ++ path :: after) = .error (path, fault) := by
  induction before with
  | nil => simp [readAll, hfault]
  | cons p before ih =>
    obtain ⟨⟨source, hsource⟩, hrest⟩ := List.forall_mem_cons.1 h
    simp [readAll, hsource, ih hrest, Except.map]

/-- Where some file cannot be read, there is a first one, with the reason for which it has no
`text`. -/
theorem exists_first_unreadable {files : Files} {paths : List String}
    (h : ∃ path ∈ paths, ∀ source, (files path).text ≠ .ok source) :
    ∃ before path after fault, paths = before ++ path :: after ∧
      (∀ p ∈ before, ∃ source, (files p).text = .ok source) ∧
      (files path).text = .error fault := by
  induction paths with
  | nil => simp at h
  | cons path paths ih =>
    cases htext : (files path).text with
    | error fault => exact ⟨[], path, paths, fault, rfl, by simp, htext⟩
    | ok source =>
      have hrest : ∃ path ∈ paths, ∀ source, (files path).text ≠ .ok source := by
        obtain ⟨p, hp, hfault⟩ := h
        rcases List.mem_cons.1 hp with rfl | hp
        · exact absurd htext (hfault source)
        · exact ⟨p, hp, hfault⟩
      obtain ⟨before, p, after, fault, rfl, hbefore, hfault⟩ := ih hrest
      refine ⟨path :: before, p, after, fault, rfl, ?_, hfault⟩
      exact List.forall_mem_cons.2 ⟨⟨source, htext⟩, hbefore⟩

/-! ## Checks of many files -/

/-- A run of the task `check`. -/
def checkFiles (options : Options) (files : Files) (paths : List String) : Outcome :=
  (Task.check paths).run options files

/-- What a check of one file prints as text, to the standard output and to the standard error: a
line for an accepted source and `ParseError.render` for any other, and nothing at all if it is
`quiet`. -/
def verdict (options : Options) (path source : String) : String × String :=
  if options.quiet then ("", "")
  else
    match parse source with
    | .ok _ => ("ok " ++ path ++ "\n", "")
    | .error e => ("", e.render source path)

section Readable

variable {options : Options} {files : Files} {paths : List String} {source : String → String}
  (h : ∀ path ∈ paths, (files path).text = .ok (source path))
include h

/-- Files that can be read are checked as their texts are by `checkSources`. -/
theorem checkFiles_eq (options : Options) :
    checkFiles options files paths
      = checkSources options (paths.map fun path => (path, source path)) := by
  simp only [checkFiles, Task.run, readAll_of_text h]

/-- So is each of them alone. -/
theorem checkFiles_singleton (options : Options) {path : String} (hpath : path ∈ paths) :
    checkFiles options files [path] = checkSources options [(path, source path)] :=
  checkFiles_eq (fun p hp => by rw [List.mem_singleton.1 hp]; exact h path hpath) options

/-- As text, `checkFiles` tells of the files one behind the other what it tells of each alone. -/
theorem join_checkFiles {channel : Emission → String} (hlog : ∀ record, channel (.log record) = "")
    (hformat : options.format = .text) :
    String.join ((checkFiles options files paths).emissions.map channel)
      = String.join (paths.map fun path =>
          String.join ((checkFiles options files [path]).emissions.map channel)) := by
  rw [checkFiles_eq h, join_checkSources_singletons hlog hformat, List.map_map]
  refine congrArg String.join (List.map_congr_left fun path hpath => ?_)
  rw [checkFiles_singleton h options hpath, Function.comp_apply]

/-- As text, what is printed for a file alone is its `verdict`. -/
theorem checkFiles_verdict (hformat : options.format = .text) {path : String}
    (hpath : path ∈ paths) :
    (checkFiles options files [path]).stdout = (verdict options path (source path)).1 ∧
      (checkFiles options files [path]).stderr false
        = (verdict options path (source path)).2 := by
  rw [checkFiles_singleton h options hpath]
  unfold Outcome.stdout Outcome.stderr
  rw [join_checkSources (fun _ => rfl) hformat, join_checkSources (fun _ => rfl) hformat]
  simp only [checkReport, reportError, verdict, hformat, debug]
  cases hparse : parse (source path) <;> cases options.quiet <;>
    simp [hparse, Emission.stdout, Emission.stderr, String.join_cons]

/-- As JSON, the results that `checkJson` gives for the files are printed as one summary. -/
theorem checkFiles_summary (hformat : options.format = .json) :
    (checkFiles options files paths).stdout
        = (summaryOf (paths.map fun path => checkJson path (source path))).pretty ++ "\n" ∧
      (checkFiles options files paths).stderr false = "" := by
  rw [checkFiles_eq h]
  unfold Outcome.stdout Outcome.stderr
  rw [join_checkSources_json hformat (fun _ => rfl), join_checkSources_json hformat (fun _ => rfl),
    List.map_map]
  exact ⟨rfl, rfl⟩

/-- As JSON, the result that `checkJson` gives for a file alone is printed as a summary of its
own. -/
theorem checkFiles_summary_singleton (hformat : options.format = .json) {path : String}
    (hpath : path ∈ paths) :
    (checkFiles options files [path]).stdout
      = (summaryOf [checkJson path (source path)]).pretty ++ "\n" :=
  (checkFiles_summary (fun p hp => by rw [List.mem_singleton.1 hp]; exact h path hpath) hformat).1

/-- A check of a file alone fails exactly if its source `isFaulty`. -/
theorem exit_checkFiles_singleton (options : Options) {path : String} (hpath : path ∈ paths) :
    (checkFiles options files [path]).exit = if isFaulty (source path) then 1 else 0 := by
  rw [checkFiles_singleton h options hpath]
  simp [checkSources]

/-- A run of `checkFiles` fails exactly if that of one of the files alone fails. -/
theorem exit_checkFiles (options : Options) :
    ((checkFiles options files paths).exit = 1 ↔
      ∃ path ∈ paths, (checkFiles options files [path]).exit = 1) ∧
    ((checkFiles options files paths).exit = 0 ↔
      ∀ path ∈ paths, (checkFiles options files [path]).exit = 0) := by
  have hone : ∀ path ∈ paths,
      ((checkFiles options files [path]).exit = 1 ↔ isFaulty (source path) = true) := by
    intro path hpath
    simp [exit_checkFiles_singleton h options hpath]
  have hzero : ∀ path ∈ paths,
      ((checkFiles options files [path]).exit = 0 ↔ isFaulty (source path) = false) := by
    intro path hpath
    simp [exit_checkFiles_singleton h options hpath]
  have hexit : (checkFiles options files paths).exit
      = if paths.any fun path => isFaulty (source path) then 1 else 0 := by
    rw [checkFiles_eq h]
    simp [checkSources, List.any_map, Function.comp_def]
  rw [hexit, exists_congr fun path => and_congr_right (hone path), forall₂_congr hzero]
  simp

end Readable

/-- Why the file at `path` could not be read. -/
def readMessage (path : String) (fault : ReadFault) : String :=
  "error reading file '" ++ path ++ "': " ++ fault.message

/-- What is told of a file that cannot be read: its `readMessage`, as a line or as the field `error`
of an object on one line. -/
def readError (format : Format) (path : String) (fault : ReadFault) : String :=
  match format with
  | .text => readMessage path fault ++ "\n"
  | .json => (Json.object [("error", .string (readMessage path fault))]).compact ++ "\n"

/-- Where a file cannot be read, `checkFiles` tells of nothing but the first such file, which is its
`readError`. -/
theorem checkFiles_of_unreadable (options : Options) {files : Files} {before after : List String}
    {path : String} {fault : ReadFault} (h : ∀ p ∈ before, ∃ source, (files p).text = .ok source)
    (hfault : (files path).text = .error fault) :
    let all := checkFiles options files (before ++ path :: after)
    all.exit = 1 ∧ all.stdout = "" ∧
      all.stderr options.verbose
        = if options.quiet then "" else readError options.format path fault := by
  intro all
  have hall : all = .failure (reportUnreadable options path fault) := by
    simp only [all, checkFiles, Task.run, readAll_of_unreadable h hfault]
  rw [hall]
  refine ⟨rfl, (silent_reportUnreadable options path fault).join_eq, ?_⟩
  unfold reportUnreadable reportMessage readError readMessage
  cases options.quiet <;> cases options.format <;>
    simp [Outcome.stderr, Outcome.failure, Emission.stderr, jsonLine, String.join_cons]

/-- A check of many files tells of each what a check of that file alone tells.

Files that can be read are told of in order.  As text, if the log is not shown, what is printed is
put one behind the other, and for a file alone it is its `verdict`.  As JSON one summary is printed,
with `checkJson` of each file as its results, and no other value is printed like that.  The run
fails exactly if the check of one of the files alone fails, which it does if the file is faulty.

Where a file cannot be read, the run fails and tells of nothing but the first such file. -/
theorem check_composes (options : Options) (files : Files) (paths : List String) :
    let all := checkFiles options files paths
    let alone := fun path => checkFiles options files [path]
    (∀ source : String → String, (∀ path ∈ paths, (files path).text = .ok (source path)) →
      let results := paths.map fun path => checkJson path (source path)
      (options.format = .text →
        (∀ path ∈ paths, (alone path).stdout = (verdict options path (source path)).1) ∧
        all.stdout = String.join (paths.map fun path => (alone path).stdout) ∧
        (options.verbose = false →
          (∀ path ∈ paths,
            (alone path).stderr options.verbose = (verdict options path (source path)).2) ∧
          all.stderr options.verbose
            = String.join (paths.map fun path => (alone path).stderr options.verbose))) ∧
      (options.format = .json →
        (∀ path ∈ paths, (alone path).stdout
          = (summaryOf [checkJson path (source path)]).pretty ++ "\n") ∧
        (∀ path ∈ paths, ∀ v : Json, (alone path).stdout = v.pretty ++ "\n" →
          v = summaryOf [checkJson path (source path)]) ∧
        all.stdout = (summaryOf results).pretty ++ "\n" ∧
        (∀ v : Json, all.stdout = v.pretty ++ "\n" → v = summaryOf results) ∧
        (options.verbose = false → all.stderr options.verbose = "")) ∧
      (∀ path ∈ paths, (alone path).exit = if isFaulty (source path) then 1 else 0) ∧
      (all.exit = 1 ↔ ∃ path ∈ paths, (alone path).exit = 1) ∧
      (all.exit = 0 ↔ ∀ path ∈ paths, (alone path).exit = 0)) ∧
    ((∃ path ∈ paths, ∀ source, (files path).text ≠ .ok source) →
      ∃ before path after fault, paths = before ++ path :: after ∧
        (∀ p ∈ before, ∃ source, (files p).text = .ok source) ∧
        (files path).text = .error fault ∧ all.exit = 1 ∧ all.stdout = "" ∧
        all.stderr options.verbose
          = (if options.quiet then "" else readError options.format path fault) ∧
        (options.format = .json → options.quiet = false →
          ∀ v : Json, all.stderr options.verbose = v.compact ++ "\n" →
            v = .object [("error", .string (readMessage path fault))])) := by
  intro all alone
  have hpretty : ∀ {v w : Json}, v.pretty ++ "\n" = w.pretty ++ "\n" → w = v := fun heq =>
    (Json.pretty_injective ((String.append_left_inj _).1 heq)).symm
  refine ⟨fun source h => ⟨fun hformat => ?_, fun hformat => ?_,
    fun path hpath => exit_checkFiles_singleton h options hpath, exit_checkFiles h options⟩,
    fun h => ?_⟩
  case refine_1 =>
    refine ⟨fun path hpath => (checkFiles_verdict h hformat hpath).1,
      join_checkFiles h (fun _ => rfl) hformat, fun hverbose => ?_⟩
    rw [hverbose]
    exact ⟨fun path hpath => (checkFiles_verdict h hformat hpath).2,
      join_checkFiles h (fun _ => rfl) hformat⟩
  case refine_2 =>
    have halone : ∀ path ∈ paths, (alone path).stdout
        = (summaryOf [checkJson path (source path)]).pretty ++ "\n" :=
      fun path hpath => checkFiles_summary_singleton h hformat hpath
    obtain ⟨hall, hquiet⟩ := checkFiles_summary h hformat
    refine ⟨halone, fun path hpath v hv => hpretty ((halone path hpath).symm.trans hv), hall,
      fun v hv => hpretty (hall.symm.trans hv), fun hverbose => ?_⟩
    rw [hverbose]
    exact hquiet
  case refine_3 =>
    obtain ⟨before, path, after, fault, rfl, hbefore, hfault⟩ := exists_first_unreadable h
    obtain ⟨hexit, hstdout, hstderr⟩ := checkFiles_of_unreadable options hbefore hfault
    refine ⟨before, path, after, fault, rfl, hbefore, hfault, hexit, hstdout, hstderr,
      fun hformat hquiet v hv => ?_⟩
    rw [hstderr, hquiet, hformat] at hv
    exact (Json.compact_injective ((String.append_left_inj _).1 hv)).symm

theorem check_composes_sampleWorkspace :
    let files := sampleWorkspace.entry
    let json := { plainOptions with format := .json }
    let fine := Json.object [("file", .string "m.gxl"), ("items", .nat 1), ("ok", .bool true)]
    let faulty := checkJson "gxl.toml" "fmt.indent = 2"
    let all := fun options => checkFiles options files ["m.gxl", "gxl.toml", "m.gxl"]
    (∀ path ∈ ["m.gxl", "gxl.toml", "m.gxl"],
      (files path).text = .ok (if path = "m.gxl" then sampleModule else "fmt.indent = 2")) ∧
    ((all plainOptions).stdout = "ok m.gxl\nok m.gxl\n" ∧
      (all plainOptions).stderr false = (checkFiles plainOptions files ["gxl.toml"]).stderr false) ∧
    (all plainOptions).exit = 1 ∧
    ((all json).stdout = (Json.object [("checked", .nat 3), ("failed", .nat 1),
        ("results", .array [fine, faulty, fine])]).pretty ++ "\n" ∧
      (checkFiles json files ["m.gxl"]).stdout = "\n".intercalate
        ["\x7b", "  \"checked\": 1,", "  \"failed\": 0,", "  \"results\": [", "    \x7b",
          "      \"file\": \"m.gxl\",", "      \"items\": 1,", "      \"ok\": true", "    \x7d",
          "  ]", "\x7d", ""] ∧
      (all json).stdout ≠ (Json.object [("checked", .nat 0)]).pretty ++ "\n") ∧
    (files "n.gxl").text = .error .missing ∧
    (checkFiles plainOptions files ["m.gxl", "n.gxl", "gxl.toml", "o.gxl"]).exit = 1 ∧
    (checkFiles plainOptions files ["m.gxl", "n.gxl", "gxl.toml", "o.gxl"]).stdout = "" := by
  intro files json fine faulty all
  have hm : (files "m.gxl").text = .ok sampleModule := Entry.text_file_toUTF8 sampleModule
  have htoml : (files "gxl.toml").text = .ok "fmt.indent = 2" :=
    Entry.text_file_toUTF8 "fmt.indent = 2"
  have hreadable : ∀ path ∈ ["m.gxl", "gxl.toml", "m.gxl"],
      (files path).text = .ok (if path = "m.gxl" then sampleModule else "fmt.indent = 2") := by
    simp only [List.forall_mem_cons]
    exact ⟨hm, htoml, hm, by simp⟩
  obtain ⟨htext, -, -, hexit, -⟩ := (check_composes plainOptions files _).1 _ hreadable
  obtain ⟨-, hstdout, hstderr⟩ := htext rfl
  obtain ⟨-, hjson, -⟩ := (check_composes json files _).1 _ hreadable
  obtain ⟨halone, -, hall, hunique, -⟩ := hjson rfl
  have hmissing : (files "n.gxl").text = .error .missing := rfl
  obtain ⟨-, -, -, -, -, -, -, hone, hnothing, -⟩ :=
    (check_composes plainOptions files ["m.gxl", "n.gxl", "gxl.toml", "o.gxl"]).2
      ⟨"n.gxl", by simp, by simp [hmissing]⟩
  refine ⟨hreadable,
    ⟨hstdout.trans (by decide +kernel), ((hstderr rfl).2).trans (by decide +kernel)⟩,
    hexit.2 ⟨"gxl.toml", by simp, by decide +kernel⟩, ⟨hall.trans ?_, ?_, ?_⟩, hmissing, hone,
    hnothing⟩
  · decide +kernel
  · exact (halone "m.gxl" (by simp)).trans (by decide +kernel)
  · intro hother
    exact absurd (hunique _ hother) (by decide +kernel)

end Gxl.Tool
