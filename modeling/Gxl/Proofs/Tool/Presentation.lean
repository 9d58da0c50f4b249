import Gxl.Proofs.Tool.Apart
import Gxl.Proofs.Tool.Sessions

/-!
# What options do not change

Options decide how a run tells things, and nothing else (`presentation_changes_nothing`).  Runs with
the same aim, a task and the path of its settings, end alike and leave the same files.  The settings
are looked at by the formatter only, so to any other task neither their path nor their file makes a
difference.
-/

namespace Gxl.Tool

/-- Two results that `toOption` makes equal are the same but for the reason of a failure. -/
theorem eq_ok_or_error {ε α : Type} {a b : Except ε α} (h : a.toOption = b.toOption) :
    (∃ x, a = .ok x ∧ b = .ok x) ∨ ∃ e e', a = .error e ∧ b = .error e' := by
  cases a with
  | error e =>
    cases b with
    | error e' => exact .inr ⟨e, e', rfl, rfl⟩
    | ok y => simp [Except.toOption] at h
  | ok x =>
    cases b with
    | error e' => simp [Except.toOption] at h
    | ok y =>
      obtain rfl : x = y := by simpa [Except.toOption] using h
      exact .inl ⟨x, rfl, rfl⟩

/-! ## The manner of a run -/

/-- What a run is asked to do, whatever the manner in which it tells of it: the path of its settings
and its `Task`. -/
def Invocation.aim : Invocation → Option (Option String × Task)
  | .version => none
  | .task options job => some (options.config, job)

/-- The `options` tell of things in the same manner: they differ at most in the settings and in
whether the log is shown. -/
structure Options.SameManner (options options' : Options) : Prop where
  format : options.format = options'.format
  quiet : options.quiet = options'.quiet

section Manner

variable {options options' : Options}

/-- The log is always kept; the option `verbose` does not matter to the run. -/
theorem Options.SameManner.run_eq (h : options.SameManner options')
    (hconfig : options.config = options'.config) (files : Files) (task : Task) :
    task.run options files = task.run options' files := by
  obtain ⟨format, quiet, verbose, config⟩ := options
  obtain ⟨format', quiet', verbose', config'⟩ := options'
  obtain ⟨rfl, rfl⟩ := h
  obtain rfl : config = config' := hconfig
  cases task <;> rfl

/-- Nor does the path of the settings matter to a task other than `format`. -/
theorem Options.SameManner.run_eq_of_not_format (h : options.SameManner options') (files : Files)
    {task : Task} (htask : ∀ file mode, task ≠ .format file mode) :
    task.run options files = task.run options' files := by
  obtain ⟨format, quiet, verbose, config⟩ := options
  obtain ⟨format', quiet', verbose', config'⟩ := options'
  obtain ⟨rfl, rfl⟩ := h
  cases task with
  | format file mode => exact absurd rfl (htask file mode)
  | _ => rfl

/-- The same settings are found by `loadSettings` in any manner. -/
theorem loadSettings_toOption (hconfig : options.config = options'.config) (files : Files) :
    (loadSettings options files).toOption = (loadSettings options' files).toOption := by
  have hfrom : ∀ path, (loadSettingsFrom options files path).toOption
      = (loadSettingsFrom options' files path).toOption := by
    intro path
    unfold loadSettingsFrom
    split
    · rfl
    · split <;> rfl
  unfold loadSettings
  rw [hconfig]
  split
  · exact hfrom _
  · split
    · exact hfrom _
    · rfl

/-- A source ends `formatSource` alike in any manner. -/
theorem formatSource_alike (options options' : Options) (settings : Settings) (mode : Mode)
    (file source : String) :
    (formatSource options settings mode file source).exit
        = (formatSource options' settings mode file source).exit ∧
      (formatSource options settings mode file source).written
        = (formatSource options' settings mode file source).written := by
  unfold formatSource
  split
  · exact ⟨rfl, rfl⟩
  · cases mode <;> exact ⟨rfl, rfl⟩

/-- A task ends alike in any manner, and has the same text `written` in place of the same file. -/
theorem run_alike (hconfig : options.config = options'.config) (files : Files) (task : Task) :
    (task.run options files).exit = (task.run options' files).exit ∧
      (task.run options files).written = (task.run options' files).written := by
  cases task with
  | parse file =>
    simp only [Task.run, withSource, parseSource]
    split
    · split <;> exact ⟨rfl, rfl⟩
    · exact ⟨rfl, rfl⟩
  | tokens file =>
    simp only [Task.run, withSource, tokensSource]
    split
    · split
      · cases options.format <;> cases options'.format <;> exact ⟨rfl, rfl⟩
      · exact ⟨rfl, rfl⟩
    · exact ⟨rfl, rfl⟩
  | check paths =>
    simp only [Task.run]
    split <;> exact ⟨rfl, rfl⟩
  | format file mode =>
    simp only [Task.run]
    obtain ⟨⟨settings, log⟩, h, h'⟩ | ⟨report, report', h, h'⟩ :=
      eq_ok_or_error (loadSettings_toOption hconfig files)
    · simp only [h, h', withSource, Outcome.after]
      split
      · exact formatSource_alike options options' settings mode file _
      · exact ⟨rfl, rfl⟩
    · simp only [h, h']
      exact ⟨rfl, rfl⟩

/-- Runs with the same `aim` end alike and leave the same files. -/
theorem run_eq_of_aim (w : Workspace) {i i' : Invocation} (h : i.aim = i'.aim) :
    (w.run i).exit = (w.run i').exit ∧ (w.run i).workspace = (w.run i').workspace := by
  cases i with
  | version =>
    cases i' with
    | version => exact ⟨rfl, rfl⟩
    | task options' task' => simp [Invocation.aim] at h
  | task options task =>
    cases i' with
    | version => simp [Invocation.aim] at h
    | task options' task' =>
      obtain ⟨hconfig, rfl⟩ : options.config = options'.config ∧ task = task' := by
        simpa [Invocation.aim] using h
      obtain ⟨hexit, hwritten⟩ := run_alike hconfig w.entry task
      refine ⟨hexit, ?_⟩
      simp only [Workspace.run, Invocation.run, hwritten]

end Manner

/-! ## The texts that a run reads -/

/-- The paths of the files that a task is about. -/
def Task.inputs : Task → List String
  | .parse file => [file]
  | .check files => files
  | .format file _ => [file]
  | .tokens file => [file]

/-- The `paths` lead to the same texts in both, or to none in both. -/
def SameTexts (paths : List String) (files files' : Files) : Prop :=
  ∀ path ∈ paths, (files path).text.toOption = (files' path).text.toOption

section Texts

variable {files files' : Files}

/-- What `readAll` reads, if it succeeds, is the same where the files hold the same texts. -/
theorem readAll_toOption {paths : List String} (h : SameTexts paths files files') :
    (readAll files paths).toOption = (readAll files' paths).toOption := by
  induction paths with
  | nil => rfl
  | cons path paths ih =>
    obtain ⟨hpath, hrest⟩ := List.forall_mem_cons.1 h
    obtain ⟨source, hsource, hsource'⟩ | ⟨e, e', he, he'⟩ := eq_ok_or_error hpath
    · obtain ⟨sources, hall, hall'⟩ | ⟨e, e', he, he'⟩ := eq_ok_or_error (ih hrest)
      · simp [readAll, hsource, hsource', hall, hall', Except.map, Except.toOption]
      · simp [readAll, hsource, hsource', he, he', Except.map, Except.toOption]
    · simp [readAll, he, he', Except.toOption]

/-- Runs that end with `reportUnreadable` end alike, with nothing on the standard output. -/
theorem unreadable_alike (options : Options) (file file' : String) (fault fault' : ReadFault) :
    (Outcome.failure (reportUnreadable options file fault)).exit
        = (Outcome.failure (reportUnreadable options file' fault')).exit ∧
      (Outcome.failure (reportUnreadable options file fault)).stdout
        = (Outcome.failure (reportUnreadable options file' fault')).stdout :=
  ⟨rfl, (silent_reportUnreadable options file fault).join_eq.trans
    (silent_reportUnreadable options file' fault').join_eq.symm⟩

/-- A run `withSource` ends alike and shows the same where its file holds the same text. -/
theorem withSource_alike {file : String}
    (h : (files file).text.toOption = (files' file).text.toOption) (options : Options)
    (run : String → Outcome) :
    (withSource options files file run).exit = (withSource options files' file run).exit ∧
      (withSource options files file run).stdout = (withSource options files' file run).stdout := by
  unfold withSource
  obtain ⟨source, hsource, hsource'⟩ | ⟨e, e', he, he'⟩ := eq_ok_or_error h
  · simp only [hsource, hsource', and_self]
  · simp only [he, he']
    exact unreadable_alike options file file e e'

/-- A task other than `format` ends alike and shows the same where its `inputs` hold the same
texts. -/
theorem run_alike_of_sameTexts (options : Options) {task : Task}
    (htask : ∀ file mode, task ≠ .format file mode) (h : SameTexts task.inputs files files') :
    (task.run options files).exit = (task.run options files').exit ∧
      (task.run options files).stdout = (task.run options files').stdout := by
  cases task with
  | format file mode => exact absurd rfl (htask file mode)
  | parse file => exact withSource_alike (h file (by simp [Task.inputs])) options _
  | tokens file => exact withSource_alike (h file (by simp [Task.inputs])) options _
  | check paths =>
    have h : SameTexts paths files files' := h
    simp only [Task.run]
    obtain ⟨sources, hall, hall'⟩ | ⟨⟨path, fault⟩, ⟨path', fault'⟩, he, he'⟩ :=
      eq_ok_or_error (readAll_toOption h)
    · simp only [hall, hall', and_self]
    · simp only [he, he']
      exact unreadable_alike options path path' fault fault'

end Texts

/-! ## One file in four tasks -/

section OneFile

variable {files : Files} {file source : String} (options : Options)
  (hsource : (files file).text = .ok source)
include hsource

/-- The task `parse` succeeds exactly if `Gxl.parse` accepts the source. -/
theorem exit_parse :
    ((Task.parse file).run options files).exit = 0 ↔ ∃ t, parse source = .ok t := by
  simp only [Task.run, withSource, hsource, parseSource]
  cases parse source <;> simp [Outcome.success, Outcome.failure]

/-- The task `check` of one file succeeds exactly if `Gxl.parse` accepts the source. -/
theorem exit_check :
    ((Task.check [file]).run options files).exit = 0 ↔ ∃ t, parse source = .ok t := by
  simp only [Task.run, readAll, hsource, Except.map, checkSources]
  cases hparse : parse source <;> simp [isFaulty, hparse]

/-- The task `tokens` succeeds exactly if `tokenize` does. -/
theorem exit_tokens :
    ((Task.tokens file).run options files).exit = 0 ↔ ∃ ts, tokenize source = .ok ts := by
  simp only [Task.run, withSource, hsource, tokensSource]
  cases tokenize source with
  | ok tokens => cases options.format <;> simp [Outcome.success]
  | error e => simp [Outcome.failure]

/-- The task `format` succeeds in the mode `print` exactly if `Gxl.parse` accepts the source, once
there are settings. -/
theorem exit_print {settings : Settings} {log : List Emission}
    (hsettings : loadSettings options files = .ok (settings, log)) :
    ((Task.format file .print).run options files).exit = 0 ↔ ∃ t, parse source = .ok t := by
  simp only [Task.run, withSource, hsource, hsettings, formatSource, Outcome.after]
  cases parse source <;> simp [Outcome.success, Outcome.failure]

end OneFile

/-- Options change how a run tells things, and nothing else.  Runs with the same `aim` end alike and
leave the same files, and showing the log does not change what goes to the standard output.  The
settings concern `format` only: any other task writes no file, and ends alike and shows the same
whatever path is given for them, and whatever the settings file holds or whether it is there, unless
it is one of the `inputs` of the task.  A source that can be read is accepted by all tasks or by
none: showing its tree, checking it and formatting it succeed together, and then its tokens can be
listed. -/
theorem presentation_changes_nothing (w : Workspace) :
    (∀ i i' : Invocation, i.aim = i'.aim →
      (w.run i).exit = (w.run i').exit ∧ (w.run i).workspace = (w.run i').workspace) ∧
    (∀ options options' task, options.SameManner options' → options.config = options'.config →
      (w.run (.task options task)).stdout = (w.run (.task options' task)).stdout) ∧
    (∀ options options' task, (∀ file mode, task ≠ .format file mode) →
      options.SameManner options' →
      (w.run (.task options task)).workspace = w ∧
      (w.run (.task options task)).exit = (w.run (.task options' task)).exit ∧
      (w.run (.task options task)).stdout = (w.run (.task options' task)).stdout ∧
      ∀ w', w.Consistent → w'.Consistent → Workspace.SameBut settingsPath w w' →
        (∀ path ∈ task.inputs,
          ¬ w.LeadsTo path settingsPath ∧ ¬ w'.LeadsTo path settingsPath) →
        (w.run (.task options task)).exit = (w'.run (.task options' task)).exit ∧
        (w.run (.task options task)).stdout = (w'.run (.task options' task)).stdout) ∧
    ∀ options file source, (w.entry file).text = .ok source →
      ((w.run (.task options (.parse file))).exit = 0 ↔
        (w.run (.task options (.check [file]))).exit = 0) ∧
      (∀ settings log, loadSettings options w.entry = .ok (settings, log) →
        ((w.run (.task options (.check [file]))).exit = 0 ↔
          (w.run (.task options (.format file .print))).exit = 0)) ∧
      ((w.run (.task options (.parse file))).exit = 0 →
        (w.run (.task options (.tokens file))).exit = 0) := by
  refine ⟨fun i i' => run_eq_of_aim w, ?_, ?_, ?_⟩
  · intro options options' task h hconfig
    exact congrArg Outcome.stdout (h.run_eq hconfig w.entry task)
  · intro options options' task htask h
    have hrun := h.run_eq_of_not_format w.entry htask
    refine ⟨?_, congrArg Outcome.exit hrun, congrArg Outcome.stdout hrun, ?_⟩
    · simp only [Workspace.run, Invocation.run, written_of_not_format options w.entry htask]
    · intro w' hw hw' hsame hinputs
      have htexts : SameTexts task.inputs w.entry w'.entry := fun path hpath =>
        hsame.text_eq hw hw' (hinputs path hpath).1 (hinputs path hpath).2
      have halike := run_alike_of_sameTexts options htask htexts
      rwa [h.run_eq_of_not_format w'.entry htask] at halike
  · intro options file source hsource
    have hparse := exit_parse options hsource
    have hcheck := exit_check options hsource
    refine ⟨hparse.trans hcheck.symm, ?_, ?_⟩
    · intro settings log hsettings
      exact hcheck.trans (exit_print options hsource hsettings).symm
    · intro hexit
      obtain ⟨t, ht⟩ := hparse.1 hexit
      obtain ⟨ts, -, hts, -⟩ := exists_derivation ht
      exact (exit_tokens options hsource).2 ⟨ts, hts⟩

/-- The module of `sampleWorkspace`, without settings beside it. -/
def bareWorkspace : Workspace :=
  ⟨[⟨"m.gxl", sampleModule.toUTF8⟩]⟩

/-- Options that ask for `json`, in a quiet run that shows the log. -/
def otherOptions : Options :=
  ⟨.json, true, true, none⟩

theorem presentation_changes_nothing_sampleWorkspace :
    let w := sampleWorkspace
    ((w.format plainOptions "m.gxl" .write).exit = (w.format otherOptions "m.gxl" .write).exit ∧
      (w.format plainOptions "m.gxl" .write).workspace
        = (w.format otherOptions "m.gxl" .write).workspace) ∧
    (w.format { plainOptions with verbose := true } "m.gxl" .print).stdout
      = (w.format plainOptions "m.gxl" .print).stdout ∧
    (w.Consistent ∧ bareWorkspace.Consistent ∧
      Workspace.SameBut settingsPath w bareWorkspace ∧
      (w.run (.task { plainOptions with config := some "m.gxl" } (.parse "m.gxl"))).stdout
        = (bareWorkspace.run (.task plainOptions (.parse "m.gxl"))).stdout) ∧
    (∃ log, loadSettings plainOptions w.entry = .ok (⟨2⟩, log)) ∧
    (w.run (.task plainOptions (.check ["m.gxl"]))).exit = 0 ∧
    (w.format plainOptions "m.gxl" .print).exit = 0 ∧
    (w.run (.task plainOptions (.tokens "m.gxl"))).exit = 0 := by
  intro w
  obtain ⟨hmanner, hlog, hsettings, hfile⟩ := presentation_changes_nothing w
  obtain ⟨log, hload⟩ := exists_loadSettings_sampleWorkspace
  have hconsistent : w.Consistent := by decide
  have hbare : bareWorkspace.Consistent := by decide
  have hsame : Workspace.SameBut settingsPath w bareWorkspace := rfl
  have hinput : ¬ w.LeadsTo "m.gxl" settingsPath ∧ ¬ bareWorkspace.LeadsTo "m.gxl" settingsPath :=
    ⟨Workspace.not_leadsTo (f := ⟨"m.gxl", sampleModule.toUTF8⟩) rfl (by decide),
      Workspace.not_leadsTo (f := ⟨"m.gxl", sampleModule.toUTF8⟩) rfl (by decide)⟩
  obtain ⟨-, -, -, hother⟩ := hsettings { plainOptions with config := some "m.gxl" } plainOptions
    (.parse "m.gxl") (by simp) ⟨rfl, rfl⟩
  have hparse : (w.run (.task plainOptions (.parse "m.gxl"))).exit = 0 := by decide +kernel
  obtain ⟨hcheck, hprint, htokens⟩ :=
    hfile plainOptions "m.gxl" sampleModule (Entry.text_file_toUTF8 sampleModule)
  refine ⟨hmanner _ _ rfl, hlog _ _ _ ⟨rfl, rfl⟩ rfl, ⟨hconsistent, hbare, hsame, ?_⟩,
    ⟨log, hload⟩, hcheck.1 hparse, (hprint _ log hload).1 (hcheck.1 hparse), htokens hparse⟩
  exact (hother bareWorkspace hconsistent hbare hsame (by simpa [Task.inputs] using hinput)).2

end Gxl.Tool
