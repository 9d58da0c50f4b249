import Gxl.Proofs.Tool.Formatting

/-!
# Runs one after the other

No run damages a source file (`run_keeps_sources`).  A run changes a workspace in one way only: it
puts the layout of an accepted source in place of that source (`Workspace.run_cases`).  So what a
path leads to stays as it is unless it is an accepted source, and then its tree stays the same up to
spans, through any sequence of runs.
-/

namespace Gxl.Tool

/-! ## One run -/

/-- Only the task `format` has a text `written` in place of a file. -/
theorem written_of_not_format (options : Options) (files : Files) {task : Task}
    (h : ∀ file mode, task ≠ .format file mode) : (task.run options files).written = none := by
  cases task with
  | format file mode => exact absurd rfl (h file mode)
  | parse file =>
    simp only [Task.run, withSource, parseSource]
    split
    · split <;> rfl
    · rfl
  | tokens file =>
    simp only [Task.run, withSource, tokensSource]
    split
    · split
      · split <;> rfl
      · rfl
    · rfl
  | check paths =>
    simp only [Task.run]
    split <;> rfl

namespace Workspace

/-- What a run can do to a workspace: nothing, or put the layout of an accepted source in its place,
which only the mode `write` does. -/
theorem run_cases (w : Workspace) (invocation : Invocation) :
    (w.run invocation).workspace = w ∨
    ∃ options file settings log source t, invocation = .task options (.format file .write) ∧
      loadSettings options w.entry = .ok (settings, log) ∧
      (w.entry file).text = .ok source ∧ parse source = .ok t ∧ (w.run invocation).exit = 0 ∧
      (w.run invocation).workspace = w.write file (t.print settings.indent) := by
  cases invocation with
  | version => exact .inl rfl
  | task options task =>
    by_cases hformat : ∃ file mode, task = .format file mode
    · obtain ⟨file, mode, rfl⟩ := hformat
      cases hsettings : loadSettings options w.entry with
      | error report =>
        left
        simp only [run, Invocation.run, Task.run, hsettings, Outcome.failure]
      | ok found =>
        obtain ⟨settings, log⟩ := found
        by_cases haccepted : ∃ source t, (w.entry file).text = .ok source ∧ parse source = .ok t
        · obtain ⟨source, t, hsource, ht⟩ := haccepted
          cases mode with
          | print => exact .inl (format_print hsettings hsource ht).2.2
          | check => exact .inl (format_check hsettings hsource ht).2
          | write =>
            obtain ⟨hexit, hworkspace⟩ := format_write hsettings hsource ht
            by_cases hsame : t.print settings.indent = source
            · exact .inl (hworkspace.trans (if_pos hsame))
            · exact .inr ⟨options, file, settings, log, source, t, rfl, hsettings, hsource, ht,
                hexit, hworkspace.trans (if_neg hsame)⟩
        · left
          refine (format_of_rejected hsettings ?_ mode).2
          intro source t hsource ht
          exact haccepted ⟨source, t, hsource, ht⟩
    · left
      have hwritten : (task.run options w.entry).written = none :=
        written_of_not_format options w.entry fun file mode h => hformat ⟨file, mode, h⟩
      simp only [run, Invocation.run, hwritten]

end Workspace

/-! ## What a path leads to -/

/-- The file holds an accepted source, whose tree is `tree` up to `erase`. -/
def Entry.Holds (e : Entry) (tree : Document) : Prop :=
  ∃ source t, e.text = .ok source ∧ parse source = .ok t ∧ erase t = tree

namespace Workspace

/-- Paths that lead to the same `place` have the same `entry`. -/
theorem entry_congr {w : Workspace} {p q : String} (h : w.place p = w.place q) :
    w.entry p = w.entry q := by
  rw [entry, entry, h]

/-- A run keeps the tree that a file `Holds`. -/
theorem holds_run {w : Workspace} {path : String} {tree : Document} (invocation : Invocation)
    (h : (w.entry path).Holds tree) : ((w.run invocation).workspace.entry path).Holds tree := by
  obtain hsame | ⟨-, file, settings, -, source, t, -, -, hsource, ht, -, hwrite⟩ :=
    w.run_cases invocation
  · rwa [hsame]
  · rw [hwrite]
    by_cases hplace : w.place path = w.place file
    · -- the source that is written over is the one that the path leads to
      obtain ⟨source', t', hsource', ht', rfl⟩ := h
      rw [entry_congr hplace, hsource] at hsource'
      obtain rfl := Except.ok.inj hsource'
      obtain rfl := Except.ok.inj (ht.symm.trans ht')
      obtain ⟨t', ht', herase⟩ := exists_parse_layout ht settings.indent
      rw [entry_write_of_eq _ (Entry.eq_file_of_text hsource) hplace]
      exact ⟨_, t', Entry.text_file_toUTF8 _, ht', herase⟩
    · rwa [entry_write_of_ne _ hplace]

/-- A run keeps the `entry` of what is not an accepted source. -/
theorem entry_run {w : Workspace} {path : String} (invocation : Invocation)
    (h : ∀ tree, ¬ (w.entry path).Holds tree) :
    (w.run invocation).workspace.entry path = w.entry path := by
  obtain hsame | ⟨-, file, settings, -, source, t, -, -, hsource, ht, -, hwrite⟩ :=
    w.run_cases invocation
  · rw [hsame]
  · rw [hwrite]
    refine entry_write_of_ne _ fun hplace => ?_
    exact h (erase t) ⟨source, t, by rw [entry_congr hplace, hsource], ht, rfl⟩

/-! ## Sequences of runs -/

/-- The workspace that the `invocations` leave, which are done one after the other from `w`. -/
def runAll (w : Workspace) (invocations : List Invocation) : Workspace :=
  invocations.foldl (fun w invocation => (w.run invocation).workspace) w

/-- A sequence of runs keeps the tree that a file `Holds`, by induction on the runs. -/
theorem holds_runAll {w : Workspace} {path : String} {tree : Document}
    (invocations : List Invocation) (h : (w.entry path).Holds tree) :
    ((w.runAll invocations).entry path).Holds tree := by
  induction invocations generalizing w with
  | nil => exact h
  | cons invocation invocations ih => exact ih (holds_run invocation h)

/-- A sequence of runs keeps the `entry` of what is not an accepted source. -/
theorem entry_runAll {w : Workspace} {path : String} (invocations : List Invocation)
    (h : ∀ tree, ¬ (w.entry path).Holds tree) :
    (w.runAll invocations).entry path = w.entry path := by
  induction invocations generalizing w with
  | nil => rfl
  | cons invocation invocations ih =>
    have hsame := entry_run invocation h
    exact (ih (by rwa [hsame])).trans hsame

end Workspace

/-- No run damages a source file.  A run that changes anything is a `format` with the mode `write`:
it puts a text in place of one file, finds its settings and succeeds, and what all other paths lead
to stays as it is.  Through `runAll` of any sequence of runs, what is not an accepted source stays
as it is, and an accepted source stays one, with the same tree. -/
theorem run_keeps_sources (w : Workspace) :
    (∀ invocation, (w.run invocation).workspace ≠ w →
      ∃ options file settings log, invocation = .task options (.format file .write) ∧
        loadSettings options w.entry = .ok (settings, log) ∧ (w.run invocation).exit = 0 ∧
        ∀ path, w.place path ≠ w.place file →
          (w.run invocation).workspace.entry path = w.entry path) ∧
    ∀ invocations path,
      ((∀ source t, (w.entry path).text = .ok source → parse source ≠ .ok t) →
        (w.runAll invocations).entry path = w.entry path) ∧
      ∀ source t, (w.entry path).text = .ok source → parse source = .ok t →
        ∃ source' t', ((w.runAll invocations).entry path).text = .ok source' ∧
          parse source' = .ok t' ∧ Document.sameTree t t' = true := by
  refine ⟨?_, fun invocations path => ⟨?_, ?_⟩⟩
  · intro invocation hchange
    obtain hsame | ⟨options, file, settings, log, -, t, hinvocation, hsettings, -, -, hexit,
      hwrite⟩ := w.run_cases invocation
    · exact absurd hsame hchange
    · refine ⟨options, file, settings, log, hinvocation, hsettings, hexit, fun path hplace => ?_⟩
      rw [hwrite, Workspace.entry_write_of_ne _ hplace]
  · intro hrejected
    refine Workspace.entry_runAll invocations ?_
    rintro tree ⟨source, t, hsource, ht, -⟩
    exact hrejected source t hsource ht
  · intro source t hsource ht
    obtain ⟨source', t', hsource', ht', herase⟩ :=
      Workspace.holds_runAll invocations ⟨source, t, hsource, ht, rfl⟩
    exact ⟨source', t', hsource', ht', Document.sameTree_of_erase_eq herase.symm⟩

theorem run_keeps_sources_sampleWorkspace :
    (sampleWorkspace.format plainOptions "m.gxl" .write).exit = 0 ∧
    ∃ t, parse sampleModule = .ok t ∧
      ∃ source' t', ((sampleWorkspace.runAll
          [.task plainOptions (.format "m.gxl" .write), .task plainOptions (.parse "gxl.toml"),
            .task plainOptions (.format "gxl.toml" .write)]).entry "m.gxl").text = .ok source' ∧
        parse source' = .ok t' ∧ Document.sameTree t t' = true := by
  obtain ⟨t, ht⟩ := exists_parse_sampleModule
  refine ⟨by decide +kernel, t, ht, ?_⟩
  exact ((run_keeps_sources sampleWorkspace).2 _ "m.gxl").2 sampleModule t
    (Entry.text_file_toUTF8 sampleModule) ht

end Gxl.Tool
