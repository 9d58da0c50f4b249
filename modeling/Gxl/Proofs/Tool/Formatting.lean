import Gxl.Proofs.Document.RoundTrip
import Gxl.Proofs.Tool.Places
import Gxl.Tool.Run

/-!
# Formatting a file

The three ways to format a file agree (`format_modes_agree`): what is shown is what is put in place
of the file, and a check succeeds exactly if that is there already.  A file that was formatted stays
as it is when it is formatted again.

The second part rests on the layout alone: it reads back to a tree that differs only in its spans,
which the layout of that tree does not show (`exists_parse_layout`, `Document.print_of_erase_eq`).
-/

namespace Gxl

open Gxl.Derivation

/-! ## Reading back a layout -/

/-- Trees that `erase` makes equal, which differ only in their spans, are written the same by
`print`. -/
theorem Document.print_of_erase_eq {d e : Document} (h : erase d = erase e) (indent : Nat) :
    d.print indent = e.print indent := by
  have hprint : (erase d).print indent = (erase e).print indent := by rw [h]
  rwa [erase, erase, print_mapSpans, print_mapSpans] at hprint

/-- The layout of a tree that derives from the grammar is accepted by `parse`, and is a layout of
that tree. -/
theorem Derivation.File.exists_parse_tree_print (d : File) (indent : Nat) :
    ∃ t, parse (d.tree.print indent) = .ok t ∧ erase t = d.tree := by
  obtain ⟨ts, hts, hphrase⟩ := tokenize_of_spells (d.spells_print indent)
  obtain ⟨t, ht, htree, -⟩ := parse_of_derivation hts hphrase.symm
  exact ⟨t, ht, htree.trans d.tree_full⟩

/-- The layout of an accepted source is accepted by `parse`, and gives the same tree up to
`erase`. -/
theorem exists_parse_layout {source : String} {t : Document} (h : parse source = .ok t)
    (indent : Nat) : ∃ t', parse (t.print indent) = .ok t' ∧ erase t' = erase t := by
  obtain ⟨-, d, -, -, htree⟩ := exists_derivation h
  obtain ⟨t', ht', htree'⟩ := d.exists_parse_tree_print indent
  have hprint : t.print indent = d.tree.print indent := by
    rw [← htree, erase, Document.print_mapSpans]
  rw [hprint]
  exact ⟨t', ht', htree'.trans htree.symm⟩

namespace Tool

/-! ## What is told before the result -/

/-- Emissions that show nothing on a `channel` make up the empty text there. -/
theorem join_eq_empty {channel : Emission → String} {emissions : List Emission}
    (h : ∀ e ∈ emissions, channel e = "") : String.join (emissions.map channel) = "" := by
  induction emissions with
  | nil => rfl
  | cons e emissions ih =>
    rw [List.map_cons, String.join_cons, h e (by simp), ih fun e he => h e (by simp [he])]
    rfl

/-- None of the emissions goes to the standard output. -/
def Silent (emissions : List Emission) : Prop :=
  ∀ e ∈ emissions, e.stdout = ""

/-- What is `Silent` makes up the empty text on the standard output. -/
theorem Silent.join_eq {emissions : List Emission} (h : Silent emissions) :
    String.join (emissions.map Emission.stdout) = "" :=
  join_eq_empty h

theorem silent_parseLog (source : String) : Silent (parseLog source) := by
  intro e he
  obtain ⟨event, -, rfl⟩ := List.mem_map.1 he
  rfl

theorem silent_reportUnreadable (options : Options) (file : String) (fault : ReadFault) :
    Silent (reportUnreadable options file fault) := by
  unfold reportUnreadable reportMessage
  split
  · simp [Silent]
  · split <;> simp [Silent, Emission.stdout]

theorem silent_loadSettingsFrom {options : Options} {files : Files} {path : String}
    {settings : Settings} {log : List Emission}
    (h : loadSettingsFrom options files path = .ok (settings, log)) : Silent log := by
  unfold loadSettingsFrom at h
  split at h
  · simp at h
  · split at h
    · simp at h
    · obtain ⟨-, rfl⟩ : _ ∧ _ = log := by simpa using h
      simp [Silent, debug, Emission.stdout]

/-- Only the log tells of settings that `loadSettings` finds. -/
theorem silent_loadSettings {options : Options} {files : Files} {settings : Settings}
    {log : List Emission} (h : loadSettings options files = .ok (settings, log)) :
    Silent log := by
  unfold loadSettings at h
  split at h
  · exact silent_loadSettingsFrom h
  · split at h
    · exact silent_loadSettingsFrom h
    · obtain ⟨-, rfl⟩ : _ ∧ _ = log := by simpa using h
      simp [Silent, debug, Emission.stdout]

/-! ## The settings that a run finds -/

/-- What `loadSettings` finds depends on the entry of its own path only. -/
theorem loadSettings_congr {files files' : Files} {options : Options}
    (h : files' (options.config.getD settingsPath) = files (options.config.getD settingsPath)) :
    loadSettings options files' = loadSettings options files := by
  unfold loadSettings loadSettingsFrom
  cases hconfig : options.config with
  | none =>
    rw [hconfig, Option.getD_none] at h
    simp only [h]
  | some path =>
    rw [hconfig, Option.getD_some] at h
    simp only [h]

/-! ## One file in three ways -/

/-- A run that formats a file of the workspace `w`. -/
def Workspace.format (w : Workspace) (options : Options) (file : String) (mode : Mode) : Session :=
  w.run (.task options (.format file mode))

section Modes

variable {w : Workspace} {options : Options} {settings : Settings} {log : List Emission}
  {file source : String}

/-- A file that holds no accepted source is left as it is by every `format`, and the run fails. -/
theorem format_of_rejected (hsettings : loadSettings options w.entry = .ok (settings, log))
    (h : ∀ source t, (w.entry file).text = .ok source → parse source ≠ .ok t) (mode : Mode) :
    (w.format options file mode).exit = 1 ∧ (w.format options file mode).workspace = w := by
  simp only [Workspace.format, Workspace.run, Invocation.run, Task.run, hsettings, withSource]
  cases htext : (w.entry file).text with
  | error fault => exact ⟨rfl, rfl⟩
  | ok source =>
    simp only [formatSource]
    cases hparse : parse source with
    | error e => exact ⟨rfl, rfl⟩
    | ok t => exact absurd hparse (h source t htext)

variable {t : Document} (hsettings : loadSettings options w.entry = .ok (settings, log))
  (hsource : (w.entry file).text = .ok source) (ht : parse source = .ok t)
include hsettings hsource ht

/-- The mode `print` shows the layout of the tree and leaves the workspace as it is. -/
theorem format_print : (w.format options file .print).exit = 0 ∧
    (w.format options file .print).stdout = t.print settings.indent ∧
    (w.format options file .print).workspace = w := by
  simp only [Workspace.format, Workspace.run, Invocation.run, Task.run, hsettings, withSource,
    hsource, formatSource, ht, Outcome.success, Outcome.after, Outcome.stdout]
  refine ⟨trivial, ?_, trivial⟩
  simp only [List.map_append, String.join_append, (silent_loadSettings hsettings).join_eq,
    (silent_parseLog source).join_eq]
  simp [debug, Emission.stdout, String.join_cons]

/-- The mode `write` puts the layout in place of the source, if it is not there already. -/
theorem format_write : (w.format options file .write).exit = 0 ∧
    (w.format options file .write).workspace
      = if t.print settings.indent = source then w
        else w.write file (t.print settings.indent) := by
  simp only [Workspace.format, Workspace.run, Invocation.run, Task.run, hsettings, withSource,
    hsource, formatSource, ht, Outcome.after]
  refine ⟨trivial, ?_⟩
  by_cases hsame : t.print settings.indent = source <;> simp [hsame]

/-- The mode `check` succeeds exactly if the source is the layout of its tree, and writes
nothing. -/
theorem format_check :
    ((w.format options file .check).exit = 0 ↔ source = t.print settings.indent) ∧
    (w.format options file .check).workspace = w := by
  simp only [Workspace.format, Workspace.run, Invocation.run, Task.run, hsettings, withSource,
    hsource, formatSource, ht, Outcome.after]
  refine ⟨?_, trivial⟩
  by_cases hsame : t.print settings.indent = source
  · simp [hsame]
  · simp [hsame, Ne.symm hsame]

/-- The layout is in the file after the mode `write`, also if it was there before. -/
theorem entry_format_write :
    (w.format options file .write).workspace.entry file
      = .file (t.print settings.indent).toUTF8 := by
  have hfile := Entry.eq_file_of_text hsource
  rw [(format_write hsettings hsource ht).2]
  split
  · rename_i hsame
    rw [hsame, hfile]
  · exact Workspace.entry_write_of_eq _ hfile rfl

/-- The mode `write` leaves the `entry` of every path that leads elsewhere. -/
theorem entry_format_write_of_ne {path : String} (h : w.place path ≠ w.place file) :
    (w.format options file .write).workspace.entry path = w.entry path := by
  rw [(format_write hsettings hsource ht).2]
  split
  · rfl
  · exact Workspace.entry_write_of_ne _ h

end Modes

/-- A module that is not in canonical form, beside settings that ask `fmt` for two spaces. -/
def sampleWorkspace : Workspace :=
  ⟨[⟨"gxl.toml", "fmt.indent = 2".toUTF8⟩, ⟨"m.gxl", sampleModule.toUTF8⟩]⟩

/-- The options of a run that is given none, with the `text` format. -/
def plainOptions : Options :=
  ⟨.text, false, false, none⟩

theorem exists_loadSettings_sampleWorkspace :
    ∃ log, loadSettings plainOptions sampleWorkspace.entry = .ok (⟨2⟩, log) := by
  have hindent : (loadSettings plainOptions sampleWorkspace.entry).toOption.map Prod.fst
      = some ⟨2⟩ := by decide +kernel
  cases h : loadSettings plainOptions sampleWorkspace.entry with
  | error report => simp [h, Except.toOption] at hindent
  | ok found =>
    obtain ⟨settings, log⟩ := found
    obtain rfl : settings = ⟨2⟩ := by simpa [h, Except.toOption] using hindent
    exact ⟨log, rfl⟩

/-- The three modes of `format` agree, and a formatted file stays as it is.  A file without an
accepted source is left as it is, and each run fails.  Else what is shown is what is written, a
check succeeds exactly if it is there already, and behind a write, under the same settings, checks
succeed and writes change nothing.  The same options give the same settings, unless the file is the
one that holds them. -/
theorem format_modes_agree {w : Workspace} {options : Options} {settings : Settings}
    {log : List Emission} (hsettings : loadSettings options w.entry = .ok (settings, log))
    (file : String) :
    ((∀ source t, (w.entry file).text = .ok source → parse source ≠ .ok t) → ∀ mode,
      (w.format options file mode).exit = 1 ∧ (w.format options file mode).workspace = w) ∧
    ∀ source t, (w.entry file).text = .ok source → parse source = .ok t →
      let shown := (w.format options file .print).stdout
      let after := (w.format options file .write).workspace
      ((w.format options file .print).exit = 0 ∧ (w.format options file .print).workspace = w) ∧
      ((w.format options file .write).exit = 0 ∧ after.entry file = .file shown.toUTF8) ∧
      (((w.format options file .check).exit = 0 ↔ source = shown) ∧
        (w.format options file .check).workspace = w) ∧
      (shown = t.print settings.indent ∧
        ∀ indent, ∃ t', parse (t.print indent) = .ok t' ∧ t'.print indent = t.print indent) ∧
      (∀ options' log', loadSettings options' after.entry = .ok (settings, log') →
        (after.format options' file .check).exit = 0 ∧
        (after.format options' file .write).workspace = after) ∧
      (w.place (options.config.getD settingsPath) ≠ w.place file →
        loadSettings options after.entry = .ok (settings, log)) := by
  refine ⟨fun h => format_of_rejected hsettings h, ?_⟩
  intro source t hsource ht shown after
  obtain ⟨hexit, hshown, hprint⟩ := format_print hsettings hsource ht
  obtain ⟨hwrite, -⟩ := format_write hsettings hsource ht
  have hafter : after.entry file = .file shown.toUTF8 := by
    rw [show shown = t.print settings.indent from hshown]
    exact entry_format_write hsettings hsource ht
  have hcheck := format_check hsettings hsource ht
  have hlayout : ∀ indent, ∃ t', parse (t.print indent) = .ok t' ∧
      t'.print indent = t.print indent := by
    intro indent
    obtain ⟨t', ht', herase⟩ := exists_parse_layout ht indent
    exact ⟨t', ht', Document.print_of_erase_eq herase indent⟩
  rw [← hshown] at hcheck
  refine ⟨⟨hexit, hprint⟩, ⟨hwrite, hafter⟩, hcheck, ⟨hshown, hlayout⟩, ?_, ?_⟩
  · intro options' log' hsettings'
    -- the file now holds the layout, which is its own layout
    obtain ⟨t', ht', hsame⟩ := hlayout settings.indent
    rw [← hshown] at ht' hsame
    have hsource' : (after.entry file).text = .ok shown := by
      rw [hafter, Entry.text_file_toUTF8]
    refine ⟨(format_check hsettings' hsource' ht').1.2 hsame.symm, ?_⟩
    rw [(format_write hsettings' hsource' ht').2, if_pos hsame]
  · intro hplace
    rw [loadSettings_congr (entry_format_write_of_ne hsettings hsource ht hplace), hsettings]

theorem format_modes_agree_sampleWorkspace :
    ∃ log, loadSettings plainOptions sampleWorkspace.entry = .ok (⟨2⟩, log) ∧
    ∃ t, (sampleWorkspace.entry "m.gxl").text = .ok sampleModule ∧ parse sampleModule = .ok t ∧
      let after := (sampleWorkspace.format plainOptions "m.gxl" .write).workspace
      after.entry "m.gxl" = .file (t.print 2).toUTF8 ∧
      loadSettings plainOptions after.entry = .ok (⟨2⟩, log) ∧
      (after.format plainOptions "m.gxl" .check).exit = 0 ∧
      (after.format plainOptions "m.gxl" .write).workspace = after := by
  obtain ⟨log, hsettings⟩ := exists_loadSettings_sampleWorkspace
  have htext : (sampleWorkspace.entry "m.gxl").text = .ok sampleModule :=
    Entry.text_file_toUTF8 sampleModule
  obtain ⟨t, ht⟩ := exists_parse_sampleModule
  obtain ⟨-, ⟨-, hafter⟩, -, ⟨hshown, -⟩, hagain, hsame⟩ :=
    (format_modes_agree hsettings "m.gxl").2 sampleModule t htext ht
  rw [hshown] at hafter
  have hplace : sampleWorkspace.place (plainOptions.config.getD settingsPath)
      ≠ sampleWorkspace.place "m.gxl" := by
    intro h
    have hpath : (Workspace.Place.file ⟨"gxl.toml", "fmt.indent = 2".toUTF8⟩)
        = .file ⟨"m.gxl", sampleModule.toUTF8⟩ := h
    simp at hpath
  have hsettings' := hsame hplace
  exact ⟨log, hsettings, t, htext, ht, hafter, hsettings', hagain _ _ hsettings'⟩

end Tool

end Gxl
