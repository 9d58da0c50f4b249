import Gxl.Tool.Workspace

/-!
# What a write leaves

Putting a text in place of a file changes the bytes of that file and nothing else
(`Workspace.entry_write_of_eq`, `Workspace.entry_write_of_ne`): no path leads elsewhere than before.

Where a path leads is decided by the paths of the files alone, so it is found in the same way when
the files are changed but keep their paths (`Workspace.place_mapFiles`).
-/

namespace Gxl.Tool

/-! ## Texts as bytes -/

/-- A file that holds the bytes of `s` has the text `s`. -/
@[simp] theorem Entry.text_file_toUTF8 (s : String) : (Entry.file s.toUTF8).text = .ok s := by
  have hread : String.fromUTF8? s.toUTF8 = some s := dif_pos s.isValidUTF8
  simp only [Entry.text, hread]

/-- The `text` of a file determines its bytes. -/
theorem Entry.eq_file_of_text {e : Entry} {s : String} (h : e.text = .ok s) :
    e = .file s.toUTF8 := by
  cases e with
  | fault reason => simp [Entry.text] at h
  | file bytes =>
    simp only [Entry.text, String.fromUTF8?] at h
    by_cases hvalid : bytes.IsValidUTF8
    · rw [dif_pos hvalid] at h
      rw [← Except.ok.inj h]
      rfl
    · rw [dif_neg hvalid] at h
      simp at h

namespace Workspace

/-! ## Changes that keep the paths -/

/-- The workspace `w` with `g` done to each of its files. -/
def mapFiles (g : File → File) (w : Workspace) : Workspace :=
  ⟨w.files.map g⟩

/-- The place with `g` done to the file that is there. -/
def Place.map (g : File → File) : Place → Place
  | .file f => .file (g f)
  | .directory => .directory
  | .fault reason => .fault reason

variable {g : File → File} (hg : ∀ f, (g f).path = f.path)
include hg

/-- The file at some steps of `mapFiles g` is that of the workspace with `g` done to it, if `g`
keeps paths. -/
theorem file?_mapFiles (w : Workspace) (steps : List String) :
    (w.mapFiles g).file? steps = (w.file? steps).map g := by
  have hpaths :
      ((fun f => pathSteps f.path == steps) ∘ g) = fun f => pathSteps f.path == steps := by
    funext f
    simp [hg]
  rw [file?, mapFiles, List.find?_map, hpaths, file?]

/-- The directories of `mapFiles g` are those of the workspace, if `g` keeps paths. -/
theorem isDirectory_mapFiles (w : Workspace) (steps : List String) :
    (w.mapFiles g).isDirectory steps = w.isDirectory steps := by
  simp only [isDirectory, mapFiles, List.any_map, Function.comp_def, hg]

/-- A way that `follow` takes ends at the changed file where it ended at the file. -/
theorem follow_mapFiles (w : Workspace) (here parts : List String) :
    (w.mapFiles g).follow here parts = (w.follow here parts).map g := by
  induction parts generalizing here with
  | nil => rfl
  | cons part parts ih =>
    unfold follow
    simp only [ih, file?_mapFiles hg, isDirectory_mapFiles hg]
    split
    · rfl
    · split
      · cases here with
        | nil => dsimp only; split <;> rfl
        | cons _ above => rfl
      · -- a file ends the way, a directory leads on
        cases w.file? (part :: here).reverse with
        | none => dsimp only [Option.map]; split <;> rfl
        | some f => dsimp only [Option.map]; split <;> rfl

/-- A path leads to the changed file where it led to the file, as `place` has it. -/
theorem place_mapFiles (w : Workspace) (path : String) :
    (w.mapFiles g).place path = (w.place path).map g := by
  unfold place
  split
  · split <;> rfl
  · exact follow_mapFiles hg w _ _

omit hg

/-! ## Paths of files -/

/-- A file that `follow` leads to is the one that `file?` finds at its own path. -/
theorem file?_of_follow {w : Workspace} {f : File} {here parts : List String}
    (h : w.follow here parts = .file f) : w.file? (pathSteps f.path) = some f := by
  induction parts generalizing here with
  | nil => simp [follow] at h
  | cons part parts ih =>
    unfold follow at h
    split at h
    · exact ih h
    · split at h
      · split at h
        · exact ih h
        · split at h <;> simp at h
      · cases hf' : w.file? (part :: here).reverse with
        | some f' =>
          simp only [hf'] at h
          split at h
          · obtain rfl : f' = f := by simpa using h
            have hsteps : pathSteps f'.path = (part :: here).reverse := by
              simpa using List.find?_some hf'
            rw [hsteps, hf']
          · simp at h
        | none =>
          simp only [hf'] at h
          split at h
          · exact ih h
          · simp at h

/-- A file that `place` leads to is the one that `file?` finds at its own path. -/
theorem file?_of_place {w : Workspace} {f : File} {path : String} (h : w.place path = .file f) :
    w.file? (pathSteps f.path) = some f := by
  unfold place at h
  split at h
  · split at h <;> simp at h
  · exact file?_of_follow h

/-- Files that `place` leads to are the same if they have the same path. -/
theorem eq_of_place {w : Workspace} {f f' : File} {path path' : String}
    (h : w.place path = .file f) (h' : w.place path' = .file f') (hpath : f.path = f'.path) :
    f = f' := by
  have hf := file?_of_place h
  rw [hpath, file?_of_place h'] at hf
  exact (Option.some.inj hf).symm

/-- The `entry` of a path is a file only where `place` leads to one. -/
theorem place_of_entry {w : Workspace} {path : String} {bytes : ByteArray}
    (h : w.entry path = .file bytes) : ∃ f, w.place path = .file f ∧ f.bytes = bytes := by
  unfold entry at h
  split at h
  · exact ⟨_, by assumption, by simpa using h⟩
  · simp at h
  · simp at h

/-! ## Writing -/

/-- The file with the new `text` if its path is the given one. -/
def rewritten (path text : String) (f : File) : File :=
  if f.path = path then { f with bytes := text.toUTF8 } else f

@[simp] theorem rewritten_path (path text : String) (f : File) :
    (rewritten path text f).path = f.path := by
  unfold rewritten
  split <;> rfl

/-- Writing to a path that leads to a file is `mapFiles` with `rewritten`. -/
theorem write_eq_mapFiles {w : Workspace} {f : File} {path : String} (text : String)
    (h : w.place path = .file f) : w.write path text = w.mapFiles (rewritten f.path text) := by
  simp only [write, h]
  rfl

/-- After `write`, a path leads to the file that it led to, with the new text if that is the one
written. -/
theorem place_write {w : Workspace} {f : File} {path : String} (text p : String)
    (h : w.place path = .file f) :
    (w.write path text).place p = (w.place p).map (rewritten f.path text) := by
  rw [write_eq_mapFiles text h, place_mapFiles (rewritten_path f.path text)]

/-- A path that leads to the written file has the text as its `entry`. -/
theorem entry_write_of_eq {w : Workspace} {path p : String} {bytes : ByteArray} (text : String)
    (h : w.entry path = .file bytes) (hp : w.place p = w.place path) :
    (w.write path text).entry p = .file text.toUTF8 := by
  obtain ⟨f, hf, -⟩ := place_of_entry h
  rw [entry, place_write text p hf, hp, hf]
  simp [Place.map, rewritten]

/-- A path that leads elsewhere keeps its `entry`. -/
theorem entry_write_of_ne {w : Workspace} {path p : String} (text : String)
    (hp : w.place p ≠ w.place path) : (w.write path text).entry p = w.entry p := by
  cases hf : w.place path with
  | directory => simp only [write, hf]
  | fault reason => simp only [write, hf]
  | file f =>
    rw [entry, entry, place_write text p hf]
    cases hq : w.place p with
    | directory => rfl
    | fault reason => rfl
    | file f' =>
      have hpath : f'.path ≠ f.path := by
        intro hpath
        rw [hq, hf, eq_of_place hq hf hpath] at hp
        exact hp rfl
      simp [Place.map, rewritten, hpath]

end Workspace

end Gxl.Tool
