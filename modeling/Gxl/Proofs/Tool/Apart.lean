import Gxl.Proofs.Tool.Places

/-!
# Workspaces that differ in one file

Two workspaces may hold the same files but for one that stands at their top, such as the file with
the settings.  A path then leads to the same text in both, or to none in both, unless it leads to
that file (`Workspace.SameBut.text_eq`).

The reason for which there is no text may differ: a path through the file goes through something
that is not a directory where the file is there, and through nothing where it is missing.
-/

namespace Gxl.Tool

namespace Workspace

/-- No file of `w` stands where a directory is. -/
def Consistent (w : Workspace) : Prop :=
  ∀ f ∈ w.files, w.isDirectory (pathSteps f.path) = false

instance (w : Workspace) : Decidable w.Consistent :=
  inferInstanceAs (Decidable (∀ f ∈ w.files, w.isDirectory (pathSteps f.path) = false))

/-- Two workspaces hold the same files, but for those of the name `name` that stand at their top. -/
def SameBut (name : String) (w w' : Workspace) : Prop :=
  w.files.filter (fun f => pathSteps f.path != [name])
    = w'.files.filter (fun f => pathSteps f.path != [name])

/-- The path leads to a file of the name `name` that stands at the top of `w`. -/
def LeadsTo (w : Workspace) (path name : String) : Prop :=
  ∃ f, w.place path = .file f ∧ pathSteps f.path = [name]

/-- How a `Place` may differ from another when only files of one name do: one of them is such a
file, or both are none, or they are the same. -/
inductive Place.SameBut (name : String) : Place → Place → Prop where
  | same (p : Place) : SameBut name p p
  | left {f : File} (p' : Place) (h : pathSteps f.path = [name]) : SameBut name (.file f) p'
  | right {f : File} (p : Place) (h : pathSteps f.path = [name]) : SameBut name p (.file f)
  | faults (reason reason' : ReadFault) : SameBut name (.fault reason) (.fault reason')

/-- A path that leads to a file elsewhere does not `LeadsTo` a file of the name. -/
theorem not_leadsTo {w : Workspace} {f : File} {path name : String} (h : w.place path = .file f)
    (hf : pathSteps f.path ≠ [name]) : ¬ w.LeadsTo path name := by
  rintro ⟨f', hf', hname⟩
  obtain rfl : f = f' := Place.file.inj (h.symm.trans hf')
  exact hf hname

section SameBut

variable {name : String} {w w' : Workspace}

/-- Workspaces that are `SameBut` for a name have the same files at all other steps. -/
theorem SameBut.file?_eq (h : SameBut name w w') {steps : List String} (hsteps : steps ≠ [name]) :
    w.file? steps = w'.file? steps := by
  have hfilter : ∀ files : List File,
      (files.filter fun f => pathSteps f.path != [name]).find? (fun f => pathSteps f.path == steps)
        = files.find? fun f => pathSteps f.path == steps := by
    intro files
    rw [List.find?_filter]
    congr 1
    funext f
    by_cases hf : pathSteps f.path = steps
    · simp [hf, hsteps]
    · simp [hf]
  rw [file?, file?, ← hfilter w.files, h, hfilter w'.files]

/-- Nothing but the workspace itself is a directory above a file at its top, as `isDirectory` looks
for them. -/
theorem not_below {steps : List String} (h : steps ≠ []) :
    (steps.isPrefixOf [name] && [name] != steps) = false := by
  rcases steps with _ | ⟨first, _ | ⟨second, rest⟩⟩
  · exact absurd rfl h
  · by_cases hfirst : first = name <;> simp [List.isPrefixOf, hfirst]
  · simp [List.isPrefixOf]

/-- A file at the top makes no directory but the workspace itself, so `isDirectory` says the same of
both. -/
theorem SameBut.isDirectory_eq (h : SameBut name w w') (steps : List String) :
    w.isDirectory steps = w'.isDirectory steps := by
  by_cases hnil : steps = []
  · simp [isDirectory, hnil]
  have hfilter : ∀ files : List File,
      (files.filter fun f => pathSteps f.path != [name]).any (fun f =>
          steps.isPrefixOf (pathSteps f.path) && pathSteps f.path != steps)
        = files.any fun f => steps.isPrefixOf (pathSteps f.path) && pathSteps f.path != steps := by
    intro files
    rw [List.any_filter]
    congr 1
    funext f
    by_cases hf : pathSteps f.path = [name]
    · rw [hf, not_below hnil]
      simp
    · simp [hf]
  rw [isDirectory, isDirectory, ← hfilter w.files, h, hfilter w'.files]

/-- Where a file of the name stands in one of two `Consistent` workspaces, there is no directory in
the other. -/
theorem SameBut.isDirectory_eq_false (h : SameBut name w w') (hw : w.Consistent) {f : File}
    (hf : w.file? [name] = some f) : w'.isDirectory [name] = false := by
  have hsteps : pathSteps f.path = [name] := by simpa using List.find?_some hf
  have hdirectory := hw f (List.mem_of_find?_eq_some hf)
  rwa [hsteps, h.isDirectory_eq] at hdirectory

theorem SameBut.symm (h : SameBut name w w') : SameBut name w' w :=
  Eq.symm h

theorem Place.SameBut.symm {p p' : Place} (h : Place.SameBut name p p') :
    Place.SameBut name p' p := by
  cases h with
  | same => exact .same p
  | left _ h => exact .right _ h
  | right _ h => exact .left _ h
  | faults reason reason' => exact .faults reason' reason

/-- A step with a name of its own leads `follow` to a file, where the way ends, or into a
directory. -/
theorem follow_name (w : Workspace) (here parts : List String) {part : String}
    (hstay : ¬ (part = "" || part = ".") = true) (hup : part ≠ "..") :
    w.follow here (part :: parts) =
      match w.file? (part :: here).reverse with
      | some f => if parts.isEmpty then .file f else .fault .notDirectory
      | none =>
        if w.isDirectory (part :: here).reverse then w.follow (part :: here) parts
        else .fault .missing :=
  (if_neg hstay).trans (if_neg hup)

/-- Where a file of the name stands in one workspace, the way of `follow` ends there in both. -/
theorem SameBut.follow_of_file (h : SameBut name w w') (hw : w.Consistent) {f : File}
    {here parts : List String} {part : String} (hstay : ¬ (part = "" || part = ".") = true)
    (hup : part ≠ "..") (hsteps : (part :: here).reverse = [name])
    (hf : w.file? [name] = some f) :
    Place.SameBut name (w.follow here (part :: parts)) (w'.follow here (part :: parts)) := by
  have hname : pathSteps f.path = [name] := by simpa using List.find?_some hf
  have hdirectory := h.isDirectory_eq_false hw hf
  rw [follow_name w here parts hstay hup, follow_name w' here parts hstay hup, hsteps, hf]
  cases parts with
  | nil => exact .left _ hname
  | cons next parts =>
    cases w'.file? [name] with
    | some f' => exact .same _
    | none =>
      simp only [hdirectory]
      exact .faults _ _

/-- A path leads to places that are `Place.SameBut` for the name, by induction on its parts. -/
theorem SameBut.follow_sameBut (h : SameBut name w w') (hw : w.Consistent) (hw' : w'.Consistent)
    (here parts : List String) :
    Place.SameBut name (w.follow here parts) (w'.follow here parts) := by
  induction parts generalizing here with
  | nil => exact .same _
  | cons part parts ih =>
    by_cases hstay : (part = "" || part = ".") = true
    · simp only [follow, if_pos hstay]
      exact ih here
    by_cases hup : part = ".."
    · simp only [follow, if_neg hstay, if_pos hup]
      cases here with
      | nil => exact .same _
      | cons _ above => exact ih above
    have hstep : w.file? (part :: here).reverse = w'.file? (part :: here).reverse →
        Place.SameBut name (w.follow here (part :: parts)) (w'.follow here (part :: parts)) := by
      intro hfile
      rw [follow_name w here parts hstay hup, follow_name w' here parts hstay hup, hfile,
        h.isDirectory_eq]
      cases w'.file? (part :: here).reverse with
      | some f => exact .same _
      | none =>
        dsimp only
        split
        · exact ih (part :: here)
        · exact .same _
    by_cases hsteps : (part :: here).reverse = [name]
    · -- if one of the workspaces has the file, the way ends there in both
      cases hfile : w.file? [name] with
      | some f => exact h.follow_of_file hw hstay hup hsteps hfile
      | none =>
        cases hfile' : w'.file? [name] with
        | some f => exact (h.symm.follow_of_file hw' hstay hup hsteps hfile').symm
        | none => exact hstep (by rw [hsteps, hfile, hfile'])
    · exact hstep (h.file?_eq hsteps)

/-- So do the places that `place` gives for a path. -/
theorem SameBut.place_sameBut (h : SameBut name w w') (hw : w.Consistent) (hw' : w'.Consistent)
    (path : String) : Place.SameBut name (w.place path) (w'.place path) := by
  unfold place
  split
  · exact .same _
  · exact h.follow_sameBut hw hw' _ _

/-- A path leads to the same text in both workspaces or to none in both, unless it `LeadsTo` a file
of the name. -/
theorem SameBut.text_eq (h : SameBut name w w') (hw : w.Consistent) (hw' : w'.Consistent)
    {path : String} (hpath : ¬ w.LeadsTo path name) (hpath' : ¬ w'.LeadsTo path name) :
    (w.entry path).text.toOption = (w'.entry path).text.toOption := by
  have hplace := h.place_sameBut hw hw' path
  unfold entry
  generalize hp : w.place path = p at hplace
  generalize hp' : w'.place path = p' at hplace
  cases hplace with
  | same => rfl
  | left _ hf => exact absurd ⟨_, hp, hf⟩ hpath
  | right _ hf => exact absurd ⟨_, hp', hf⟩ hpath'
  | faults reason reason' => rfl

end SameBut

end Workspace

end Gxl.Tool
