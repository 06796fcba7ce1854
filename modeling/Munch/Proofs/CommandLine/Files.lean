/-
Files that are written and read again. Where a path leads is up to the directories (`place_eq_ok`),
and these stay as they are, so what was written to a path is what stands there (`read?_write`), and
the path can be written to again (`exists_write`).
-/
import Mathlib.Data.List.Basic
import Munch.CommandLine.Files

namespace Munch.CommandLine.Files

variable {files files' : Files} {path file : String} {content : List Part} {place : Place}

/-- A path that leads somewhere leads there with the same directories, whatever the files are. -/
theorem follow_eq_ok {absolute : Bool} {here parts : List String}
    (h : files.follow absolute here parts = .ok place)
    (hdirs : files'.directories = files.directories) :
    files'.follow absolute here parts = .ok place := by
  have hsame (here : List String) :
      files'.isDirectory absolute here = files.isDirectory absolute here := by
    rw [isDirectory, isDirectory, hdirs]
  induction parts generalizing here with
  | nil => exact h
  | cons part rest ih =>
    rw [follow] at h ⊢
    simp only [hsame]
    by_cases hlength : maxNameBytes < (Text.utf8 part).length
    · rw [if_pos hlength] at h
      cases h
    rw [if_neg hlength] at h ⊢
    by_cases hup : part = ".."
    · rw [if_pos hup] at h ⊢
      exact ih h
    rw [if_neg hup] at h ⊢
    by_cases hdir : files.isDirectory absolute (here ++ [part]) = true
    · rw [if_pos hdir] at h ⊢
      exact ih h
    rw [if_neg hdir] at h ⊢
    by_cases hlast : rest.isEmpty = true
    · rw [if_pos hlast] at h ⊢
      exact h
    · rw [if_neg hlast] at h
      split at h
      · cases h
      · cases h

theorem place_eq_ok (h : files.place path = .ok place)
    (hdirs : files'.directories = files.directories) : files'.place path = .ok place := by
  rw [Files.place] at h ⊢
  split at h
  · cases h
  split at h
  · cases h
  · next hzero hlength =>
    rw [if_neg hzero, if_neg hlength]
    exact follow_eq_ok h hdirs

/-- A path that can be written to leads to a file, which then holds what is written. -/
theorem place_of_write (h : files.write path content = .ok files') : ∃ file,
    files'.place path = .ok (.file file) ∧ files'.contents.lookup file = some content := by
  rw [write] at h
  split at h
  · next file hfile =>
    obtain rfl := Except.ok.inj h
    refine ⟨file, place_eq_ok hfile rfl, ?_⟩
    have hothers : (files.contents.filter (·.1 != file)).lookup file = none := by
      rw [List.lookup_eq_none_iff]
      intro p hp
      have hne := (List.mem_filter.1 hp).2
      rw [bne_iff_ne] at hne ⊢
      exact hne.symm
    simp [List.lookup_append, hothers]
  · cases h
  · cases h

/-- What was written to a path stands there. -/
theorem read?_write (h : files.write path content = .ok files') :
    files'.read? path = .ok (some content) := by
  obtain ⟨file, hfile, hcontent⟩ := place_of_write h
  rw [read?, hfile]
  exact congrArg Except.ok hcontent

/-- A path can be written to again. -/
theorem exists_write (h : files.write path content = .ok files') (content' : List Part) :
    ∃ files'', files'.write path content' = .ok files'' := by
  obtain ⟨file, hfile, -⟩ := place_of_write h
  rw [write, hfile]
  exact ⟨_, rfl⟩

end Munch.CommandLine.Files
