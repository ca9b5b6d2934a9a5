import Autotree.Manifest.Find
import Autotree.Proofs.Path.Ancestors
import Autotree.Proofs.Store.LinkFree

/-!
# Searching for a manifest

A search looks at a manifest in a directory, its parent, and so on, once in each: the length of the
path that it starts with is enough for the way up (`upward_searchPath`).  It finds the nearest one
that is a regular file (`find_nearest`).
-/

namespace Autotree.Manifest

open Autotree.Path

variable {s : Store} {dir start path : String} {dirs : List String} {fuel : Nat}

/-- Whether a path leads to a regular file, links followed. -/
def LeadsToFile (s : Store) (path : String) : Prop :=
  ∃ place content executable, s.locate path = .ok (place, .file content executable)

theorem isFile_iff_leadsToFile : s.isFile path = true ↔ LeadsToFile s path :=
  Store.isFile_eq_true_iff

/-- The directories of a search are all those upward, if there is enough fuel. -/
theorem upward_searchPath (h : dir.length ≤ fuel) : Upward dir (searchPath fuel dir) := by
  induction fuel generalizing dir with
  | zero =>
    refine .top ?_
    cases hparent : parent? dir with
    | none => rfl
    | some parent =>
      have hlt := length_parent_lt hparent
      omega
  | succ fuel ih =>
    rw [searchPath]
    split
    · next parent hparent =>
      have hlt := length_parent_lt hparent
      exact .step hparent (ih (by omega))
    · next hparent => exact .top hparent

example : searchPath 7 "/a//b/." = ["/a//b/.", "/a", "/"] := by decide

/-- What a search answers that looks in some directories, one after the other. -/
inductive Answers (s : Store) (start : String) (dirs : List String) : Except Failure String → Prop
  | found {before after : List String} {dir : String} (hdirs : dirs = before ++ dir :: after)
      (hfile : LeadsToFile s (join dir fileName))
      (hbefore : ∀ d ∈ before, ¬ LeadsToFile s (join d fileName)) :
      Answers s start dirs (.ok (join dir fileName))
  | notFound (hnone : ∀ d ∈ dirs, ¬ LeadsToFile s (join d fileName)) :
      Answers s start dirs (.error (.manifestNotFound start))

theorem Answers.notFound_iff {answer : Except Failure String} (h : Answers s start dirs answer) :
    answer = .error (.manifestNotFound start) ↔ ∀ d ∈ dirs, ¬ LeadsToFile s (join d fileName) := by
  cases h with
  | @found before after dir hdirs hfile hbefore =>
    have hmem : dir ∈ dirs := by simp [hdirs]
    exact ⟨nofun, fun hnone => absurd hfile (hnone dir hmem)⟩
  | notFound hnone => exact ⟨fun _ => hnone, fun _ => rfl⟩

theorem findUpward_answers (s : Store) (start : String) :
    Answers s start (searchPath start.length start) (findUpward s start) := by
  have hnone : ∀ d, (!(s.isFile ∘ (join · fileName)) d) = true →
      ¬ LeadsToFile s (join d fileName) := by
    intro d hd
    simpa [← isFile_iff_leadsToFile] using hd
  simp only [findUpward, List.find?_map]
  cases hfind : (searchPath start.length start).find? (s.isFile ∘ (join · fileName)) with
  | none =>
    refine .notFound fun d hd => hnone d ?_
    have hnot := List.find?_eq_none.1 hfind d hd
    simpa using hnot
  | some dir =>
    obtain ⟨hfile, before, after, hdirs, hbefore⟩ := List.find?_eq_some_iff_append.1 hfind
    exact .found hdirs (isFile_iff_leadsToFile.1 hfile) fun d hd => hnone d (hbefore d hd)

/-- A search upward finds the nearest manifest and passes each directory once; a manifest with a
path of its own is not searched for. -/
theorem find_nearest (s : Store) (cwd : String) :
    (∃ dirs, Upward cwd dirs ∧ dirs.Nodup ∧
      dirs.map components = (if isAbsolute cwd then (components cwd).inits.tail
        else (components cwd).inits).reverse ∧
      Answers s cwd dirs (findUpward s cwd) ∧
      (findUpward s cwd = .error (.manifestNotFound cwd) ↔
        ∀ d ∈ dirs, ¬ LeadsToFile s (join d fileName))) ∧
    find s cwd none = findUpward s cwd ∧
    ∀ path, (find s cwd (some path) = .ok (join cwd path) ↔ LeadsToFile s (join cwd path)) ∧
      (find s cwd (some path) = .error (.manifestNotFound ((parent? (join cwd path)).getD cwd)) ↔
        ¬ LeadsToFile s (join cwd path)) := by
  have hupward := upward_searchPath (Nat.le_refl cwd.length)
  have hanswers := findUpward_answers s cwd
  refine ⟨⟨_, hupward, hupward.nodup, hupward.map_components, hanswers, hanswers.notFound_iff⟩, rfl,
    fun path => ?_⟩
  rw [find, ← isFile_iff_leadsToFile]
  cases s.isFile (join cwd path) <;> simp

end Autotree.Manifest
