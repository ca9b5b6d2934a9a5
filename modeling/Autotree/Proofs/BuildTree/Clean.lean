import Autotree.Proofs.BuildTree.Write
import Autotree.Proofs.Store.Remove
import Autotree.Proofs.Store.Tree

/-!
# What cleaning removes

Cleaning removes the tree at the place that the path of the build directory leads to, whatever is
in it, and nothing else (`clean_clears_tree`).  Nothing relates that path to the project: a build
directory that is the project's own directory, or one above it, takes the sources along
(`clean_removes_sources`).
-/

namespace Autotree.BuildTree

open Autotree.Action FileAction Machine Stateful Store

variable {m : Manifest} {σ : Machine} {s : Store} {place : Place} {entries : List (String × Node)}

/-! ## The store after cleaning -/

theorem clean_of_not_exists (h : σ.store.exists? m.buildDir = false) :
    (clean m σ).1 = .ok none ∧ (clean m σ).2.store = σ.store := by
  unfold clean
  rw [Stateful.get_bind]
  simp only [h]
  exact ⟨rfl, rfl⟩

theorem removeDirIfExists_of_exists {path : String} (h : s.exists? path = true) :
    removeDirIfExists path s =
      ofOutcome ("failed to remove directory: " ++ Text.shown path) (·.removeAll path) s := by
  unfold removeDirIfExists
  rw [Stateful.get_bind, if_pos h]

theorem clean_of_exists (h : σ.store.exists? m.buildDir = true) :
    (clean m σ).1 = (match (σ.store.removeAll m.buildDir).1 with
      | .ok () => .ok (some m.buildDir)
      | .error e =>
        .error (.file ("failed to remove directory: " ++ Text.shown m.buildDir) (.system e))) ∧
    (clean m σ).2.store = (σ.store.removeAll m.buildDir).2 := by
  have hstart : clean m σ = (onStore (removeDirIfExists m.buildDir) >>= fun _ => do
      Action.log .info ("removed " ++ Text.shown m.buildDir)
      return some m.buildDir) σ := by
    unfold clean
    rw [Stateful.get_bind]
    simp only [h, Bool.not_true, Bool.false_eq_true, if_false]
  have hremove := onStore_apply (removeDirIfExists m.buildDir) σ
  rw [removeDirIfExists_of_exists h, ofOutcome_apply] at hremove
  rw [hstart]
  rcases hrun : σ.store.removeAll m.buildDir with ⟨e | _, t⟩
  · rw [hrun] at hremove
    rw [bind_error hremove]
    exact ⟨rfl, rfl⟩
  · rw [hrun] at hremove
    rw [bind_ok hremove]
    exact ⟨rfl, rfl⟩

/-- Cleaning clears the tree at the place that the path of the build directory leads to.  A link
at the end of the path is removed itself, if it leads to anything. -/
theorem clean_clears_tree (m : Manifest) (σ : Machine) :
    match σ.store.reach false m.buildDir with
    | .ok (.found place (.dir _)) => Cleared place σ.store (clean m σ).2.store
    | .ok (.found place (.link _)) =>
      (clean m σ).2.store =
        if σ.store.exists? m.buildDir then σ.store.erase place else σ.store
    | _ => (clean m σ).2.store = σ.store := by
  split
  · next place entries hreach =>
    have hexists : σ.store.exists? m.buildDir = true := by
      rw [exists?, locate_of_reach hreach]
      rfl
    rw [(clean_of_exists hexists).2]
    exact removeAll_of_dir hreach
  · next place target hreach =>
    split
    · next hexists => rw [(clean_of_exists hexists).2, removeAll, hreach]
    · next hexists => exact (clean_of_not_exists (Bool.not_eq_true _ ▸ hexists)).2
  · next hdir hlink =>
    by_cases hexists : σ.store.exists? m.buildDir = true
    · rw [(clean_of_exists hexists).2, removeAll]
      split
      · rfl
      · rfl
      · next place target hreach => exact absurd hreach (hlink place target)
      · rfl
      · next place entries hreach => exact absurd hreach (hdir place entries)
    · exact (clean_of_not_exists (Bool.not_eq_true _ ▸ hexists)).2

/-! ## Project inputs -/

/-- What the source trees of a project hold, and its two files. -/
def IsInput (m : Manifest) (s : Store) (place : Place) : Prop :=
  (∃ path ∈ [Path.join m.root Manifest.fileName, m.configPath], ∃ node,
    s.locate path = .ok (place, node)) ∨
  ∃ path ∈ [Path.join m.root Layout.sourceDir, Path.join m.root Layout.includeDir], ∃ top node,
    s.locate path = .ok (top, node) ∧ top <+: place ∧ place ≠ top

/-- The small project with a build tree in its own directory. -/
def inPlaceManifest : Manifest :=
  { smallManifest with build := { buildDir := "." } }

theorem isInput_inPlace : IsInput inPlaceManifest smallStore ["p", "src", "main.c"] := by
  have hdir : smallStore.isDir "/p/src" = true := by decide +kernel
  obtain ⟨top, entries, hlocate⟩ := isDir_eq_true_iff.1 hdir
  obtain rfl : top = ["p", "src"] :=
    (locate_place (by decide +kernel) hlocate).trans (by decide +kernel)
  exact .inr ⟨"/p/src", by decide +kernel, _, _, hlocate, by decide, by decide⟩

/-- A build directory that is the directory of the project takes the sources along. -/
theorem clean_removes_sources :
    ¬ ∀ (m : Manifest) (σ : Machine) (place : Place) (item : Item), IsInput m σ.store place →
      σ.store.at? place = some item → (clean m σ).2.store.at? place = some item := by
  intro h
  have hkept := h inPlaceManifest smallMachine _ (.file "int main;\n".toUTF8 false) isInput_inPlace
    (by decide +kernel)
  revert hkept
  decide +kernel

end Autotree.BuildTree
