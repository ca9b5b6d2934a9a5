import Autotree.Proofs.Store.Reach

/-!
# Stores without links

Where no link stands, every path leads to the place that its text names: `placeOf` is the only
place that it can lead to (`reachName_place` and its companions).  What is on the way there is named
by the first steps of the path (`OnWay`).
-/

namespace Autotree.Store

variable {s t : Store} {place start q : Place} {node : Node} {path name : String}
  {xs : List String} {toLast slash : Bool} {links : Nat} {reach : Reach}

/-- No link stands anywhere in the store. -/
def LinkFree (s : Store) : Prop :=
  ∀ place target, s.at? place ≠ some (.link target)

theorem LinkFree.get?_ne (h : s.LinkFree) (place : Place) (target : String) :
    s.get? place ≠ some (.link target) :=
  fun hget => h place target (at?_eq_link_iff.2 hget)

/-! ## Where paths lead -/

theorem reachFrom_place (hfree : s.LinkFree)
    (h : s.reachFrom toLast links slash start xs = .ok reach) (hxs : ∀ x ∈ xs, IsStep x) :
    reach.place = follow start xs := by
  fun_induction reachFrom s toLast links slash start xs with
  | case1 => cases h
  | case2 links slash start xs node hnode r hw =>
    cases h
    have hsound := walk_sound_from toLast slash hnode hxs
    rw [hw] at hsound
    exact hsound.1
  | case3 => cases h
  | case4 => cases h
  | case5 => cases h
  | case6 slash start xs node hnode target dir rest hw =>
    have hsound := walk_sound_from toLast slash hnode hxs
    rw [hw] at hsound
    obtain ⟨-, ⟨place, hlink⟩, -⟩ := hsound
    exact absurd hlink (hfree.get?_ne place _)

theorem reachName_place (hfree : s.LinkFree) (h : s.reachName path = .ok reach) :
    reach.place = s.placeOf path := by
  unfold reachName at h
  split at h
  · cases h
  · exact reachFrom_place hfree h fun _ => isStep_of_mem_steps

theorem reachFile_place (hfree : s.LinkFree) (h : s.reachFile path = .ok reach) :
    reach.place = s.placeOf path := by
  unfold reachFile at h
  split at h
  · cases h
  · cases hlimit : linkLimit with
    | zero => cases hlimit
    | succ links =>
      rw [hlimit, reachFileFrom] at h
      split at h
      · cases h
      · split at h
        · cases h
        · next r hr =>
          split at h
          · cases h
          · split at h
            · next place target =>
              exact absurd (reachFrom_holds hr fun _ => isStep_of_mem_steps) (hfree.get?_ne _ _)
            · cases h
              exact reachFrom_place hfree hr fun _ => isStep_of_mem_steps

theorem locateBase_place (hfree : s.LinkFree) (h : s.locateBase path = .ok (place, node)) :
    place = s.placeOf path :=
  reachFrom_place hfree (locateBase_eq_ok_iff.1 h) fun _ => isStep_of_mem_steps

theorem locate_place (hfree : s.LinkFree) (h : s.locate path = .ok (place, node)) :
    place = s.placeOf path :=
  locateBase_place hfree (locateBase_of_locate h)

theorem get?_placeOf_of_locate (hfree : s.LinkFree) (h : s.locate path = .ok (place, node)) :
    s.get? (s.placeOf path) = some node := by
  rw [← locate_place hfree h]
  exact get?_of_locate h

theorem isFile_eq_true_iff :
    s.isFile path = true ↔
      ∃ place content executable, s.locate path = .ok (place, .file content executable) := by
  unfold isFile
  cases s.locate path with
  | error e => simp
  | ok found =>
    obtain ⟨place, node⟩ := found
    cases node <;> simp [Node.isFile]

theorem isDir_eq_true_iff :
    s.isDir path = true ↔ ∃ place entries, s.locate path = .ok (place, .dir entries) := by
  unfold isDir
  cases s.locate path with
  | error e => simp
  | ok found =>
    obtain ⟨place, node⟩ := found
    cases node <;> simp [Node.isDir]

theorem at?_placeOf_of_isDir (hfree : s.LinkFree) (h : s.isDir path = true) :
    s.at? (s.placeOf path) = some .dir := by
  obtain ⟨place, entries, hlocate⟩ := isDir_eq_true_iff.1 h
  exact at?_eq_dir_iff.2 ⟨entries, get?_placeOf_of_locate hfree hlocate⟩

/-! ## Places by their text -/

/-- The place that a path stands for in a directory, by its text alone. -/
def placeIn (dir : Place) (path : String) : Place :=
  follow (startOf path dir) (steps path)

theorem placeOf_eq (s : Store) (path : String) : s.placeOf path = placeIn s.cwd path := rfl

theorem placeIn_join (h : isEntryName name = true) (dir : Place) (path : String) :
    placeIn dir (Path.join path name) = placeIn dir path ++ [name] := by
  have hstep := isStep_of_isEntryName h
  rw [placeIn, steps_join_name hstep, startOf_join_name hstep, follow_append, follow_cons,
    follow_nil, stepFrom_of_isEntryName h]
  rfl

/-- A place that the first steps of a path name. -/
def OnWay (dir : Place) (path : String) (place : Place) : Prop :=
  ∃ xs, xs <+: steps path ∧ place = follow (startOf path dir) xs

theorem onWay_placeIn (dir : Place) (path : String) : OnWay dir path (placeIn dir path) :=
  ⟨steps path, List.prefix_refl _, rfl⟩

theorem OnWay.of_parent {dir : Place} {parent : String} (h : Path.parent? path = some parent)
    (hway : OnWay dir parent place) : OnWay dir path place := by
  obtain ⟨xs, hxs, rfl⟩ := hway
  exact ⟨xs, hxs.trans (prefix_steps_parent h), by rw [startOf_parent h]⟩

theorem onWay_join (h : isEntryName name = true) {dir : Place}
    (hway : OnWay dir (Path.join path name) place) :
    OnWay dir path place ∨ place = placeIn dir path ++ [name] := by
  have hstep := isStep_of_isEntryName h
  obtain ⟨xs, hxs, rfl⟩ := hway
  rw [steps_join_name hstep, List.prefix_concat_iff] at hxs
  rw [startOf_join_name hstep]
  rcases hxs with rfl | hxs
  · right
    rw [follow_append, follow_cons, follow_nil, stepFrom_of_isEntryName h]
    rfl
  · exact .inl ⟨xs, hxs, rfl⟩

end Autotree.Store
