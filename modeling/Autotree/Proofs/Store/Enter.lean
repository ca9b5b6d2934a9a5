import Autotree.Proofs.Path.Names
import Autotree.Proofs.Store.Remove
import Autotree.Proofs.Text.Raw

/-!
# Entering a directory

A process that enters a directory takes it as the start of its relative paths.  So a path leads
it where the same path behind that of the directory led before (`locate_from_dir`), and an
absolute one where it led before (`locate_of_isAbsolute`).  What it sees is the same tree, but
for the link by which a process finds its own directory: ways that do not need this link are kept
(`locate_enter`), and where there is no place for it nothing changes (`enter_eq`).
-/

namespace Autotree

namespace Store

variable {s t : Store} {place dir start trail q : Place} {node : Node} {path cwd : String}
  {xs : List String} {toLast slash : Bool} {links more : Nat} {entries : List (String × Node)}

/-! ## Another working directory -/

/-- A way that does not run out of links is the same with more of them to spend. -/
theorem reachFrom_more (h : s.reachFrom toLast links slash start xs ≠ .error .linkLoop)
    (hle : links ≤ more) :
    s.reachFrom toLast more slash start xs = s.reachFrom toLast links slash start xs := by
  fun_induction reachFrom s toLast links slash start xs generalizing more with
  | case1 links slash start xs hnone => rw [reachFrom, hnone]
  | case2 links slash start xs node hnode r hw =>
    rw [reachFrom, hnode]
    simp only [hw]
  | case3 links slash start xs node hnode e hw =>
    rw [reachFrom, hnode]
    simp only [hw]
  | case4 => exact absurd rfl h
  | case5 slash start xs node hnode dir rest links hw =>
    obtain ⟨more, rfl⟩ := Nat.exists_eq_succ_of_ne_zero (Nat.ne_zero_of_lt hle)
    rw [reachFrom, hnode]
    simp only [hw, if_pos]
  | case6 slash start xs node hnode target dir rest hw links htarget ih =>
    obtain ⟨more, rfl⟩ := Nat.exists_eq_succ_of_ne_zero (Nat.ne_zero_of_lt hle)
    rw [reachFrom, hnode]
    simp only [hw, if_neg htarget]
    exact ih h (Nat.le_of_succ_le_succ hle)

theorem walk_cwd (place trail : Place) (node : Node) (xs : List String) :
    { s with cwd := place }.walk toLast slash trail node xs =
      s.walk toLast slash trail node xs := by
  have hget : ∀ p, { s with cwd := place }.get? p = s.get? p := fun _ => rfl
  induction xs generalizing trail node with
  | nil => rw [walk, walk]
  | cons step xs ih => simp only [walk, ih, hget]

/-- Steps from a given place do not depend on the working directory. -/
theorem reachFrom_cwd (place : Place) :
    { s with cwd := place }.reachFrom toLast links slash start xs =
      s.reachFrom toLast links slash start xs := by
  have hget : ∀ p, { s with cwd := place }.get? p = s.get? p := fun _ => rfl
  induction links generalizing slash start xs with
  | zero =>
    rw [reachFrom, reachFrom]
    simp only [walk_cwd, hget]
  | succ links ih =>
    rw [reachFrom, reachFrom]
    simp only [walk_cwd, hget, ih]

theorem reach_of_isAbsolute (habs : Path.isAbsolute path = true) (place : Place) :
    { s with cwd := place }.reach toLast path = s.reach toLast path := by
  unfold reach startOf
  rw [if_pos habs, if_pos habs]
  split
  · rfl
  · exact reachFrom_cwd place

/-- The system takes a path if it takes it behind that of a directory. -/
theorem not_refused_of_join (hpath : path ≠ "")
    (htaken : Text.byteSize (Path.join cwd path) < pathLimit) :
    ¬ Refused (Path.join cwd path) ∧ ¬ Refused path := by
  have hle := Text.byteSize_right_le_join cwd path
  exact ⟨not_or.2 ⟨join_ne_empty hpath, Nat.not_le.2 htaken⟩,
    not_or.2 ⟨hpath, Nat.not_le.2 (Nat.lt_of_le_of_lt hle htaken)⟩⟩

theorem reach_from_dir (h : s.locate cwd = .ok (place, .dir entries)) (hpath : path ≠ "")
    (htaken : Text.byteSize (Path.join cwd path) < pathLimit)
    (hloop : s.reach toLast (Path.join cwd path) ≠ .error .linkLoop) :
    { s with cwd := place }.reach toLast path = s.reach toLast (Path.join cwd path) := by
  cases habs : Path.isAbsolute path with
  | true =>
    have hjoin : Path.join cwd path = path := by simp [Path.join, habs]
    rw [hjoin, reach_of_isAbsolute habs]
  | false =>
    obtain ⟨-, hreach⟩ := reach_found_dir h
    obtain ⟨left, hle, hleft⟩ := exists_reachFrom_append toLast (endsInSlash path) hreach
      (get?_of_locate h) (Path.steps_ne_nil hpath habs)
    obtain ⟨hjoin, hself⟩ := not_refused_of_join hpath htaken
    have hjoined : s.reach toLast (Path.join cwd path) =
        s.reachFrom toLast left (endsInSlash path) place (steps path) := by
      rw [reach, if_neg hjoin, endsInSlash_join hpath, steps_join habs,
        startOf_join habs, hleft]
    rw [hjoined] at hloop ⊢
    have hstart : startOf path place = place := by simp [startOf, habs]
    rw [reach, if_neg hself, hstart]
    exact (reachFrom_cwd place).trans (reachFrom_more hloop hle)

theorem locate_eq_of_reach {other : String} (h : t.reach true path = s.reach true other) :
    t.locate path = s.locate other := by
  rw [locate, locate, h]

theorem locate_of_isAbsolute (habs : Path.isAbsolute path = true) (place : Place) :
    { s with cwd := place }.locate path = s.locate path :=
  locate_eq_of_reach (reach_of_isAbsolute habs place)

/-- What a path leads to from a directory is what it leads to behind the path of that directory, if
the system takes the latter path and there are not too many links on both ways together. -/
theorem locate_from_dir (h : s.locate cwd = .ok (place, .dir entries)) (hpath : path ≠ "")
    (htaken : Text.byteSize (Path.join cwd path) < pathLimit)
    (hloop : s.locate (Path.join cwd path) ≠ .error .linkLoop) :
    { s with cwd := place }.locate path = s.locate (Path.join cwd path) := by
  refine locate_eq_of_reach (reach_from_dir h hpath htaken fun hreach => hloop ?_)
  rw [locate, hreach]

/-! ## The link to the working directory -/

theorem enter_eq (h : s.at? ["proc", "self"] ≠ some .dir) (place : Place) :
    s.enter place = { s with cwd := place } := by
  unfold enter putLink put
  exact withRoot_eq_self _ (Node.update_of_not_dir _ "cwd" fun entries heq =>
    h (at?_eq_dir_iff.2 ⟨entries, heq⟩))

/-- The tree without the link by which a process finds its directory.  Other processes see the same.
-/
def shared (s : Store) : Store :=
  s.erase selfLink

theorem shared_eq (h : s.at? ["proc", "self"] ≠ some .dir) : s.shared = s := by
  unfold shared erase
  exact withRoot_eq_self _ (Node.update_of_not_dir _ "cwd" fun entries heq =>
    h (at?_eq_dir_iff.2 ⟨entries, heq⟩))

theorem item_get?_update_selfLink {f : Option Node → Option Node} (hq : ¬selfLink <+: q) :
    ((s.root.update f selfLink).get? q).map Node.item = s.at? q := by
  have hq' : ¬["proc", "self"] ++ ["cwd"] <+: q := hq
  exact item_get?_update_outside hq'

theorem at?_shared_outside (hq : ¬selfLink <+: q) : s.shared.at? q = s.at? q := by
  rw [at?, get?, shared, root_erase (by decide)]
  exact item_get?_update_selfLink hq

theorem at?_shared_below (r : Place) : s.shared.at? (selfLink ++ r) = none := by
  rw [at?, get?, shared, root_erase (by decide)]
  by_cases hdir : s.at? ["proc", "self"] = some .dir
  · exact congrArg (Option.map Node.item) (get?_update_below hdir (by decide) r)
  · have hroot := Node.update_of_not_dir (fun _ => none) "cwd" fun entries heq =>
      hdir (at?_eq_dir_iff.2 ⟨entries, heq⟩)
    have hnone : s.at? (["proc", "self"] ++ "cwd" :: r) = none :=
      at?_append_eq_none (List.cons_ne_nil "cwd" r) hdir
    exact (congrArg (fun root => (Node.get? (selfLink ++ r) root).map Node.item) hroot).trans hnone

theorem not_below_of_at?_shared {item : Item} (h : s.shared.at? q = some item) :
    ¬selfLink <+: q := by
  rintro ⟨r, rfl⟩
  rw [at?_shared_below] at h
  cases h

theorem at?_of_shared {item : Item} (h : s.shared.at? q = some item) : s.at? q = some item := by
  rwa [at?_shared_outside (not_below_of_at?_shared h)] at h

theorem at?_enter (hq : ¬selfLink <+: q) (place : Place) : (s.enter place).at? q = s.at? q := by
  rw [at?, get?, enter, putLink, root_put (by decide)]
  exact item_get?_update_selfLink hq

theorem at?_enter_of_shared {item : Item} (h : s.shared.at? q = some item) (place : Place) :
    (s.enter place).at? q = some item := by
  rw [at?_enter (not_below_of_at?_shared h), at?_of_shared h]

@[simp] theorem cwd_enter (place : Place) : (s.enter place).cwd = place :=
  cwd_put ..

theorem at?_ne_none_of_imp (h : ∀ item, s.at? q = some item → t.at? q = some item)
    (hs : s.at? q ≠ none) : t.at? q ≠ none := by
  obtain ⟨item, hitem⟩ := Option.ne_none_iff_exists'.1 hs
  simp [h item hitem]

theorem keepsWays_shared : KeepsWays s.shared s :=
  fun _ _ hat _ => at?_of_shared hat

/-- What a path leads to without the link of the process, it leads to. -/
theorem locate_of_shared {content : ByteArray} {executable : Bool}
    (h : s.shared.locate path = .ok (q, .file content executable)) :
    s.locate path = .ok (q, .file content executable) := by
  have hfile := at?_eq_file_iff.2 (get?_of_locate h)
  exact locate_file_mono keepsWays_shared (cwd_erase _).symm
    (at?_ne_none_of_imp fun _ => at?_of_shared) h ((at?_of_shared hfile).trans hfile.symm)

theorem locate_dir_of_shared (h : s.shared.locate path = .ok (q, .dir entries)) :
    ∃ entries', s.locate path = .ok (q, .dir entries') :=
  locate_dir_mono keepsWays_shared (cwd_erase _).symm
    (at?_ne_none_of_imp fun _ => at?_of_shared) h

/-- A process that entered a directory finds what the path behind that of the directory leads to. -/
theorem locate_enter {content : ByteArray} {executable : Bool}
    (h : s.shared.locate cwd = .ok (place, .dir entries)) (hpath : path ≠ "")
    (hfile : s.shared.locate (Path.join cwd path) = .ok (q, .file content executable)) :
    (s.enter place).locate path = .ok (q, .file content executable) := by
  have hfrom : { s.shared with cwd := place }.locate path = .ok (q, .file content executable) := by
    have htaken := Nat.not_le.1 (not_or.1 (not_refused_of_locate hfile)).2
    rw [locate_from_dir h hpath htaken (by rw [hfile]; nofun), hfile]
  have hat := at?_eq_file_iff.2 (get?_of_locate hfile)
  exact locate_file_mono (s := { s.shared with cwd := place })
    (fun _ _ hat _ => at?_enter_of_shared hat place) (cwd_enter place)
    (at?_ne_none_of_imp fun _ hitem => at?_enter_of_shared hitem place) hfrom
    ((at?_enter_of_shared hat place).trans hat.symm)

end Store

end Autotree
