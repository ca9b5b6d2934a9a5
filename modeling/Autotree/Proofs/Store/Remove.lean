import Autotree.Proofs.Store.Reach
import Autotree.Store.Files

/-!
# Removing trees

Removing what a path leads to takes away the tree there and nothing else (`removeAll_of_dir`).
The directory at the top is removed last and by its path; when that path cannot be used for it,
the directory stays behind empty.
-/

namespace Autotree.Store

variable {s t : Store} {place q : Place} {path : String} {item : Item}
  {entries : List (String × Node)}

/-! ## Changes of whole trees -/

/-- Nothing is below a place where nothing is. -/
theorem at?_eq_none_of_prefix (h : s.at? place = none) (hq : place <+: q) : s.at? q = none := by
  obtain ⟨r, rfl⟩ := hq
  by_cases hr : r = []
  · rw [hr, List.append_nil, h]
  · exact at?_append_eq_none hr (by simp [h])

/-- Every place but the root is an entry of a directory. -/
theorem exists_entry_of_at? (h : s.at? place = some item) (hplace : place ≠ []) :
    ∃ dir name, place = dir ++ [name] ∧ s.at? dir = some .dir ∧ isEntryName name = true := by
  obtain ⟨dir, name, rfl⟩ : ∃ dir name, place = dir ++ [name] :=
    ⟨place.dropLast, place.getLast hplace, (List.dropLast_concat_getLast hplace).symm⟩
  exact ⟨dir, name, rfl, at?_eq_dir_of_below (List.cons_ne_nil name []) h, isEntryName_of_at? h⟩

theorem at?_putDir_tree (h : s.at? place = some .dir) (q : Place) :
    (s.putDir place).at? q = if place <+: q ∧ q ≠ place then none else s.at? q := by
  by_cases hplace : place = []
  · subst hplace
    cases q with
    | nil => rfl
    | cons name q => rfl
  · obtain ⟨dir, name, rfl, hdir, hname⟩ := exists_entry_of_at? h hplace
    rw [at?, get?, putDir, root_put hplace]
    by_cases hq : dir ++ [name] <+: q
    · obtain ⟨r, rfl⟩ := hq
      rw [get?_update_below hdir hname]
      cases r with
      | nil => simp [h, Node.item]
      | cons next r => simp [Node.get?]
    · rw [item_get?_update_outside hq, if_neg fun hboth => hq hboth.1]

theorem at?_erase_tree (h : s.at? place = some item) (hplace : place ≠ []) (q : Place) :
    (s.erase place).at? q = if place <+: q then none else s.at? q := by
  obtain ⟨dir, name, rfl, hdir, hname⟩ := exists_entry_of_at? h hplace
  rw [at?, get?, root_erase hplace]
  by_cases hq : dir ++ [name] <+: q
  · obtain ⟨r, rfl⟩ := hq
    rw [get?_update_below hdir hname, if_pos (List.prefix_append _ r)]
    rfl
  · rw [item_get?_update_outside hq, if_neg hq]

/-- The root directory cannot be erased. -/
theorem erase_nil (s : Store) : s.erase [] = s := rfl

/-! ## Cleared trees -/

/-- Nothing below a place is left, and everything outside its tree is as it was. -/
structure Cleared (place : Place) (s t : Store) : Prop where
  cwd_eq : t.cwd = s.cwd
  outside : ∀ q, ¬ place <+: q → t.at? q = s.at? q
  below : ∀ q, place <+: q → q ≠ place → t.at? q = none
  top : t.at? place = none ∨ t.at? place = s.at? place

theorem cleared_putDir (h : s.at? place = some .dir) : Cleared place s (s.putDir place) where
  cwd_eq := cwd_putDir place
  outside q hq := by rw [at?_putDir_tree h, if_neg fun hboth => hq hboth.1]
  below q hq hne := by rw [at?_putDir_tree h, if_pos ⟨hq, hne⟩]
  top := .inr (by rw [at?_putDir_tree h, if_neg fun hboth => hboth.2 rfl])

theorem Cleared.at?_or (h : Cleared place s t) (q : Place) :
    t.at? q = s.at? q ∨ t.at? q = none := by
  by_cases hq : place <+: q
  · by_cases hne : q = place
    · subst hne
      exact h.top.symm
    · exact .inr (h.below q hq hne)
  · exact .inl (h.outside q hq)

/-- The emptied directory can be erased as well. -/
theorem Cleared.erase (h : Cleared place s t) (htop : t.at? place = some item) :
    Cleared place s (t.erase place) := by
  by_cases hplace : place = []
  · subst hplace
    rwa [erase_nil]
  · have hat := at?_erase_tree htop hplace
    refine ⟨(cwd_erase place).trans h.cwd_eq, ?_, ?_, ?_⟩
    · intro q hq
      rw [hat, if_neg hq, h.outside q hq]
    · intro q hq hne
      rw [hat, if_pos hq]
    · rw [hat, if_pos (List.prefix_refl _)]
      exact .inl rfl

theorem Cleared.waysAgree (h : Cleared place s t) : WaysAgree s t := by
  intro p item other hs ht _ _
  rcases h.at?_or p with heq | hnone
  · rw [heq, hs] at ht
    exact Option.some.inj ht
  · rw [hnone] at ht
    cases ht

/-! ## Removing by a path -/

theorem removeEmptied_eq_ok (h : s.removeEmptied path = .ok t) :
    t = s ∨ ∃ place entries, s.reachName path = .ok (.found place (.dir entries)) ∧
      t = s.erase place := by
  unfold removeEmptied at h
  split at h
  · cases h
  · split at h
    · cases h
    · split at h
      · cases h
        exact .inl rfl
      · split at h
        · next place entries hreach =>
          cases h
          exact .inr ⟨place, entries, hreach, rfl⟩
        · cases h
        · cases h
          exact .inl rfl
        · cases h
          exact .inl rfl
        · cases h

/-- Emptying a directory does not move the way to it. -/
theorem place_eq_of_reachName {there : Place} {entries' : List (String × Node)}
    (h : s.reach false path = .ok (.found place (.dir entries))) (hclear : Cleared place s t)
    (ht : t.reachName path = .ok (.found there (.dir entries'))) : there = place := by
  unfold Store.reach at h
  unfold reachName at ht
  split at h
  · cases h
  · next hpath =>
    rw [if_neg hpath, hclear.cwd_eq] at ht
    exact (reachFrom_dir_unique hclear.waysAgree h ht).symm

/-- A removal by a path that leads to a directory takes away the tree there, or all of it but its
emptied top. -/
theorem removeAll_of_dir (h : s.reach false path = .ok (.found place (.dir entries))) :
    Cleared place s (s.removeAll path).2 := by
  have hdir : s.at? place = some .dir := at?_eq_dir_iff.2 ⟨entries, reach_holds h⟩
  have hempty := cleared_putDir hdir
  unfold removeAll
  simp only [h]
  split
  · next t hremove =>
    rcases removeEmptied_eq_ok hremove with rfl | ⟨there, entries', hname, rfl⟩
    · exact hempty
    · obtain rfl := place_eq_of_reachName h hempty hname
      exact hempty.erase (at?_eq_dir_iff.2 ⟨entries', reachName_holds hname⟩)
  · exact hempty

/-! ## The last link of a path -/

/-- A walk that goes on does not end at a link, so it may as well follow one at its end. -/
theorem walk_follow {trail : Place} {node : Node} {slash : Bool} {xs : List String}
    (h : (s.walk false slash trail node xs).onward? ≠ none) :
    s.walk true slash trail node xs = s.walk false slash trail node xs := by
  induction xs generalizing trail node with
  | nil => rfl
  | cons step xs ih =>
    rw [walk] at h
    rw [walk, walk]
    split at h
    · next hdot => rw [if_pos hdot, if_pos hdot, ih h]
    · next hdot =>
      rw [if_neg hdot, if_neg hdot]
      split at h
      · next hup =>
        rw [if_pos hup, if_pos hup]
        split at h
        · next parent hparent => rw [ih h]
        · exact absurd rfl h
      · next hup =>
        rw [if_neg hup, if_neg hup]
        split at h
        · exact absurd rfl h
        next hshort =>
        rw [if_neg hshort, if_neg hshort]
        split at h
        · rfl
        · rw [ih h]
        · rfl
        · split at h
          · exact absurd rfl h
          · next hlast => rw [if_neg hlast, if_neg (by simp)]

theorem reachFrom_follow {slash : Bool} {start : Place} {xs : List String} {links : Nat}
    (h : s.reachFrom false links slash start xs = .ok (.found place (.dir entries))) :
    s.reachFrom true links slash start xs = .ok (.found place (.dir entries)) := by
  fun_induction reachFrom s false links slash start xs with
  | case1 => cases h
  | case2 links slash start xs node hnode r hw =>
    cases h
    rw [reachFrom, hnode]
    simp only [walk_follow (by rw [hw]; exact Option.some_ne_none _), hw]
  | case3 => cases h
  | case4 => cases h
  | case5 => cases h
  | case6 slash start xs node hnode target dir rest hw links htarget ih =>
    rw [reachFrom, hnode]
    simp only [walk_follow (by rw [hw]; exact Option.some_ne_none _), hw, if_neg htarget, ih h]

theorem locate_of_reach (h : s.reach false path = .ok (.found place (.dir entries))) :
    s.locate path = .ok (place, .dir entries) := by
  rw [locate_eq_ok_iff]
  unfold Store.reach at h ⊢
  split at h
  · cases h
  · next hpath =>
    rw [if_neg hpath]
    exact reachFrom_follow h

end Autotree.Store
