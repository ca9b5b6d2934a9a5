import Autotree.Proofs.Store.Copy
import Autotree.Proofs.Store.Joined
import Autotree.Proofs.Store.Remove

/-!
# Changes in one tree

`Fills q s t` says that a change stays at and below one place, and takes no directory and no link
away there.  So paths to what is elsewhere go on leading there.  Making a directory by a path whose
parent exists (`makes_of_reachName`) and copying a file (`copyFile_apply`) are such changes, and
what they leave is known exactly.
-/

namespace Autotree

/-- Putting in place what is there changes nothing. -/
theorem Node.update_eq_self {node n : Node} {p : Place} (h : node.get? p = some n) :
    node.update (fun _ => some n) p = node := by
  induction p generalizing node with
  | nil =>
    rw [Node.get?_nil] at h
    cases h
    rfl
  | cons name p ih =>
    cases node with
    | file => cases h
    | link => cases h
    | dir entries =>
      obtain ⟨m, hm, hbelow⟩ := Option.bind_eq_some_iff.1 h
      rw [Node.update, updateEntry_eq_self]
      rw [hm]
      cases p with
      | nil =>
        rw [Node.get?_nil] at hbelow
        exact hbelow.symm
      | cons next p => exact congrArg some (ih hbelow)

namespace Store

variable {s t u : Store} {place dir p q r : Place} {name path base : String} {node : Node}
  {item : Item} {reach : Reach} {entries : List (String × Node)} {content : ByteArray}
  {executable : Bool}

theorem putFile_eq_self (h : s.at? place = some (.file content executable)) :
    s.putFile place content executable = s :=
  withRoot_eq_self _ (Node.update_eq_self (at?_eq_file_iff.1 h))

/-! ## Changes at and below a place -/

/-- A change at and below a place, which takes no directory or link away. -/
structure Fills (q : Place) (s t : Store) : Prop where
  cwd_eq : t.cwd = s.cwd
  outside : ∀ x, ¬ q <+: x → t.at? x = s.at? x
  /-- A tree apart from the place is the same, with the order of its listings. -/
  apart : ∀ x, Apart q x → t.get? x = s.get? x
  keepsWays : KeepsWays s t
  at?_ne_none : ∀ x, s.at? x ≠ none → t.at? x ≠ none
  /-- No link is added. -/
  link_of_link : ∀ x target, t.at? x = some (.link target) → s.at? x = some (.link target)

namespace Fills

theorem refl (s : Store) : Fills q s s :=
  ⟨rfl, fun _ _ => rfl, fun _ _ => rfl, fun _ _ h _ => h, fun _ => id, fun _ _ => id⟩

theorem trans (h : Fills q s t) (h' : Fills q t u) : Fills q s u where
  cwd_eq := h'.cwd_eq.trans h.cwd_eq
  outside x hx := (h'.outside x hx).trans (h.outside x hx)
  apart x hx := (h'.apart x hx).trans (h.apart x hx)
  keepsWays x item hs hitem := h'.keepsWays x item (h.keepsWays x item hs hitem) hitem
  at?_ne_none x hs := h'.at?_ne_none x (h.at?_ne_none x hs)
  link_of_link x target hu := h.link_of_link x target (h'.link_of_link x target hu)

/-- A change at and below a place is one below what is above the place. -/
theorem mono (h : Fills (q ++ r) s t) : Fills q s t where
  cwd_eq := h.cwd_eq
  outside x hx := h.outside x fun hpre => hx ((List.prefix_append q r).trans hpre)
  apart x hx := h.apart x (by simpa using hx.append r [])
  keepsWays := h.keepsWays
  at?_ne_none := h.at?_ne_none
  link_of_link := h.link_of_link

/-- A change of what stands at one place, where no directory and no link was. -/
theorem of_place (hcwd : t.cwd = s.cwd)
    (hat : ∀ x, t.at? x = if x = place then some item else s.at? x)
    (hnew : ∀ target, item ≠ .link target) (hold : ∀ old, s.at? place = some old → ¬ old.LeadsOn)
    (hget : ∀ x, ¬ place <+: x → ¬ x <+: place → t.get? x = s.get? x) : Fills place s t where
  cwd_eq := hcwd
  outside x hx := by
    rw [hat, if_neg fun heq : x = place => hx (heq ▸ List.prefix_refl _)]
  apart x hx := hget x hx.1 hx.2
  keepsWays x old hs hitem := by
    rw [hat, if_neg fun heq : x = place => hold old (heq ▸ hs) hitem]
    exact hs
  at?_ne_none x hs := by
    rw [hat]
    split
    · exact Option.some_ne_none item
    · exact hs
  link_of_link x target ht := by
    rw [hat] at ht
    split at ht
    · exact absurd (Option.some.inj ht) (hnew target)
    · exact ht

/-- A path to a directory apart from the change leads to the same tree. -/
theorem locate_dir (h : Fills q s t) (hlocate : s.locate path = .ok (p, .dir entries))
    (hapart : Apart q p) : t.locate path = .ok (p, .dir entries) := by
  obtain ⟨entries', hlocate'⟩ :=
    locate_dir_mono h.keepsWays h.cwd_eq (h.at?_ne_none _) hlocate
  have hget := h.apart p hapart
  rw [get?_of_locate hlocate, get?_of_locate hlocate'] at hget
  cases hget
  exact hlocate'

/-- A path to a file outside of the change leads to the same file. -/
theorem locate_file (h : Fills q s t) (hlocate : s.locate path = .ok (p, .file content executable))
    (hp : ¬ q <+: p) : t.locate path = .ok (p, .file content executable) :=
  locate_file_mono h.keepsWays h.cwd_eq (h.at?_ne_none _) hlocate (h.outside p hp)

end Fills

section Changes

variable (hdir : s.at? dir = some .dir) (hname : isEntryName name = true)

include hdir hname

theorem fills_putDir (hnone : s.at? (dir ++ [name]) = none) :
    Fills (dir ++ [name]) s (s.putDir (dir ++ [name])) :=
  .of_place (cwd_putDir _) (at?_putDir hdir hname (by simp [hnone])) nofun
    (fun old hold => by rw [hnone] at hold; cases hold) fun _ => get?_put_of_apart _

theorem fills_putFile (hold : s.at? (dir ++ [name]) = none ∨
      ∃ old mode, s.at? (dir ++ [name]) = some (.file old mode))
    (content : ByteArray) (executable : Bool) :
    Fills (dir ++ [name]) s (s.putFile (dir ++ [name]) content executable) := by
  have hitem : ∀ old, s.at? (dir ++ [name]) = some old → ¬ old.LeadsOn := by
    intro old hat
    rcases hold with hnone | ⟨content, mode, hfile⟩
    · rw [hnone] at hat
      cases hat
    · rw [hfile] at hat
      cases hat
      exact id
  have hbelow : s.at? (dir ++ [name]) ≠ some .dir := fun hat => hitem _ hat trivial
  exact .of_place (cwd_putFile ..) (at?_putFile hdir hname hbelow content executable) nofun hitem
    fun _ => get?_put_of_apart _

end Changes

/-! ## Names in a directory -/

/-- The directory that names are joined to by a path: for the empty path it is the current one. -/
def Opens (s : Store) (path : String) (dir : Place) : Prop :=
  ∃ entries, s.locate path = .ok (dir, .dir entries) ∨
    path = "" ∧ dir = s.cwd ∧ s.get? dir = some (.dir entries)

namespace Opens

theorem reachFrom (h : s.Opens base dir) :
    ∃ entries, s.get? dir = some (.dir entries) ∧
      s.reachFrom true linkLimit (endsInSlash base) (startOf base s.cwd) (steps base) =
        .ok (.found dir (.dir entries)) := by
  obtain ⟨entries, hlocate | ⟨rfl, rfl, hget⟩⟩ := h
  · exact ⟨entries, get?_of_locate hlocate, (reach_found_dir hlocate).2⟩
  · refine ⟨entries, hget, ?_⟩
    have hstart : startOf "" s.cwd = s.cwd := rfl
    rw [hstart, steps_empty, Store.reachFrom, hget]
    simp only [walk, List.reverse_reverse]

theorem at?_eq (h : s.Opens base dir) : s.at? dir = some .dir := by
  obtain ⟨entries, hget, -⟩ := h.reachFrom
  exact at?_eq_dir_iff.2 ⟨entries, hget⟩

/-- A name that is joined names what the directory has of that name, or the system does not take
it. -/
theorem reachName_cases (h : s.Opens base dir) (hname : isEntryName name = true) :
    ¬ Fits (Path.join base name) ∧ s.reachName (Path.join base name) = .error .nameTooLong ∨
      ∃ reach, s.reachName (Path.join base name) = .ok reach ∧ reach.place = dir ++ [name] ∧
        reach.item? = s.at? (dir ++ [name]) := by
  obtain ⟨entries, hget, hbase⟩ := h.reachFrom
  have hstep := isStep_of_isEntryName hname
  by_cases hrefused : Refused (Path.join base name)
  · refine .inl ⟨fun hfits => hfits.taken hrefused, ?_⟩
    rw [reachName, if_pos hrefused, refusal, if_neg (join_ne_empty hstep.1)]
  have hreach := reachName_of_reachFrom [] hbase hname (by simp [steps_join_name hstep]) (by simp)
    (startOf_join_name hstep base s.cwd) hrefused
  by_cases hlong : Overlong name
  · rw [if_pos hlong] at hreach
    exact .inl ⟨fun hfits => hfits.name_join hstep hlong, hreach⟩
  · rw [if_neg hlong] at hreach
    have hat : s.at? (dir ++ [name]) = (entries.lookup name).map Node.item := by
      rw [at?, get?_entry hget]
    refine .inr ⟨_, hreach, ?_⟩
    rw [hat]
    cases entries.lookup name <;> exact ⟨rfl, rfl⟩

theorem reachName_join (h : s.Opens base dir) (hname : isEntryName name = true)
    (hfits : Fits (Path.join base name)) :
    ∃ reach, s.reachName (Path.join base name) = .ok reach ∧ reach.place = dir ++ [name] ∧
      reach.item? = s.at? (dir ++ [name]) :=
  (h.reachName_cases hname).resolve_left fun hnot => hnot.1 hfits

theorem mono (h : s.Opens path dir) (hkeep : KeepsWays s t) (hcwd : t.cwd = s.cwd)
    (hstart : s.at? s.cwd ≠ none → t.at? s.cwd ≠ none) : t.Opens path dir := by
  obtain ⟨entries, hlocate | ⟨hpath, hdir, hget⟩⟩ := h
  · obtain ⟨entries', hlocate'⟩ := locate_dir_mono hkeep hcwd hstart hlocate
    exact ⟨entries', .inl hlocate'⟩
  · have hkept := hkeep dir .dir (at?_eq_dir_iff.2 ⟨entries, hget⟩) trivial
    obtain ⟨entries', hget'⟩ := at?_eq_dir_iff.1 hkept
    exact ⟨entries', .inr ⟨hpath, hdir.trans hcwd.symm, hget'⟩⟩

end Opens

theorem opens_of_locate (h : s.locate path = .ok (dir, .dir entries)) : s.Opens path dir :=
  ⟨entries, .inl h⟩

/-- A file is written where the name of its path leads, if no link stands there. -/
theorem reachFile_of_reachName (h : s.reachName path = .ok reach)
    (hslash : endsInSlash path = false) (hlink : ∀ target, reach.item? ≠ some (.link target)) :
    s.reachFile path = .ok reach := by
  unfold reachName at h
  split at h
  · cases h
  · next hpath =>
    have hlimit : linkLimit = 39 + 1 := rfl
    rw [reachFile, if_neg hpath, hlimit, reachFileFrom, if_neg fun hempty => hpath (.inl hempty)]
    simp only [h, hslash, Bool.false_eq_true, if_false]
    cases reach with
    | missing place => rfl
    | found place node =>
      cases node with
      | link target => exact absurd rfl (hlink target)
      | file content executable => rfl
      | dir entries => rfl

/-- A path that names a directory leads to it, also with a slash at its end. -/
theorem locate_of_reachName (h : s.reachName path = .ok (.found place (.dir entries))) :
    s.locate path = .ok (place, .dir entries) := by
  unfold reachName at h
  split at h
  · cases h
  · next hpath =>
    rw [locate_eq_ok_iff, Store.reach, if_neg hpath]
    exact reachFrom_congr_dots (reachFrom_follow h) rfl

end Store

namespace FileAction

open Store Stateful

variable {s t : Store} {source target path : String} {place q : Place}
  {reach : Reach} {content : ByteArray} {executable : Bool}

/-! ## Steps of a copy -/

/-- A directory is made at a place, or is there already and is left as it is. -/
structure Makes (path : String) (q : Place) (s t : Store) : Prop where
  run : makeDirs path s = (.ok (), t)
  fills : Fills q s t
  at?_eq : ∀ x, t.at? x = if x = q then some .dir else s.at? x
  located : ∃ entries, t.locate path = .ok (q, .dir entries)
  eq_self : s.at? q = some .dir → t = s

theorem makes_of_found {entries : List (String × Node)}
    (h : s.reachName path = .ok (.found place (.dir entries))) : Makes path place s s := by
  have hlocate := locate_of_reachName h
  have hdir : s.at? place = some .dir := at?_eq_dir_iff.2 ⟨entries, get?_of_locate hlocate⟩
  have hpath : path ≠ "" := fun hempty => (reach_found_dir hlocate).1 (.inl hempty)
  have hmake : s.makeDir path = .error .alreadyExists := by rw [makeDir, h]
  have hisDir : s.isDir path = true := isDir_eq_true_iff.2 ⟨place, entries, hlocate⟩
  refine ⟨?_, .refl s, fun x => ?_, ⟨entries, hlocate⟩, fun _ => rfl⟩
  · rw [makeDirs, ofOutcome_apply, Store.makeDirs, if_neg hpath, hmake]
    simp only [hisDir, if_true]
    rfl
  · split
    · next heq => rw [heq, hdir]
    · rfl

theorem makes_of_missing (h : s.reachName path = .ok (.missing place)) :
    Makes path place s (s.putDir place) := by
  obtain ⟨hnone, dir, name, rfl, hname, hdir⟩ := reachName_holds h
  have hfree : s.at? (dir ++ [name]) = none := at?_eq_none_iff.2 hnone
  have hpath : path ≠ "" := by
    rintro rfl
    cases h
  have hmake : s.makeDir path = .ok (s.putDir (dir ++ [name])) := by rw [makeDir, h]
  have hat := at?_putDir hdir hname (by simp [hfree])
  have hfills := fills_putDir hdir hname hfree
  have hmade : (s.putDir (dir ++ [name])).at? (dir ++ [name]) = some .dir := by
    rw [hat, if_pos rfl]
  refine ⟨?_, hfills, hat, ?_, fun hother => by rw [hfree] at hother; cases hother⟩
  · rw [makeDirs, ofOutcome_apply, Store.makeDirs, if_neg hpath, hmake]
    rfl
  · -- what was missing on the way is found now
    obtain ⟨reach, hreach, hplace, hitem⟩ := reachName_kept hfills.keepsWays hfills.cwd_eq
      (hfills.at?_ne_none _) h (.inr hmade)
    replace hplace : reach.place = dir ++ [name] := hplace
    replace hitem : reach.item? = some .dir := hitem.trans hmade
    cases reach with
    | missing => cases hitem
    | found there node =>
      obtain rfl : there = dir ++ [name] := hplace
      cases node with
      | file => cases hitem
      | link => cases hitem
      | dir entries => exact ⟨entries, locate_of_reachName hreach⟩

/-- A directory can be made by a path whose name is that of a directory or of nothing. -/
theorem makes_of_reachName (h : s.reachName path = .ok reach)
    (hitem : reach.item? = none ∨ reach.item? = some .dir) : ∃ t, Makes path reach.place s t := by
  cases reach with
  | missing place => exact ⟨_, makes_of_missing h⟩
  | found place node =>
    cases node with
    | file => exact hitem.elim nofun nofun
    | link => exact hitem.elim nofun nofun
    | dir entries => exact ⟨s, makes_of_found h⟩

/-- A file is copied to where the path of the target leads, to a file or a free place elsewhere. -/
theorem copyFile_apply
    (hsource : s.locate source = .ok (place, .file content executable))
    (htarget : s.reachFile target = .ok reach)
    (hold : reach.item? = none ∨ ∃ old mode, reach.item? = some (.file old mode))
    (hne : reach.place ≠ place) :
    copyFile source target s = (.ok (), s.putFile reach.place content executable) := by
  have hcopy : s.copyFile source target = .ok (s.putFile reach.place content executable) := by
    rw [Store.copyFile, hsource]
    simp only [htarget]
    cases reach with
    | missing there => rfl
    | found there node =>
      cases node with
      | link => exact hold.elim nofun nofun
      | dir => exact hold.elim nofun nofun
      | file =>
        replace hne : there ≠ place := hne
        simp only [if_neg hne, Reach.place]
  unfold copyFile
  rw [get_bind, hcopy]
  rfl

end FileAction

end Autotree
