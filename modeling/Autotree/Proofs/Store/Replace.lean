import Autotree.Proofs.Number.Rounding
import Autotree.Proofs.Store.Confined

/-!
# Replacing a file in one step

A text is written to a temporary file with a fresh name, which is then renamed.  When that
succeeds, the store differs from the one with the directory made at a single place, which holds
the text (`Replaced`); when it fails, at no place at all (`writeAtomic_error`): the temporary file
is gone either way.  Where no link stands, both are said of the place that a path names
(`writeAtomic_join_replaced`, `writeAtomic_join_error`).
-/

namespace Autotree

namespace FileAction

open Store Stateful

variable {s t u : Store} {dir place q : Place} {name path parent text : String}
  {entries : List (String × Node)} {taken : List String} {e : Failure}

/-! ## Fresh names -/

theorem paddedDigits_injective {width m n : Nat}
    (h : Number.paddedDigits width m = Number.paddedDigits width n) : m = n := by
  have hvalue := Number.natural?_paddedDigits width m
  rw [h, Number.natural?_paddedDigits] at hvalue
  exact (Option.some.inj hvalue).symm

/-- Among one more candidates than there are names, one is not taken. -/
theorem exists_freshName (taken : List String) :
    ∃ n, freshName taken = ".tmp" ++ Number.paddedDigits 6 n ∧
      ".tmp" ++ Number.paddedDigits 6 n ∉ taken := by
  let candidate : Nat → String := fun n => ".tmp" ++ Number.paddedDigits 6 n
  cases hfresh : ((List.range (taken.length + 1)).map candidate).find? (!taken.contains ·) with
  | none =>
    have hsubset : (List.range (taken.length + 1)).map candidate ⊆ taken := by
      intro name hname
      simpa using List.find?_eq_none.1 hfresh name hname
    have hnodup : ((List.range (taken.length + 1)).map candidate).Nodup := by
      refine List.Pairwise.map candidate (fun m n hne heq => hne ?_) List.nodup_range
      exact paddedDigits_injective ((String.append_right_inj ".tmp").1 heq)
    have hlength := hnodup.length_le_of_subset hsubset
    rw [List.length_map, List.length_range] at hlength
    omega
  | some found =>
    obtain ⟨n, -, rfl⟩ := List.mem_map.1 (List.mem_of_find?_eq_some hfresh)
    have hfree : candidate n ∉ taken := by simpa using List.find?_some hfresh
    refine ⟨n, ?_, hfree⟩
    rw [freshName]
    exact congrArg (·.getD ".tmp") hfresh

theorem freshName_not_mem (taken : List String) : freshName taken ∉ taken := by
  obtain ⟨n, heq, hnot⟩ := exists_freshName taken
  rwa [heq]

theorem isEntryName_freshName (taken : List String) : isEntryName (freshName taken) = true := by
  obtain ⟨n, heq, -⟩ := exists_freshName taken
  have hlist : (".tmp" ++ Number.paddedDigits 6 n).toList =
      ['.', 't', 'm', 'p'] ++ (Number.paddedDigits 6 n).toList := String.toList_append
  have hne : ∀ other : String, other.toList.length < 4 →
      ".tmp" ++ Number.paddedDigits 6 n ≠ other := by
    intro other hother hsame
    rw [← hsame, hlist, List.length_append] at hother
    simp at hother
  have hslash : '/' ∉ (".tmp" ++ Number.paddedDigits 6 n).toList := by
    rw [hlist]
    intro hmem
    rcases List.mem_append.1 hmem with hmem | hmem
    · exact absurd hmem (by decide)
    · exact absurd ((Number.isDigits_paddedDigits 6 n).2 _ hmem) (by decide)
  rw [heq, isEntryName_iff]
  exact ⟨⟨hne "" (by decide), hslash⟩, hne "." (by decide), hne ".." (by decide)⟩

/-! ## Renaming -/

theorem renameFile_eq_ok {source : Place} {target : String}
    (h : s.renameFile source target = .ok t) :
    ∃ content executable reach, s.get? source = some (.file content executable) ∧
      s.reachName target = .ok reach ∧ endsSpecial target = false ∧
      (∀ place node, reach = .found place node → node.isDir = false) ∧
      t = (s.erase source).putFile reach.place content executable := by
  unfold renameFile at h
  split at h
  · next content executable reach hsource htarget =>
    split at h
    · cases h
    · next hspecial =>
      split at h
      · cases h
      · refine ⟨content, executable, reach, hsource, htarget, by simpa using hspecial, ?_⟩
        cases reach with
        | found place node =>
          simp only at h
          split at h
          · cases h
          · next hnode =>
            cases h
            exact ⟨fun _ _ heq => by cases heq; simpa using hnode, rfl⟩
        | missing place =>
          cases h
          exact ⟨nofun, rfl⟩
  · cases h
  · cases h

/-- A path that can be renamed to ends in a name, and its parent in the directory before it. -/
theorem steps_of_not_endsSpecial (h : endsSpecial path = false) :
    ∃ parent dots name, Path.parent? path = some parent ∧ isEntryName name = true ∧
      steps path = steps parent ++ dots ++ [name] ∧ ∀ d ∈ dots, d = "." := by
  unfold endsSpecial at h
  split at h
  · cases h
  · next name hlast =>
    simp only [Bool.or_eq_false_iff, decide_eq_false_iff_not] at h
    obtain ⟨front, hsteps⟩ := List.getLast?_eq_some_iff.1 hlast
    obtain ⟨parent, dots, hparent, hfront, hdots⟩ := exists_parent hsteps h.1
    have hname : isEntryName name = true :=
      isEntryName_iff.2 ⟨isStep_of_mem_steps (by rw [hsteps]; simp), h⟩
    exact ⟨parent, dots, name, hparent, hname, by rw [hsteps, hfront], hdots⟩

/-- The entry that a path names in the directory before it. -/
theorem place_of_reachName {dots : List String} {reach : Reach}
    (hlocate : t.locateBase parent = .ok (dir, .dir entries)) (hname : isEntryName name = true)
    (hsteps : steps path = steps parent ++ dots ++ [name]) (hdots : ∀ d ∈ dots, d = ".")
    (hstart : startOf path t.cwd = startOf parent t.cwd) (hreach : t.reachName path = .ok reach) :
    reach.place = dir ++ [name] := by
  by_cases hpath : Refused path
  · rw [reachName, if_pos hpath] at hreach
    cases hreach
  rw [reachName_of_reachFrom dots (locateBase_eq_ok_iff.1 hlocate) hname hsteps hdots hstart hpath]
    at hreach
  split at hreach
  · cases hreach
  · cases hreach
    cases entries.lookup name <;> rfl

/-- What is renamed over is no directory. -/
theorem not_dir_of_reachName {reach : Reach} (hreach : t.reachName path = .ok reach)
    (hnode : ∀ there node, reach = .found there node → node.isDir = false) :
    t.at? reach.place ≠ some .dir := by
  intro hsome
  obtain ⟨below, hbelow⟩ := at?_eq_dir_iff.1 hsome
  have hholds := reachName_holds hreach
  cases reach with
  | found there node =>
    cases hholds.symm.trans hbelow
    exact absurd (hnode _ _ rfl) (by simp [Node.isDir])
  | missing there => exact absurd (hholds.1.symm.trans hbelow) (by simp)

/-! ## The temporary file -/

/-- The store with a new file of a directory. -/
def withTemporary (s : Store) (temporary : Place) (content : ByteArray) : Store :=
  (s.putFile temporary .empty false).putFile temporary content false

section Temporary

variable {temporary : String} (hdir : s.at? dir = some .dir)
  (htemporary : isEntryName temporary = true) (hnone : s.at? (dir ++ [temporary]) = none)

section

include hdir htemporary hnone

theorem at?_withTemporary (content : ByteArray) (q : Place) :
    (withTemporary s (dir ++ [temporary]) content).at? q =
      if q = dir ++ [temporary] then some (.file content false) else s.at? q := by
  have hbelow : s.at? (dir ++ [temporary]) ≠ some .dir := by simp [hnone]
  have hfirst := at?_putFile hdir htemporary hbelow .empty false
  have hne : dir ≠ dir ++ [temporary] := by simp
  have hdir' : (s.putFile (dir ++ [temporary]) .empty false).at? dir = some .dir := by
    rw [hfirst, if_neg hne, hdir]
  have hbelow' : (s.putFile (dir ++ [temporary]) .empty false).at? (dir ++ [temporary]) ≠
      some .dir := by
    rw [hfirst, if_pos rfl]
    simp
  rw [withTemporary, at?_putFile hdir' htemporary hbelow', hfirst]
  split <;> rfl

theorem at?_erase_withTemporary (content : ByteArray) (q : Place) :
    ((withTemporary s (dir ++ [temporary]) content).erase (dir ++ [temporary])).at? q =
      s.at? q := by
  have hat := at?_withTemporary hdir htemporary hnone content
  have hdir' : (withTemporary s (dir ++ [temporary]) content).at? dir = some .dir := by
    rw [hat, if_neg (by simp), hdir]
  have hbelow' : (withTemporary s (dir ++ [temporary]) content).at? (dir ++ [temporary]) ≠
      some .dir := by
    rw [hat, if_pos rfl]
    simp
  rw [at?_erase hdir' htemporary hbelow', hat]
  split
  · next heq => rw [heq, hnone]
  · rfl

/-- A new file takes the place of nothing. -/
theorem at?_withTemporary_eq_some {item : Item} (content : ByteArray) (hq : s.at? q = some item) :
    (withTemporary s (dir ++ [temporary]) content).at? q = some item := by
  rw [at?_withTemporary hdir htemporary hnone, if_neg, hq]
  rintro rfl
  rw [hnone] at hq
  cases hq

end

theorem get?_withTemporary_of_apart (content : ByteArray) (h1 : ¬ dir ++ [temporary] <+: q)
    (h2 : ¬ q <+: dir ++ [temporary]) :
    (withTemporary s (dir ++ [temporary]) content).get? q = s.get? q := by
  rw [withTemporary, putFile, get?_put_of_apart _ h1 h2, putFile, get?_put_of_apart _ h1 h2]

include hnone in
/-- A place where something stands, and which is not above a free one, is not comparable to it. -/
theorem apart_of_at? (hq : s.at? q ≠ none) (habove : ¬ q <+: dir) :
    ¬ dir ++ [temporary] <+: q ∧ ¬ q <+: dir ++ [temporary] := by
  constructor
  · rintro ⟨r, rfl⟩
    by_cases hr : r = []
    · rw [hr, List.append_nil] at hq
      exact hq hnone
    · exact hq (at?_append_eq_none hr (by simp [hnone]))
  · intro hpre
    rcases List.prefix_concat_iff.1 hpre with rfl | hpre
    · exact hq hnone
    · exact habove hpre

end Temporary

end FileAction

namespace Store

/-- Nothing changed at any place; only the listings from the root to a directory may be new. -/
structure Unmoved (s t : Store) (dir : Place) : Prop where
  cwd_eq : t.cwd = s.cwd
  at?_eq : ∀ q, t.at? q = s.at? q
  get?_eq : ∀ q, ¬ q <+: dir → t.get? q = s.get? q

theorem Unmoved.refl (s : Store) (dir : Place) : Unmoved s s dir :=
  ⟨rfl, fun _ => rfl, fun _ _ => rfl⟩

/-- The entry `name` of a directory, which was no directory, holds a text now, and nothing else
changed at any place. -/
structure Replaced (s t : Store) (dir : Place) (name text : String) : Prop where
  cwd_eq : t.cwd = s.cwd
  at?_dir : s.at? dir = some .dir
  isEntryName : isEntryName name = true
  old_ne_dir : s.at? (dir ++ [name]) ≠ some .dir
  at?_eq : ∀ q, t.at? q =
    if q = dir ++ [name] then some (.file text.toUTF8 false) else s.at? q
  get?_eq : ∀ q, ¬ q <+: dir → q ≠ dir ++ [name] → t.get? q = s.get? q

end Store

namespace FileAction

open Store Stateful

variable {s t u : Store} {dir place q : Place} {name path parent text : String}
  {entries : List (String × Node)} {e : Failure}

theorem persist_apply (temporary : Place) (path : String) (s : Store) :
    persist temporary path s =
      match s.renameFile temporary path with
      | .ok t => (.ok (), t)
      | .error e =>
        (.error (.file ("failed to write file: " ++ Text.shown path) (.persist e)),
          s.erase temporary) := by
  unfold persist
  rw [get_bind]
  cases s.renameFile temporary path <;> rfl

/-- Replacing a file by a temporary one ends when that one cannot be written, or with moving it. -/
theorem replaceBy_cases (temporary : Place) (path text : String) (s : Store) :
    (∃ written cause, replaceBy temporary path text s =
      (.error (.file ("failed to write " ++ Text.shown path) (.temporary cause)),
        (withTemporary s temporary (text.toUTF8.extract 0 written)).erase temporary)) ∨
      replaceBy temporary path text s =
        persist temporary path (withTemporary s temporary text.toUTF8) := by
  unfold replaceBy
  rw [modify_bind, get_bind, fault?_putFile]
  rcases s.fault? path with _ | e | ⟨written, e⟩
  · exact .inr rfl
  · exact .inr rfl
  · exact .inl ⟨written, e, rfl⟩

theorem renameFile_of_replaceBy {temporary : Place}
    (h : replaceBy temporary path text s = (.ok (), t)) :
    (withTemporary s temporary text.toUTF8).renameFile temporary path = .ok t := by
  rcases replaceBy_cases temporary path text s with ⟨written, cause, hrun⟩ | hrun
  · rw [hrun] at h
    cases h
  · rw [hrun, persist_apply] at h
    split at h
    · next hrename =>
      cases h
      exact hrename
    · cases h

theorem unmoved_of_at? {temporary : String} (hcwd : t.cwd = s.cwd)
    (hat : ∀ q, t.at? q = s.at? q) (hnone : s.at? (dir ++ [temporary]) = none)
    (hget : ∀ q, ¬ dir ++ [temporary] <+: q → ¬ q <+: dir ++ [temporary] → t.get? q = s.get? q) :
    Unmoved s t dir := by
  refine ⟨hcwd, hat, ?_⟩
  intro q hq
  by_cases hnoneq : s.at? q = none
  · rw [at?_eq_none_iff.1 hnoneq, at?_eq_none_iff.1 ((hat q).trans hnoneq)]
  · obtain ⟨h1, h2⟩ := apart_of_at? hnone hnoneq hq
    exact hget q h1 h2

theorem at?_freshName (hlocate : u.locateBase parent = .ok (dir, .dir entries)) :
    u.at? (dir ++ [freshName (entries.map (·.1))]) = none :=
  at?_eq_none_of_not_mem (get?_of_locateBase hlocate) (freshName_not_mem _) []

@[simp] theorem cwd_withTemporary (temporary : Place) (content : ByteArray) :
    (withTemporary s temporary content).cwd = s.cwd := by
  simp [withTemporary]

section Persist

variable {temporary : String} (hlocate : u.locateBase parent = .ok (dir, .dir entries))
  (htemporary : isEntryName temporary = true) (hnone : u.at? (dir ++ [temporary]) = none)

include hlocate htemporary hnone

/-- Nothing is left of a temporary file that was erased. -/
theorem unmoved_erase_withTemporary (content : ByteArray) :
    Unmoved u ((withTemporary u (dir ++ [temporary]) content).erase (dir ++ [temporary])) dir := by
  have hdir := at?_eq_dir_iff.2 ⟨entries, get?_of_locateBase hlocate⟩
  refine unmoved_of_at? (by simp) (at?_erase_withTemporary hdir htemporary hnone content) hnone
    fun q h1 h2 => ?_
  rw [get?_erase_of_apart h1 h2, get?_withTemporary_of_apart content h1 h2]

/-- Whether it cannot be written or cannot be moved, the temporary file is erased. -/
theorem replaceBy_error (h : replaceBy (dir ++ [temporary]) path text u = (.error e, t)) :
    Unmoved u t dir := by
  rcases replaceBy_cases (dir ++ [temporary]) path text u with ⟨written, cause, hrun⟩ | hrun
  · rw [hrun] at h
    cases h
    exact unmoved_erase_withTemporary hlocate htemporary hnone _
  · rw [hrun, persist_apply] at h
    split at h
    · cases h
    · cases h
      exact unmoved_erase_withTemporary hlocate htemporary hnone _

/-- A new file changes no way. -/
theorem locateBase_withTemporary (content : ByteArray) :
    ∃ entries', (withTemporary u (dir ++ [temporary]) content).locateBase parent =
      .ok (dir, .dir entries') := by
  have hdir := at?_eq_dir_iff.2 ⟨entries, get?_of_locateBase hlocate⟩
  have hstays : ∀ q item, u.at? q = some item →
      (withTemporary u (dir ++ [temporary]) content).at? q = some item := fun q item hq =>
    at?_withTemporary_eq_some hdir htemporary hnone content hq
  have hhome : u.at? u.cwd ≠ none →
      (withTemporary u (dir ++ [temporary]) content).at? u.cwd ≠ none := by
    intro h
    obtain ⟨item, hitem⟩ := Option.ne_none_iff_exists'.1 h
    simp [hstays _ _ hitem]
  exact locateBase_dir_mono (fun q item hq _ => hstays q item hq) (by simp) hhome hlocate

/-- Moving the temporary file over an entry changes that entry only. -/
theorem replaced_of_moved (hname : isEntryName name = true)
    (hold : u.at? (dir ++ [name]) ≠ some .dir) :
    Replaced u
      (((withTemporary u (dir ++ [temporary]) text.toUTF8).erase (dir ++ [temporary])).putFile
        (dir ++ [name]) text.toUTF8 false) dir name text := by
  have hdir := at?_eq_dir_iff.2 ⟨entries, get?_of_locateBase hlocate⟩
  have hdiscarded := at?_erase_withTemporary hdir htemporary hnone text.toUTF8
  have hat := at?_putFile (by rw [hdiscarded, hdir]) hname (by rwa [hdiscarded]) text.toUTF8 false
  refine ⟨by simp, hdir, hname, hold, fun q => by rw [hat, hdiscarded], fun q habove hne => ?_⟩
  by_cases hq : u.at? q = none
  · rw [at?_eq_none_iff.1 hq, at?_eq_none_iff.1]
    rw [hat, if_neg hne, hdiscarded, hq]
  · -- something stands at the place, so it is apart from both names
    obtain ⟨h1, h2⟩ := apart_of_at? hnone hq habove
    have h3 : ¬ dir ++ [name] <+: q := by
      rintro ⟨r, rfl⟩
      refine hq (at?_append_eq_none (fun hr => hne ?_) hold)
      rw [hr, List.append_nil]
    have h4 : ¬ q <+: dir ++ [name] := fun hpre =>
      (List.prefix_concat_iff.1 hpre).elim hne habove
    rw [putFile, get?_put_of_apart _ h3 h4, get?_erase_of_apart h1 h2,
      get?_withTemporary_of_apart text.toUTF8 h1 h2]

theorem replaceBy_ok {dots : List String}
    (hname : isEntryName name = true) (hsteps : steps path = steps parent ++ dots ++ [name])
    (hdots : ∀ d ∈ dots, d = ".") (hstart : startOf path u.cwd = startOf parent u.cwd)
    (h : replaceBy (dir ++ [temporary]) path text u = (.ok (), t)) :
    Replaced u t dir name text := by
  have hdir := at?_eq_dir_iff.2 ⟨entries, get?_of_locateBase hlocate⟩
  obtain ⟨content, executable, reach, hsource, hreach, -, hnode, rfl⟩ :=
    renameFile_eq_ok (renameFile_of_replaceBy h)
  -- what is renamed is the temporary file
  have hfile := at?_eq_file_iff.2 hsource
  rw [at?_withTemporary hdir htemporary hnone, if_pos rfl] at hfile
  cases hfile
  obtain ⟨entries', hlocate'⟩ := locateBase_withTemporary hlocate htemporary hnone text.toUTF8
  have hplace : reach.place = dir ++ [name] :=
    place_of_reachName hlocate' hname hsteps hdots (by simpa using hstart) hreach
  have hold : u.at? (dir ++ [name]) ≠ some .dir := by
    intro hsome
    refine not_dir_of_reachName hreach hnode ?_
    rw [hplace]
    exact at?_withTemporary_eq_some hdir htemporary hnone text.toUTF8 hsome
  rw [hplace]
  exact replaced_of_moved hlocate htemporary hnone hname hold

end Persist

/-! ## The whole operation -/

/-- The directory in which a file at a path is replaced. -/
def parentOf (path : String) : String :=
  (Path.parent? path).getD "."

/-- Replacing ends with making the directory or failing to make a temporary file in it, or goes on
with that file. -/
theorem writeAtomic_cases (path text : String) (s : Store) :
    (∃ r e u, ensureDir (parentOf path) s = (r, u) ∧ writeAtomic path text s = (.error e, u)) ∨
      ∃ u dir entries, ensureDir (parentOf path) s = (.ok (), u) ∧
        u.locateBase (parentOf path) = .ok (dir, .dir entries) ∧
        writeAtomic path text s =
          replaceBy (dir ++ [freshName (entries.map (·.1))]) path text u := by
  rcases hensure : ensureDir (parentOf path) s with ⟨e | _, u⟩
  · exact .inl ⟨_, e, u, rfl, bind_error hensure⟩
  · have hrun : writeAtomic path text s = _ := (bind_ok hensure).trans (get_bind _ u)
    rw [← parentOf] at hrun
    rcases hlocate : u.locateBase (parentOf path) with e | ⟨dir, node⟩
    · rw [hlocate] at hrun
      exact .inl ⟨_, _, u, rfl, hrun⟩
    · rw [hlocate] at hrun
      cases node with
      | file content executable => exact .inl ⟨_, _, u, rfl, hrun⟩
      | link target => exact .inl ⟨_, _, u, rfl, hrun⟩
      | dir entries =>
        rcases hfault : u.fault? path with _ | cause | ⟨written, cause⟩ <;> rw [hfault] at hrun
        case some.creating => exact .inl ⟨_, _, u, rfl, hrun⟩
        all_goals
          dsimp only at hrun
          split at hrun
          · exact .inl ⟨_, _, u, rfl, hrun⟩
          · exact .inr ⟨u, dir, entries, rfl, hlocate, hrun⟩

/-- Replacing fails without a change but that of making the directory. -/
theorem writeAtomic_error (h : writeAtomic path text s = (.error e, t)) :
    ∃ r u dir, ensureDir (parentOf path) s = (r, u) ∧ Unmoved u t dir ∧
      (u.LinkFree → dir = u.placeOf (parentOf path)) := by
  rcases writeAtomic_cases path text s with
    ⟨r, e', u, hensure, hrun⟩ | ⟨u, dir, entries, hensure, hlocate, hrun⟩
  · rw [hrun] at h
    cases h
    exact ⟨r, t, _, hensure, .refl t _, fun _ => rfl⟩
  · rw [hrun] at h
    have hunmoved := replaceBy_error hlocate (isEntryName_freshName _) (at?_freshName hlocate) h
    exact ⟨_, u, dir, hensure, hunmoved, fun hfree => locateBase_place hfree hlocate⟩

/-- Replacing succeeds with the text in place of what the path named, in the directory made for
it. -/
theorem writeAtomic_ok (h : writeAtomic path text s = (.ok (), t)) :
    ∃ u dir entries dots name, ensureDir (parentOf path) s = (.ok (), u) ∧
      u.locateBase (parentOf path) = .ok (dir, .dir entries) ∧
      steps path = steps (parentOf path) ++ dots ++ [name] ∧ (∀ d ∈ dots, d = ".") ∧
      (∀ place, startOf path place = startOf (parentOf path) place) ∧
      Replaced u t dir name text := by
  rcases writeAtomic_cases path text s with
    ⟨r, e, u, hensure, hrun⟩ | ⟨u, dir, entries, hensure, hlocate, hrun⟩
  · rw [hrun] at h
    cases h
  · rw [hrun] at h
    obtain ⟨_, _, _, -, -, hspecial, -⟩ := renameFile_eq_ok (renameFile_of_replaceBy h)
    obtain ⟨parent, dots, name, hparent, hname, hsteps, hdots⟩ :=
      steps_of_not_endsSpecial hspecial
    have heq : parentOf path = parent := by rw [parentOf, hparent, Option.getD_some]
    have hstart : ∀ place, startOf path place = startOf (parentOf path) place := fun place => by
      rw [heq, startOf_parent hparent]
    rw [← heq] at hsteps
    have hreplaced : Replaced u t dir name text :=
      replaceBy_ok hlocate (isEntryName_freshName _) (at?_freshName hlocate) hname hsteps hdots
        (hstart _) h
    exact ⟨u, dir, entries, dots, name, hensure, hlocate, hsteps, hdots, hstart, hreplaced⟩

/-- Replacing a file by its name in a directory. -/
theorem writeAtomic_join_ok {base : String} (hname : isEntryName name = true)
    (h : writeAtomic (Path.join base name) text s = (.ok (), t)) :
    ∃ u dir entries dots, ensureDir (parentOf (Path.join base name)) s = (.ok (), u) ∧
      u.locateBase (parentOf (Path.join base name)) = .ok (dir, .dir entries) ∧
      steps base = steps (parentOf (Path.join base name)) ++ dots ∧ (∀ d ∈ dots, d = ".") ∧
      (∀ place, startOf base place = startOf (parentOf (Path.join base name)) place) ∧
      Replaced u t dir name text := by
  obtain ⟨u, dir, entries, dots, other, hensure, hlocate, hsteps, hdots, hstart, hreplaced⟩ :=
    writeAtomic_ok h
  have hstep := isStep_of_isEntryName hname
  rw [steps_join_name hstep] at hsteps
  obtain ⟨hbase, hother⟩ := List.append_inj' hsteps rfl
  cases hother
  refine ⟨u, dir, entries, dots, hensure, hlocate, hbase, hdots, ?_, hreplaced⟩
  intro place
  rw [← hstart, startOf_join_name hstep]

end FileAction

namespace Store

variable {s t u : Store} {dir : Place} {name text path : String}

/-- What stands in `s` stays in `t`, or gives way to a file. -/
def Yields (s t : Store) : Prop :=
  ∀ q, t.at? q = s.at? q ∨ (∃ content executable, t.at? q = some (.file content executable)) ∨
    s.at? q = none

theorem Yields.trans (h : Yields s t) (h' : Yields t u) : Yields s u := by
  intro q
  rcases h' q with heq | hfile | hnone
  · rw [heq]
    exact h q
  · exact .inr (.inl hfile)
  · rcases h q with heq | ⟨_, _, hfile⟩ | hnone'
    · exact .inr (.inr (heq ▸ hnone))
    · rw [hnone] at hfile
      cases hfile
    · exact .inr (.inr hnone')

theorem Yields.waysAgree (h : Yields s t) : WaysAgree s t := by
  intro place item other hs ht hitem hother
  rcases h place with heq | ⟨_, _, hfile⟩ | hnone
  · rw [heq, hs] at ht
    exact Option.some.inj ht
  · rw [hfile] at ht
    cases ht
    exact hother.elim
  · rw [hs] at hnone
    cases hnone

theorem Replaced.yields (h : Replaced s t dir name text) : Yields s t := by
  intro q
  rw [h.at?_eq]
  split
  · exact .inr (.inl ⟨_, _, rfl⟩)
  · exact .inl rfl

theorem Confined.yields {W : Place → Prop} (h : Confined (fun _ => False) W s t) :
    Yields s t := by
  intro q
  rcases h.at?_or q with heq | hfalse | ⟨-, hnone, -⟩
  · exact .inl heq
  · exact hfalse.elim
  · exact .inr (.inr hnone)

/-! ## Where no link stands -/

section LinkFree

open FileAction

variable {cwd place q : Place} {dir name text path : String} {entries : List (String × Node)}
  {e : Failure}

/-- A name joined to a directory is replaced in that directory, whatever dots its path ends in. -/
theorem steps_parentOf_join (hname : isEntryName name = true) (dir : String) :
    ∃ dots, steps dir = steps (parentOf (Path.join dir name)) ++ dots ∧ (∀ d ∈ dots, d = ".") ∧
      ∀ cwd, startOf (parentOf (Path.join dir name)) cwd = startOf dir cwd := by
  obtain ⟨hstep, hdot, -⟩ := isEntryName_iff.1 hname
  obtain ⟨parent, dots, hparent, hsteps, hdots⟩ :=
    exists_parent (steps_join_name hstep dir) hdot
  have heq : parentOf (Path.join dir name) = parent := by
    rw [parentOf, hparent, Option.getD_some]
  refine ⟨dots, by rw [heq, hsteps], hdots, ?_⟩
  intro cwd
  rw [heq, startOf_parent hparent, startOf_join_name hstep]

theorem placeIn_parentOf_join (hname : isEntryName name = true) (cwd : Place) (dir : String) :
    placeIn cwd (parentOf (Path.join dir name)) = placeIn cwd dir := by
  obtain ⟨dots, hsteps, hdots, hstart⟩ := steps_parentOf_join hname dir
  rw [placeIn, placeIn, hsteps, hstart, follow_append, follow_dots hdots]

theorem onWay_parentOf_join (hname : isEntryName name = true)
    (h : OnWay cwd (parentOf (Path.join dir name)) q) : OnWay cwd dir q := by
  obtain ⟨dots, hsteps, -, hstart⟩ := steps_parentOf_join hname dir
  have hpre : steps (parentOf (Path.join dir name)) <+: steps dir := by
    rw [hsteps]
    exact List.prefix_append _ _
  obtain ⟨xs, hxs, hq⟩ := h
  exact ⟨xs, hxs.trans hpre, by rw [hq, hstart]⟩

/-- Only directories on the way of a path are new. -/
def OnlyWay (dir : String) (s t : Store) : Prop :=
  Confined (fun _ => False) (OnWay s.cwd dir) s t

theorem ensureDir_onlyWay (hname : isEntryName name = true) (hfree : s.LinkFree) :
    OnlyWay dir s (ensureDir (parentOf (Path.join dir name)) s).2 := by
  have hmade : Confined (fun _ => False) (s.OnWayOf (parentOf (Path.join dir name))) s
      (ensureDir (parentOf (Path.join dir name)) s).2 := ensureDir_confined _ s
  exact hmade.mono (fun _ => id) fun q hq => .inl (onWay_parentOf_join hname (hq hfree))

theorem writeAtomic_join_error (hname : isEntryName name = true) (hfree : s.LinkFree)
    (h : writeAtomic (Path.join dir name) text s = (.error e, t)) :
    ∃ u, OnlyWay dir s u ∧ ∀ q, t.at? q = u.at? q := by
  obtain ⟨r, u, place, hensure, hunmoved, -⟩ := writeAtomic_error h
  have hway : OnlyWay dir s (ensureDir (parentOf (Path.join dir name)) s).2 :=
    ensureDir_onlyWay hname hfree
  rw [hensure] at hway
  exact ⟨u, hway, hunmoved.at?_eq⟩

/-- Where no link stands, a file that was replaced is at the place that its path names. -/
theorem writeAtomic_join_replaced (hname : isEntryName name = true) (hfree : s.LinkFree)
    (h : writeAtomic (Path.join dir name) text s = (.ok (), t)) :
    ∃ u, OnlyWay dir s u ∧ Replaced u t (s.placeOf dir) name text := by
  obtain ⟨u, place, entries, dots, hensure, hlocate, -, -, -, hreplaced⟩ :=
    writeAtomic_join_ok hname h
  have hway : OnlyWay dir s (ensureDir (parentOf (Path.join dir name)) s).2 :=
    ensureDir_onlyWay hname hfree
  rw [hensure] at hway
  have hplace : place = s.placeOf dir := by
    rw [locateBase_place (hway.linkFree hfree) hlocate, placeOf_eq, placeOf_eq, hway.cwd_eq,
      placeIn_parentOf_join hname]
  rw [hplace] at hreplaced
  exact ⟨u, hway, hreplaced⟩

/-- A replaced file is the only change. -/
theorem Replaced.confined {T W : Place → Prop} (h : Replaced s t q name text)
    (hT : T (q ++ [name])) : Confined T W s t := by
  refine .of_place h.cwd_eq h.at?_eq nofun (fun p hpq hqp => ?_) (.inl hT)
  refine h.get?_eq p (fun hpre => hqp (hpre.trans (List.prefix_append q [name]))) ?_
  rintro rfl
  exact hpq (List.prefix_refl _)

end LinkFree

end Store

end Autotree
