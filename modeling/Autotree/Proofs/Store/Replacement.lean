import Autotree.Proofs.Store.Leads
import Mathlib.Logic.Relation

/-!
# Replacing a file, step by step

`Step` says what replacing a file may do next, and that it may fail anywhere.  What a run of such
steps has changed is known at every point of it (`Run.kept`): some directories that the way to the
file needs, one temporary file, and at the end the text where the path leads.  `writeAtomic` is such
a run (`exists_run_writeAtomic`).

The way over `..` goes through directories that are not above the file.  So one that is made on it
may be an entry beside the file, or stand where the file should be (`replacement_not_exact`).
-/

namespace Autotree

namespace Path

variable {path parent d : String}

/-- A path from which one comes to another one by going from parent to parent. -/
def Above (path d : String) : Prop :=
  Relation.ReflTransGen (fun p q => parent? p = some q) path d

theorem Above.prefix_steps (h : Above path d) : Store.steps d <+: Store.steps path := by
  induction h with
  | refl => exact List.prefix_refl _
  | tail _ hparent ih => exact (prefix_steps_parent hparent).trans ih

theorem Above.startOf_eq (h : Above path d) (cwd : Place) :
    Store.startOf d cwd = Store.startOf path cwd := by
  induction h with
  | refl => rfl
  | tail _ hparent ih => rw [startOf_parent hparent, ih]

end Path

namespace Store

variable {s t u v : Store} {place dir start q : Place} {path name : String} {xs : List String}
  {entries : List (String × Node)} {reach : Reach}

/-- Below a place where nothing is, a way without `..` does not leave it. -/
theorem LeadsTo.prefix_of_at?_eq_none (h : s.LeadsTo start xs q) (hnone : s.at? start = none)
    (hup : ".." ∉ xs) : start <+: q := by
  have hbelow : ∀ {place : Place} {name : String}, s.at? place = none →
      s.at? (place ++ [name]) = none := fun hplace =>
    at?_append_eq_none (List.cons_ne_nil _ _) (by simp [hplace])
  induction h with
  | here place => exact List.prefix_refl _
  | @step place q step rest hname h ih =>
    obtain ⟨hstep, hrest⟩ := List.ne_and_not_mem_of_not_mem_cons hup
    by_cases hdot : step = "."
    · rw [hdot, stepFrom_dot] at ih
      exact ih hnone hrest
    · have hplace : stepFrom place step = place ++ [step] := by
        rw [stepFrom, if_neg hdot, if_neg (Ne.symm hstep)]
      rw [hplace] at ih
      exact (List.prefix_append _ _).trans (ih (hbelow hnone) hrest)
  | link hlink =>
    rw [hbelow hnone] at hlink
    cases hlink

/-- A place where the way of a path needs a directory: the beginning of the path leads there. -/
def Needs (s : Store) (path : String) (q : Place) : Prop :=
  ∃ xs, xs <+: steps path ∧ s.LeadsTo (startOf path s.cwd) xs q

/-- Without `..`, a missing directory on the way to another one is that directory or above it. -/
theorem Needs.prefix_directory (h : s.Needs path q) (hnone : s.at? q = none)
    (hup : ".." ∉ steps path) (hdir : s.LeadsTo (startOf path s.cwd) (steps path) dir) :
    q <+: dir := by
  obtain ⟨xs, ⟨ys, hsteps⟩, hq⟩ := h
  rw [← hsteps] at hdir hup
  obtain ⟨mid, hmid, hrest⟩ := hdir.of_append
  obtain rfl := hq.unique hmid
  exact hrest.prefix_of_at?_eq_none hnone fun hmem => hup (List.mem_append_right xs hmem)

/-- The place that a path names in the directory that its parent leads to. -/
def Names (s : Store) (path : String) (q : Place) : Prop :=
  ∃ dir dots name, q = dir ++ [name] ∧ isEntryName name = true ∧
    steps path = steps (FileAction.parentOf path) ++ dots ++ [name] ∧ (∀ d ∈ dots, d = ".") ∧
    s.LeadsTo (startOf (FileAction.parentOf path) s.cwd) (steps (FileAction.parentOf path)) dir

/-- Away from the places in `P`, only directories that the way of a path needs are new. -/
structure PreparedBut (P : Place → Prop) (path : String) (s t : Store) : Prop where
  cwd_eq : t.cwd = s.cwd
  at?_or : ∀ q, ¬ P q → t.at? q = s.at? q ∨ Made s t q ∧ s.Needs path q

namespace PreparedBut

variable {P : Place → Prop}

theorem refl (s : Store) : PreparedBut P path s s :=
  ⟨rfl, fun _ _ => .inl rfl⟩

theorem mono {P' : Place → Prop} (h : PreparedBut P path s t) (hP : ∀ q, P q → P' q) :
    PreparedBut P' path s t :=
  ⟨h.cwd_eq, fun q hq => h.at?_or q fun hp => hq (hP q hp)⟩

/-- Where nothing was, and what is now is no link, the ways are kept. -/
theorem keepsWays (h : PreparedBut P path s t) (hP : ∀ q, P q → s.at? q = none) :
    KeepsWays s t := by
  intro q item hs hitem
  have hnot : ¬ P q := fun hq => by
    rw [hP q hq] at hs
    cases hs
  rcases h.at?_or q hnot with heq | ⟨⟨hnone, -⟩, -⟩
  · exact heq.trans hs
  · rw [hs] at hnone
    cases hnone

theorem sameLinks (h : PreparedBut P path s t) (hP : ∀ q, P q → s.at? q = none)
    (hlink : ∀ q, P q → ∀ target, t.at? q ≠ some (.link target)) : SameLinks s t := by
  intro q target
  refine ⟨fun ht => ?_, fun hs => h.keepsWays hP q _ hs trivial⟩
  have hnot : ¬ P q := fun hq => hlink q hq target ht
  rcases h.at?_or q hnot with heq | ⟨⟨-, hdir⟩, -⟩
  · exact heq.symm.trans ht
  · rw [ht] at hdir
    cases hdir

theorem at?_ne_none (h : PreparedBut P path s t) (hP : ∀ q, P q → s.at? q = none)
    (hs : s.at? q ≠ none) : t.at? q ≠ none := by
  rcases h.at?_or q (fun hq => hs (hP q hq)) with heq | ⟨⟨hnone, -⟩, -⟩
  · rwa [heq]
  · exact absurd hnone hs

end PreparedBut

/-- One more directory that the way of a path needs. -/
theorem PreparedBut.makeDir {d : String} (h : PreparedBut (fun _ => False) path s t)
    (habove : Path.Above path d) (hmake : t.makeDir d = .ok u) :
    PreparedBut (fun _ => False) path s u := by
  obtain ⟨place, hreach, rfl⟩ := makeDir_eq_ok hmake
  obtain ⟨hnone, dir, name, rfl, hname, hdir⟩ := reachName_holds hreach
  have hfree : t.at? (dir ++ [name]) = none := at?_eq_none_iff.2 hnone
  have hat := at?_putDir hdir hname (by simp [hfree])
  have hlinks : SameLinks s t := h.sameLinks (fun _ => False.elim) (fun _ => False.elim)
  have hneeds : s.Needs path (dir ++ [name]) := by
    refine ⟨steps d, habove.prefix_steps, ?_⟩
    unfold reachName at hreach
    split at hreach
    · cases hreach
    · rw [h.cwd_eq, habove.startOf_eq] at hreach
      exact leadsTo_of_reachFrom hlinks (fun _ => isStep_of_mem_steps) (by simp) hreach rfl
  refine ⟨(cwd_putDir _).trans h.cwd_eq, fun q hq => ?_⟩
  rw [hat]
  split
  · next heq =>
    subst heq
    rcases h.at?_or _ id with heq | ⟨⟨-, hmade⟩, -⟩
    · exact .inr ⟨⟨heq ▸ hfree, by rw [hat, if_pos rfl]⟩, hneeds⟩
    · rw [hfree] at hmade
      cases hmade
  · next hne =>
    rcases h.at?_or q id with heq | ⟨⟨hold, hmade⟩, hway⟩
    · exact .inl heq
    · exact .inr ⟨⟨hold, by rw [hat, if_neg hne, hmade]⟩, hway⟩

end Store

namespace FileAction

open Store

variable {s t u v : Store} {place dir temporary q : Place} {path text name : String}
  {entries : List (String × Node)}

/-! ## Steps -/

/-- How far the replacement of a file has come. -/
inductive Stage where
  /-- The directory is made. -/
  | preparing
  /-- The temporary file is written. -/
  | drafting (temporary : Place)
  /-- The temporary file has become the file. -/
  | replaced
  /-- A step failed; the temporary file is left until the failure is dropped. -/
  | failed (temporary : Option Place)

/-- The temporary file that there is. -/
def Stage.temporary? : Stage → Option Place
  | preparing => none
  | drafting temporary => some temporary
  | replaced => none
  | failed temporary => temporary

/-- A step of replacing a file. -/
inductive Step (path text : String) : Stage × Store → Stage × Store → Prop
  /-- Makes the directory, or one above it. -/
  | makeDir {s t : Store} {d : String} (habove : Path.Above (parentOf path) d)
      (hmake : s.makeDir d = .ok t) : Step path text (.preparing, s) (.preparing, t)
  /-- Makes a temporary file with a fresh name in the directory. -/
  | create {s : Store} {dir : Place} {entries : List (String × Node)} {name : String}
      (hlocate : s.locateBase (parentOf path) = .ok (dir, .dir entries))
      (hname : isEntryName name = true) (hfresh : name ∉ entries.map (·.1)) :
      Step path text (.preparing, s)
        (.drafting (dir ++ [name]), s.putFile (dir ++ [name]) .empty false)
  /-- Writes a beginning of the text. -/
  | write (s : Store) (temporary : Place) (n : Nat) :
      Step path text (.drafting temporary, s)
        (.drafting temporary, s.putFile temporary (text.toUTF8.extract 0 n) false)
  /-- Moves the temporary file, when all is written. -/
  | rename {s t : Store} {temporary : Place}
      (hdone : s.get? temporary = some (.file text.toUTF8 false))
      (hrename : s.renameFile temporary path = .ok t) :
      Step path text (.drafting temporary, s) (.replaced, t)
  /-- The directory, or the temporary file, cannot be made. -/
  | failPreparing (s : Store) : Step path text (.preparing, s) (.failed none, s)
  /-- The temporary file cannot be written or moved. -/
  | failDrafting (s : Store) (temporary : Place) :
      Step path text (.drafting temporary, s) (.failed (some temporary), s)
  /-- Drops the failure, and with it the temporary file. -/
  | drop (s : Store) (temporary : Place) :
      Step path text (.failed (some temporary), s) (.failed none, s.erase temporary)

/-- What replacing a file can come to. -/
def Run (path text : String) (s : Store) (stage : Stage) (t : Store) : Prop :=
  Relation.ReflTransGen (Step path text) (.preparing, s) (stage, t)

/-! ## What a step preserves -/

/-- A temporary file in the directory, where nothing was, has a beginning of the text. -/
structure Drafted (path text : String) (s t : Store) (temporary : Place) : Prop where
  prepared : PreparedBut (· = temporary) (parentOf path) s t
  old : s.at? temporary = none
  start : startOf (parentOf path) s.cwd ≠ temporary
  new : ∃ n, t.at? temporary = some (.file (text.toUTF8.extract 0 n) false)
  place : ∃ dir entries name, temporary = dir ++ [name] ∧ isEntryName name = true ∧
    t.locateBase (parentOf path) = .ok (dir, .dir entries)

/-- The text is where the path leads.  One can read it there unless it took the place of a link that
the way to the directory goes over. -/
structure Moved (path text : String) (s t : Store) (place : Place) : Prop where
  prepared : PreparedBut (· = place) (parentOf path) s t
  names : s.Names path place
  new : t.at? place = some (.file text.toUTF8 false)
  read : t.content path = .ok text.toUTF8 ∨
    (∃ target, s.at? place = some (.link target)) ∧
      ∀ there entries, t.locateBase (parentOf path) ≠ .ok (there, .dir entries)

/-- What is known at each stage. -/
def Known (path text : String) (s : Store) : Stage × Store → Prop
  | (.preparing, t) => PreparedBut (fun _ => False) (parentOf path) s t
  | (.drafting temporary, t) => Drafted path text s t temporary
  | (.replaced, t) => ∃ place, Moved path text s t place
  | (.failed (some temporary), t) => Drafted path text s t temporary
  | (.failed none, t) => PreparedBut (fun _ => False) (parentOf path) s t

/-- What led to a directory still does when only files have changed. -/
theorem locateBase_of_spares {T : Place → Prop} (h : Spares T s t)
    (hlocate : s.locateBase path = .ok (dir, .dir entries)) :
    ∃ entries', t.locateBase path = .ok (dir, .dir entries') :=
  locateBase_dir_mono h.keepsWays h.cwd_eq h.at?_ne_none hlocate

/-- Writing a beginning of the text where nothing was, or where a beginning of it is already. -/
theorem Drafted.of_putFile (h : PreparedBut (· = dir ++ [name]) (parentOf path) s t)
    (hold : s.at? (dir ++ [name]) = none)
    (hstart : startOf (parentOf path) s.cwd ≠ dir ++ [name])
    (hlocate : t.locateBase (parentOf path) = .ok (dir, .dir entries))
    (hname : isEntryName name = true)
    (hplace : t.at? (dir ++ [name]) = none ∨
      ∃ content executable, t.at? (dir ++ [name]) = some (.file content executable)) (n : Nat) :
    Drafted path text s (t.putFile (dir ++ [name]) (text.toUTF8.extract 0 n) false)
      (dir ++ [name]) := by
  have hdir : t.at? dir = some .dir := at?_eq_dir_iff.2 ⟨entries, get?_of_locateBase hlocate⟩
  have hnodir : t.at? (dir ++ [name]) ≠ some .dir := by
    rcases hplace with hnone | ⟨content, executable, hfile⟩
    · simp [hnone]
    · simp [hfile]
  have hat := at?_putFile hdir hname hnodir (text.toUTF8.extract 0 n) false
  have hspares : Spares (fun _ => True) t
      (t.putFile (dir ++ [name]) (text.toUTF8.extract 0 n) false) :=
    spares_putFile hdir hname hplace trivial _ _
  obtain ⟨entries', hlocate'⟩ := locateBase_of_spares hspares hlocate
  refine ⟨⟨(cwd_putFile ..).trans h.cwd_eq, fun q hq => ?_⟩, hold, hstart, ⟨n, ?_⟩,
    dir, entries', name, rfl, hname, hlocate'⟩
  · unfold Made
    rw [hat, if_neg hq]
    exact h.at?_or q hq
  · rw [hat, if_pos rfl]

theorem Drafted.create (h : PreparedBut (fun _ => False) (parentOf path) s t)
    (hlocate : t.locateBase (parentOf path) = .ok (dir, .dir entries))
    (hname : isEntryName name = true) (hfresh : name ∉ entries.map (·.1)) :
    Drafted path text s (t.putFile (dir ++ [name]) .empty false) (dir ++ [name]) := by
  have hnone : t.at? (dir ++ [name]) = none :=
    at?_eq_none_of_not_mem (get?_of_locateBase hlocate) hfresh []
  have hold : s.at? (dir ++ [name]) = none := by
    rcases h.at?_or (dir ++ [name]) id with heq | ⟨⟨hold, -⟩, -⟩
    · rw [← heq, hnone]
    · exact hold
  have hstart : startOf (parentOf path) s.cwd ≠ dir ++ [name] := by
    intro heq
    refine at?_start_of_reachFrom (locateBase_eq_ok_iff.1 hlocate) ?_
    rw [h.cwd_eq, heq, hnone]
  have hempty : text.toUTF8.extract 0 0 = .empty := ByteArray.extract_same
  rw [← hempty]
  exact .of_putFile (h.mono fun _ => False.elim) hold hstart hlocate hname (.inl hnone) 0

theorem Drafted.write (h : Drafted path text s t temporary) (n : Nat) :
    Drafted path text s (t.putFile temporary (text.toUTF8.extract 0 n) false) temporary := by
  obtain ⟨dir, entries, name, rfl, hname, hlocate⟩ := h.place
  obtain ⟨m, hfile⟩ := h.new
  exact .of_putFile h.prepared h.old h.start hlocate hname (.inr ⟨_, _, hfile⟩) n

/-- Dropping the failure leaves nothing but directories. -/
theorem Drafted.drop (h : Drafted path text s t temporary) :
    PreparedBut (fun _ => False) (parentOf path) s (t.erase temporary) := by
  obtain ⟨dir, entries, name, rfl, hname, hlocate⟩ := h.place
  obtain ⟨m, hfile⟩ := h.new
  have hdir : t.at? dir = some .dir := at?_eq_dir_iff.2 ⟨entries, get?_of_locateBase hlocate⟩
  have hat := at?_erase hdir hname (by simp [hfile])
  refine ⟨(cwd_erase _).trans h.prepared.cwd_eq, fun q _ => ?_⟩
  unfold Made
  rw [hat]
  split
  · next heq => exact .inl (by rw [heq, h.old])
  · next hne => exact h.prepared.at?_or q hne

theorem endsInSlash_of_renameFile (h : s.renameFile temporary path = .ok t) :
    endsInSlash path = false := by
  unfold renameFile at h
  split at h
  · split at h
    · cases h
    · split at h
      · cases h
      · next hslash => simpa using hslash
  · cases h
  · cases h

/-- A rename in a directory takes one entry away and puts it in place of another one. -/
theorem at?_of_renameFile {content : ByteArray} {executable : Bool}
    (hlocate : s.locateBase (parentOf path) = .ok (dir, .dir entries))
    (hname : isEntryName name = true)
    (hfile : s.get? (dir ++ [name]) = some (.file content executable))
    (h : s.renameFile (dir ++ [name]) path = .ok t) :
    Fits path ∧ ∃ dots other, isEntryName other = true ∧
      steps path = steps (parentOf path) ++ dots ++ [other] ∧ (∀ d ∈ dots, d = ".") ∧
      (∀ cwd, startOf path cwd = startOf (parentOf path) cwd) ∧
      s.at? (dir ++ [other]) ≠ some .dir ∧ t.cwd = s.cwd ∧
      ∀ q, t.at? q = if q = dir ++ [other] then some (.file content executable)
        else if q = dir ++ [name] then none else s.at? q := by
  obtain ⟨content', executable', reach, hsource, hreach, hspecial, hnode, rfl⟩ :=
    renameFile_eq_ok h
  rw [hfile] at hsource
  cases hsource
  obtain ⟨parent, dots, other, hparent, hother, hsteps, hdots⟩ :=
    steps_of_not_endsSpecial hspecial
  have heq : parentOf path = parent := by rw [parentOf, hparent, Option.getD_some]
  have hstart (cwd : Place) : startOf path cwd = startOf (parentOf path) cwd := by
    rw [heq, startOf_parent hparent]
  rw [← heq] at hsteps
  have hplace : reach.place = dir ++ [other] :=
    place_of_reachName hlocate hother hsteps hdots (hstart _) hreach
  have hold : s.at? (dir ++ [other]) ≠ some .dir := hplace ▸ not_dir_of_reachName hreach hnode
  have hdir : s.at? dir = some .dir := at?_eq_dir_iff.2 ⟨entries, get?_of_locateBase hlocate⟩
  have herase := at?_erase hdir hname (by simp [at?_eq_file_iff.2 hfile])
  have hfree : (s.erase (dir ++ [name])).at? (dir ++ [other]) ≠ some .dir := by
    rw [herase]
    split
    · simp
    · exact hold
  have hput := at?_putFile (by rw [herase, if_neg (by simp), hdir]) hother hfree content executable
  refine ⟨fits_of_reachName hreach, dots, other, hother, hsteps, hdots, hstart, hold, by simp,
    fun q => ?_⟩
  rw [hplace, hput, herase]

theorem Drafted.sameLinks (h : Drafted path text s t temporary) : SameLinks s t := by
  obtain ⟨n, hfile⟩ := h.new
  refine h.prepared.sameLinks (fun q hq => hq ▸ h.old) fun q hq target hlink => ?_
  rw [hq, hfile] at hlink
  cases hlink

/-- The directory is where the path of the parent led before. -/
theorem Drafted.leadsTo (h : Drafted path text s t temporary)
    (hlocate : t.locateBase (parentOf path) = .ok (dir, .dir entries)) :
    s.LeadsTo (startOf (parentOf path) s.cwd) (steps (parentOf path)) dir := by
  rw [← h.prepared.cwd_eq]
  exact leadsTo_of_locateBase h.sameLinks hlocate

/-- A text in a directory is read by any path that names it there. -/
theorem content_of_locateBase {dots : List String} {content : ByteArray} {executable : Bool}
    (hlocate : t.locateBase (parentOf path) = .ok (dir, .dir entries)) (hfits : Fits path)
    (hname : isEntryName name = true)
    (hsteps : steps path = steps (parentOf path) ++ dots ++ [name]) (hdots : ∀ d ∈ dots, d = ".")
    (hstart : startOf path t.cwd = startOf (parentOf path) t.cwd)
    (hslash : endsInSlash path = false)
    (hfile : t.at? (dir ++ [name]) = some (.file content executable)) :
    t.content path = .ok content := by
  have hshort : ¬ Overlong name := hfits.short name (by simp [hsteps])
  have hget := at?_eq_file_iff.1 hfile
  rw [get?_step (get?_of_locateBase hlocate)] at hget
  have hlookup : entries.lookup name = some (.file content executable) := by
    simpa [Node.get?] using hget
  rw [Store.content, locate_of_reachFrom dots (locateBase_eq_ok_iff.1 hlocate) hname hsteps hdots
    hstart hfits.taken hshort hslash hlookup (by simp)]

section Renamed

variable {content : ByteArray} {executable : Bool}

/-- A file that is moved over what is no directory brings no new way. -/
theorem waysAgree_of_renamed (hat : ∀ q, t.at? q =
    if q = place then some (.file content executable)
    else if q = temporary then none else s.at? q) : WaysAgree s t := by
  intro q item item' hs ht hitem hitem'
  rw [hat] at ht
  split at ht
  · cases ht
    exact hitem'.elim
  · split at ht
    · cases ht
    · rw [hs] at ht
      exact Option.some.inj ht

/-- It takes a way away only with a link. -/
theorem keepsWays_of_renamed (hat : ∀ q, t.at? q =
    if q = place then some (.file content executable)
    else if q = temporary then none else s.at? q)
    (hfile : s.at? temporary = some (.file content executable)) (hdir : s.at? place ≠ some .dir)
    (hlink : ∀ target, s.at? place ≠ some (.link target)) : KeepsWays s t := by
  intro q item hs hitem
  rw [hat]
  split
  · next heq =>
    subst heq
    cases item with
    | dir => exact absurd hs hdir
    | link target => exact absurd hs (hlink target)
    | file _ _ => exact hitem.elim
  · split
    · next heq =>
      rw [heq, hfile] at hs
      cases hs
      exact hitem.elim
    · exact hs

end Renamed

/-- Moving the temporary file puts the text where the path leads, and changes nothing else. -/
theorem Drafted.rename (h : Drafted path text s u temporary)
    (hdone : u.get? temporary = some (.file text.toUTF8 false))
    (hrename : u.renameFile temporary path = .ok t) : ∃ place, Moved path text s t place := by
  have hslash := endsInSlash_of_renameFile hrename
  obtain ⟨dir, entries, other, rfl, hother, hlocate⟩ := h.place
  obtain ⟨hfits, dots, name, hname, hsteps, hdots, hstart, hold, hcwd, hat⟩ :=
    at?_of_renameFile hlocate hother hdone hrename
  have hnew : t.at? (dir ++ [name]) = some (.file text.toUTF8 false) := by rw [hat, if_pos rfl]
  refine ⟨dir ++ [name], ⟨hcwd.trans h.prepared.cwd_eq, fun q hq => ?_⟩,
    ⟨dir, dots, name, rfl, hname, hsteps, hdots, h.leadsTo hlocate⟩, hnew, ?_⟩
  · unfold Made
    rw [hat, if_neg hq]
    split
    · next heq => exact .inl (by rw [heq, h.old])
    · next hne => exact h.prepared.at?_or q hne
  · by_cases hagain : ∃ there entries, t.locateBase (parentOf path) = .ok (there, .dir entries)
    · obtain ⟨there, entries', hlocate'⟩ := hagain
      obtain rfl : there = dir := locateBase_unique (waysAgree_of_renamed hat) hcwd hlocate
        (List.append_nil _).symm nofun rfl hlocate'
      exact .inl (content_of_locateBase hlocate' hfits hname hsteps hdots (hstart _) hslash hnew)
    · refine .inr ⟨?_, fun there entries hlocate' => hagain ⟨there, entries, hlocate'⟩⟩
      by_contra hnolink
      have hkeep : KeepsWays u t :=
        keepsWays_of_renamed hat (at?_eq_file_iff.2 hdone) hold fun target hlink =>
          hnolink ⟨target, (h.sameLinks _ target).1 hlink⟩
      have hhome : t.at? (startOf (parentOf path) u.cwd) ≠ none := by
        rw [hat]
        split
        · simp
        · rw [if_neg (by rw [h.prepared.cwd_eq]; exact h.start)]
          exact at?_start_of_reachFrom (locateBase_eq_ok_iff.1 hlocate)
      obtain ⟨entries', hlocate'⟩ := locateBase_dir_kept hkeep hcwd hhome hlocate
      exact hagain ⟨dir, entries', hlocate'⟩

/-! ## What a run has changed -/

theorem Step.known {x y : Stage × Store} (h : Step path text x y) (hx : Known path text s x) :
    Known path text s y := by
  cases h with
  | makeDir habove hmake => exact hx.makeDir habove hmake
  | create hlocate hname hfresh => exact .create hx hlocate hname hfresh
  | write t temporary n => exact hx.write n
  | rename hdone hrename => exact hx.rename hdone hrename
  | failPreparing => exact hx
  | failDrafting => exact hx
  | drop => exact hx.drop

theorem Run.known {stage : Stage} (h : Run path text s stage t) : Known path text s (stage, t) := by
  have hstart : Known path text s (.preparing, s) := PreparedBut.refl s
  have hrun : ∀ y, Relation.ReflTransGen (Step path text) (.preparing, s) y →
      Known path text s y := by
    intro y hy
    induction hy with
    | refl => exact hstart
    | tail _ hstep ih => exact hstep.known ih
  exact hrun _ h

/-- A path names one place. -/
theorem names_unique {q' : Place} (h : s.Names path q) (h' : s.Names path q') : q = q' := by
  obtain ⟨dir, dots, name, rfl, -, hsteps, -, hdir⟩ := h
  obtain ⟨dir', dots', name', rfl, -, hsteps', -, hdir'⟩ := h'
  obtain rfl := hdir.unique hdir'
  rw [(List.append_inj' (hsteps.symm.trans hsteps') rfl).2]

/-- What replacing a file has changed at some stage. -/
structure Kept (path text : String) (s : Store) (stage : Stage) (t : Store) : Prop where
  /-- Nothing but the temporary file and, at the end, what the path names is changed, except for
  directories that the way to it needs. -/
  at?_or : ∀ q, stage.temporary? ≠ some q → (stage = .replaced → ¬ s.Names path q) →
    t.at? q = s.at? q ∨ Made s t q ∧ s.Needs (parentOf path) q
  /-- If the way does not go over `..`, these directories are no entries of the file's. -/
  beside : ".." ∉ steps (parentOf path) → ∀ dir name,
    s.LeadsTo (startOf (parentOf path) s.cwd) (steps (parentOf path)) dir →
      stage.temporary? ≠ some (dir ++ [name]) →
        (stage = .replaced → ¬ s.Names path (dir ++ [name])) →
          t.at? (dir ++ [name]) = s.at? (dir ++ [name])
  /-- The temporary file is in the directory of the file, where nothing was, and has a beginning of
  the text. -/
  temporary : ∀ q, stage.temporary? = some q → s.at? q = none ∧
    s.LeadsTo (startOf (parentOf path) s.cwd) (steps (parentOf path)) q.dropLast ∧
      ∃ n, t.at? q = some (.file (text.toUTF8.extract 0 n) false)
  /-- At the end the text is what the path names.  It is read there unless it took the place of a
  link that the way to the directory goes over. -/
  replaced : stage = .replaced → ∃ q, s.Names path q ∧ (∀ q', s.Names path q' → q' = q) ∧
    t.at? q = some (.file text.toUTF8 false) ∧
      (t.content path = .ok text.toUTF8 ∨ (∃ target, s.at? q = some (.link target)) ∧
        ∀ there entries, t.locateBase (parentOf path) ≠ .ok (there, .dir entries))
  /-- Before, what the path led to is read as ever. -/
  content : stage ≠ .replaced → ∀ bytes, s.content path = .ok bytes → t.content path = .ok bytes

/-- All but some places where nothing was is as before, but for new directories. -/
theorem content_of_prepared {P : Place → Prop} {parent : String} {bytes : ByteArray}
    (h : PreparedBut P parent s t) (hP : ∀ q, P q → s.at? q = none)
    (hcontent : s.content path = .ok bytes) : t.content path = .ok bytes := by
  unfold Store.content at hcontent
  split at hcontent
  · cases hcontent
  · next place content executable hlocate =>
    cases hcontent
    have hfile := at?_eq_file_iff.2 (get?_of_locate hlocate)
    have hsame : t.at? place = s.at? place := by
      rcases h.at?_or place (fun hq => by simp [hP _ hq] at hfile) with heq | ⟨⟨hnone, -⟩, -⟩
      · exact heq
      · rw [hfile] at hnone
        cases hnone
    rw [Store.content,
      locate_file_mono (h.keepsWays hP) h.cwd_eq (h.at?_ne_none hP) hlocate hsame]
  · cases hcontent

/-- Without `..`, a directory that was made is no entry of the directory that was made for. -/
theorem at?_entry_of_prepared (hup : ".." ∉ steps path)
    (hdir : s.LeadsTo (startOf path s.cwd) (steps path) dir)
    (h : t.at? (dir ++ [name]) = s.at? (dir ++ [name]) ∨
      Made s t (dir ++ [name]) ∧ s.Needs path (dir ++ [name])) :
    t.at? (dir ++ [name]) = s.at? (dir ++ [name]) := by
  rcases h with heq | ⟨⟨hnone, -⟩, hneeds⟩
  · exact heq
  · have hlength := (hneeds.prefix_directory hnone hup hdir).length_le
    rw [List.length_append, List.length_singleton] at hlength
    omega

theorem Run.kept {stage : Stage} (h : Run path text s stage t) : Kept path text s stage t := by
  have hknown := h.known
  have hat : ∀ q, stage.temporary? ≠ some q → (stage = .replaced → ¬ s.Names path q) →
      t.at? q = s.at? q ∨ Made s t q ∧ s.Needs (parentOf path) q := by
    intro q htemporary hnames
    cases stage with
    | preparing => exact hknown.at?_or q id
    | drafting temporary => exact hknown.prepared.at?_or q fun heq => htemporary (by rw [heq]; rfl)
    | replaced =>
      obtain ⟨place, hmoved⟩ := hknown
      exact hmoved.prepared.at?_or q fun heq => hnames rfl (heq ▸ hmoved.names)
    | failed temporary? =>
      cases temporary? with
      | none => exact hknown.at?_or q id
      | some temporary =>
        exact hknown.prepared.at?_or q fun heq => htemporary (by rw [heq]; rfl)
  have hdrafted : ∀ q, stage.temporary? = some q → Drafted path text s t q := by
    intro q hq
    cases stage with
    | preparing => cases hq
    | drafting temporary => cases hq; exact hknown
    | replaced => cases hq
    | failed temporary? => cases hq; exact hknown
  refine ⟨hat, fun hup dir name hdir htemporary hnames =>
    at?_entry_of_prepared hup hdir (hat _ htemporary hnames), fun q hq => ?_, fun hstage => ?_,
    fun hstage bytes hcontent => ?_⟩
  · have hdraft := hdrafted q hq
    obtain ⟨dir, entries, name, rfl, -, hlocate⟩ := hdraft.place
    refine ⟨hdraft.old, ?_, hdraft.new⟩
    rw [List.dropLast_concat]
    exact hdraft.leadsTo hlocate
  · subst hstage
    obtain ⟨place, hmoved⟩ := hknown
    exact ⟨place, hmoved.names, fun q' hq' => names_unique hq' hmoved.names, hmoved.new,
      hmoved.read⟩
  · cases htemporary : stage.temporary? with
    | some temporary =>
      have hdraft := hdrafted temporary htemporary
      exact content_of_prepared hdraft.prepared (fun q hq => hq ▸ hdraft.old) hcontent
    | none =>
      have hprepared : PreparedBut (fun _ => False) (parentOf path) s t := by
        cases stage with
        | preparing => exact hknown
        | drafting temporary => cases htemporary
        | replaced => exact absurd rfl hstage
        | failed temporary? => cases htemporary; exact hknown
      exact content_of_prepared hprepared (fun _ => False.elim) hcontent

/-! ## The operation as a run -/

theorem Run.tail {stage stage' : Stage} (h : Run path text s stage t)
    (hstep : Step path text (stage, t) (stage', u)) : Run path text s stage' u :=
  Relation.ReflTransGen.tail h hstep

/-- Making a directory with its ancestors goes on with the run. -/
theorem run_makeDirs {d : String} (hd : Path.Above (parentOf path) d) (fuel : Nat)
    (h : Run path text s .preparing t) : Run path text s .preparing (t.makeDirs fuel d).2 := by
  induction fuel generalizing t d with
  | zero => exact h
  | succ fuel ih =>
    rw [Store.makeDirs]
    split
    · exact h
    · split
      · next hmake => exact h.tail (.makeDir hd hmake)
      · split
        · exact h
        · next parent hparent =>
          have hmakes := ih (hd.tail hparent) h
          split
          · next heq => rwa [heq] at hmakes
          · next u heq =>
            rw [heq] at hmakes
            split
            · next hmake => exact hmakes.tail (.makeDir hd hmake)
            · split <;> exact hmakes
      · split <;> exact h

theorem run_ensureDir (path text : String) (s : Store) :
    Run path text s .preparing (ensureDir (parentOf path) s).2 := by
  have hstart : Run path text s .preparing s := .refl
  unfold ensureDir
  rw [Stateful.get_bind]
  split
  · exact hstart
  · rw [makeDirs, ofOutcome_apply]
    exact run_makeDirs .refl _ hstart

/-- A temporary file with a fresh name is written, as far as that goes, and moved or dropped. -/
theorem exists_run_replaceBy {r : Except Failure Unit}
    (hrun : Run path text s .preparing u)
    (hlocate : u.locateBase (parentOf path) = .ok (dir, .dir entries))
    (hname : isEntryName name = true) (hfresh : name ∉ entries.map (·.1))
    (h : replaceBy (dir ++ [name]) path text u = (r, t)) :
    ∃ stage, Run path text s stage t ∧ (r = .ok () → stage = .replaced) ∧
      ∀ e, r = .error e → stage = .failed none := by
  have hdir := at?_eq_dir_iff.2 ⟨entries, get?_of_locateBase hlocate⟩
  have hnone := at?_eq_none_of_not_mem (get?_of_locateBase hlocate) hfresh []
  have hdrafted : ∀ n, Run path text s (.drafting (dir ++ [name]))
      (withTemporary u (dir ++ [name]) (text.toUTF8.extract 0 n)) := fun n =>
    (hrun.tail (.create hlocate hname hfresh)).tail (.write _ _ n)
  have hdropped : ∀ {v}, Run path text s (.drafting (dir ++ [name])) v →
      Run path text s (.failed none) (v.erase (dir ++ [name])) := fun hv =>
    (hv.tail (.failDrafting _ _)).tail (.drop _ _)
  rcases replaceBy_cases (dir ++ [name]) path text u with ⟨written, cause, hfails⟩ | hmoves
  · rw [hfails] at h
    cases h
    exact ⟨.failed none, hdropped (hdrafted written), nofun, fun _ _ => rfl⟩
  · have hall := hdrafted text.toUTF8.size
    rw [ByteArray.extract_zero_size] at hall
    rw [hmoves, persist_apply] at h
    split at h
    · next v hrename =>
      cases h
      have hfile := at?_withTemporary hdir hname hnone text.toUTF8 (dir ++ [name])
      rw [if_pos rfl] at hfile
      exact ⟨.replaced, hall.tail (.rename (at?_eq_file_iff.1 hfile) hrename), fun _ => rfl, nofun⟩
    · cases h
      exact ⟨.failed none, hdropped hall, nofun, fun _ _ => rfl⟩

/-- Replacing a file is a run that ends with the text in place, or with a dropped failure. -/
theorem exists_run_writeAtomic {r : Except Failure Unit} (h : writeAtomic path text s = (r, t)) :
    ∃ stage, Run path text s stage t ∧ (r = .ok () → stage = .replaced) ∧
      ∀ e, r = .error e → stage = .failed none := by
  have hensured := run_ensureDir path text s
  rcases writeAtomic_cases path text s with
    ⟨r', e, u, hensure, hrun⟩ | ⟨u, dir, entries, hensure, hlocate, hrun⟩
  · rw [hrun] at h
    cases h
    rw [hensure] at hensured
    exact ⟨.failed none, hensured.tail (.failPreparing _), nofun, fun _ _ => rfl⟩
  · rw [hensure] at hensured
    rw [hrun] at h
    exact exists_run_replaceBy hensured hlocate (isEntryName_freshName _) (freshName_not_mem _) h

/-- Wherever the replacement of a file stops, what it has changed is known: a failure leaves what
the path leads to, and a success puts the text there. -/
theorem replacement_atomic (path text : String) (s : Store) :
    (∀ stage t, Run path text s stage t → Kept path text s stage t) ∧
      ∀ r t, writeAtomic path text s = (r, t) → ∃ stage, Run path text s stage t ∧
        (r = .ok () → stage = .replaced) ∧ ∀ e, r = .error e → stage = .failed none :=
  ⟨fun _ _ => Run.kept, fun _ _ => exists_run_writeAtomic⟩

/-- Replacing a file may make another entry beside it, and a directory where it should be; its place
may have the temporary file for a while, whose name is fresh but may be the same; and the path leads
nowhere once the link is replaced that it goes over. -/
theorem replacement_not_exact :
    (¬ ∀ (path text : String) (s t : Store) (dir : Place) (name : String),
      writeAtomic path text s = (.ok (), t) →
        (t.locateBase (parentOf path)).map (·.1) = .ok dir → Path.fileName? path ≠ some name →
          t.at? (dir ++ [name]) = s.at? (dir ++ [name])) ∧
      (¬ ∀ (path text : String) (s t : Store) (e : Failure),
        writeAtomic path text s = (.error e, t) → t.exists? path = s.exists? path) ∧
      (¬ ∀ (path text : String) (s t : Store) (stage : Stage) (q : Place),
        Run path text s stage t → s.Names path q →
          t.at? q = s.at? q ∨ t.at? q = some (.file text.toUTF8 false)) ∧
      ¬ ∀ (path text : String) (s t : Store),
        writeAtomic path text s = (.ok (), t) → t.content path = .ok text.toUTF8 := by
  refine ⟨fun h => ?_, fun h => ?_, fun h => ?_, fun h => ?_⟩
  · have hsame := h "a/../x" "t" Store.empty (writeAtomic "a/../x" "t" Store.empty).2 [] "a" rfl rfl
      (by decide)
    have hmade : (writeAtomic "a/../x" "t" Store.empty).2.at? ["a"] = some .dir := rfl
    exact absurd (hmade.symm.trans hsame) (by decide)
  · have hsame := h "a/../a" "t" Store.empty (writeAtomic "a/../a" "t" Store.empty).2 _ rfl
    exact absurd hsame (by decide)
  · have hlocate : Store.empty.locateBase (parentOf ".tmp000000") = .ok ([], .dir []) := rfl
    have hrun : Run ".tmp000000" "t" Store.empty (.drafting [".tmp000000"])
        (Store.empty.putFile [".tmp000000"] .empty false) :=
      .single (.create hlocate (by decide) (by simp))
    have hnames : Store.empty.Names ".tmp000000" [".tmp000000"] :=
      ⟨[], [], ".tmp000000", rfl, by decide, by decide, nofun, .here []⟩
    have hfile : (Store.empty.putFile [".tmp000000"] .empty false).at? [".tmp000000"] =
        some (.file .empty false) := rfl
    rcases h _ _ _ _ _ _ hrun hnames with hsame | hsame
    · exact absurd (hfile.symm.trans hsame) (by decide)
    · exact absurd (hfile.symm.trans hsame) (by decide)
  · have hread := h "x/x" "t" (Store.empty.putLink ["x"] ".")
      (writeAtomic "x/x" "t" (Store.empty.putLink ["x"] ".")).2 rfl
    have hlost : (writeAtomic "x/x" "t" (Store.empty.putLink ["x"] ".")).2.content "x/x" =
        .error .notDirectory := rfl
    exact absurd (hlost.symm.trans hread) nofun

end FileAction

end Autotree
