import Autotree.Proofs.Store.Confined

/-!
# Ways over directories

A way is open (`WayTo`) when each name on it is that of a directory and none is too long.  An open
way leads to the place that its steps name, whatever is made of links (`WayTo.reachFrom_eq`), and
where no link stands every way to a directory is open.  Making a directory opens the way to it
(`opened_of_makeDirs`), or fails and then makes at most directories that come earlier on the way
(`made_of_makeDirs_error`).
-/

namespace Autotree.Store

variable {s t : Store} {start trail place q : Place} {node : Node} {path parent name step : String}
  {xs ys rest : List String} {toLast slash : Bool} {links fuel : Nat} {reach : Reach} {e : Errno}
  {entries : List (String × Node)}

/-- Each name on a way is that of a directory, and none is too long. -/
def WayTo (s : Store) : Place → List String → Prop
  | _, [] => True
  | start, step :: rest =>
    (isEntryName step = true → s.at? (stepFrom start step) = some .dir ∧ ¬ Overlong step) ∧
      s.WayTo (stepFrom start step) rest

/-- Each name on a way, but the last, is that of a directory, and none is too long. -/
def WayUpTo (s : Store) : Place → List String → Prop
  | _, [] => True
  | start, step :: rest =>
    (isEntryName step = true →
      (rest ≠ [] → s.at? (stepFrom start step) = some .dir) ∧ ¬ Overlong step) ∧
      s.WayUpTo (stepFrom start step) rest

/-- Steps that never go up lead downwards. -/
theorem prefix_follow (h : ".." ∉ xs) (place : Place) : place <+: follow place xs := by
  induction xs generalizing place with
  | nil => exact List.prefix_refl _
  | cons step xs ih =>
    obtain ⟨hstep, hxs⟩ := List.ne_and_not_mem_of_not_mem_cons h
    rw [follow_cons]
    refine List.IsPrefix.trans ?_ (ih hxs _)
    rw [stepFrom, if_neg hstep.symm]
    split
    · exact List.prefix_refl _
    · exact List.prefix_append _ _

/-! ## Walking -/

theorem WayTo.walk_eq (h : s.WayTo trail.reverse xs) (toLast slash : Bool)
    (hxs : ∀ x ∈ xs, IsStep x) (hnode : s.get? trail.reverse = some node) :
    ∃ found, s.get? (follow trail.reverse xs) = some found ∧
      s.walk toLast slash trail node xs = .ended (.found (follow trail.reverse xs) found) := by
  induction xs generalizing trail node with
  | nil => exact ⟨node, hnode, rfl⟩
  | cons step xs ih =>
    obtain ⟨hdir, hrest⟩ := h
    obtain ⟨hstep, hsteps⟩ := List.forall_mem_cons.1 hxs
    rw [follow_cons]
    rcases hstep.dot_or_up_or_name with rfl | rfl | hname
    · rw [stepFrom_dot] at hrest ⊢
      rw [walk_dot]
      exact ih hrest hsteps hnode
    · obtain ⟨parent, hparent⟩ := exists_dir_tail hnode
      rw [stepFrom_up_reverse] at hrest ⊢
      rw [walk_up hparent]
      exact ih hrest hsteps hparent
    · obtain ⟨-, hdot, hup⟩ := isEntryName_iff.1 hname
      rw [stepFrom_name_reverse hname] at hdir hrest ⊢
      obtain ⟨hthere, hshort⟩ := hdir hname
      obtain ⟨entries, hentries⟩ := at?_eq_dir_iff.1 hthere
      have hget : node.get? [step] = some (.dir entries) :=
        (get?_cons_reverse hnode step).symm.trans hentries
      rw [walk, if_neg hdot, if_neg hup, if_neg hshort, hget]
      exact ih hrest hsteps hentries

theorem wayUpTo_of_walk (hxs : ∀ x ∈ xs, IsStep x) (hnode : s.get? trail.reverse = some node)
    (h : s.walk toLast slash trail node xs = .ended reach) : s.WayUpTo trail.reverse xs := by
  induction xs generalizing trail node with
  | nil => trivial
  | cons step xs ih =>
    obtain ⟨hstep, hsteps⟩ := List.forall_mem_cons.1 hxs
    rcases hstep.dot_or_up_or_name with rfl | rfl | hname
    · rw [walk_dot] at h
      refine ⟨fun hname => absurd hname not_isEntryName_dot, ?_⟩
      rw [stepFrom_dot]
      exact ih hsteps hnode h
    · obtain ⟨parent, hparent⟩ := exists_dir_tail hnode
      rw [walk_up hparent] at h
      refine ⟨fun hname => absurd hname not_isEntryName_up, ?_⟩
      rw [stepFrom_up_reverse]
      exact ih hsteps hparent h
    · obtain ⟨-, hdot, hup⟩ := isEntryName_iff.1 hname
      have hget := get?_cons_reverse hnode step
      rw [walk, if_neg hdot, if_neg hup] at h
      split at h
      · cases h
      next hshort =>
      have hlast (hempty : xs.isEmpty = true) : s.WayUpTo trail.reverse (step :: xs) := by
        rw [List.isEmpty_iff.1 hempty]
        exact ⟨fun _ => ⟨fun hne => absurd rfl hne, hshort⟩, trivial⟩
      -- a walk that ends at its last name has nothing left to show, and it goes on into
      -- directories only
      split at h
      · split at h
        · next hmissing => exact hlast (Bool.and_eq_true_iff.1 hmissing).1
        · cases h
      · next entries hentries =>
        rw [WayUpTo, stepFrom_name_reverse hname]
        exact ⟨fun _ => ⟨fun _ => at?_eq_dir_iff.2 ⟨entries, hget.trans hentries⟩, hshort⟩,
          ih hsteps (hget.trans hentries) h⟩
      · split at h
        · next hfound => exact hlast (Bool.and_eq_true_iff.1 hfound).1
        · cases h
      · split at h
        · next hfound =>
          exact hlast (Bool.and_eq_true_iff.1 (Bool.and_eq_true_iff.1 hfound).1).1
        · cases h

/-! ## Open ways -/

theorem WayTo.mono (h : s.WayTo start xs)
    (hkeep : ∀ ys, ys <+: xs → s.at? (follow start ys) = some .dir →
      t.at? (follow start ys) = some .dir) : t.WayTo start xs := by
  induction xs generalizing start with
  | nil => trivial
  | cons step xs ih =>
    obtain ⟨hdir, hrest⟩ := h
    have hfirst : [step] <+: step :: xs := List.prefix_append [step] xs
    refine ⟨?_, ih hrest ?_⟩
    · intro hname
      exact ⟨hkeep [step] hfirst (hdir hname).1, (hdir hname).2⟩
    · intro ys hys
      exact hkeep (step :: ys) (List.cons_prefix_cons.2 ⟨rfl, hys⟩)

theorem wayTo_of_dots {dots : List String} (h : ∀ d ∈ dots, d = ".") : s.WayTo start dots := by
  induction dots generalizing start with
  | nil => trivial
  | cons d dots ih =>
    obtain ⟨rfl, hdots⟩ := List.forall_mem_cons.1 h
    exact ⟨fun hname => absurd hname not_isEntryName_dot, ih hdots⟩

theorem wayTo_append :
    s.WayTo start (xs ++ ys) ↔ s.WayTo start xs ∧ s.WayTo (follow start xs) ys := by
  induction xs generalizing start with
  | nil => simp [WayTo]
  | cons step xs ih => simp only [List.cons_append, WayTo, follow_cons, ih, and_assoc]

theorem WayUpTo.wayTo (h : s.WayUpTo start xs) (hdir : s.at? (follow start xs) = some .dir) :
    s.WayTo start xs := by
  induction xs generalizing start with
  | nil => trivial
  | cons step xs ih =>
    refine ⟨?_, ih h.2 hdir⟩
    intro hname
    obtain ⟨hthere, hshort⟩ := h.1 hname
    refine ⟨?_, hshort⟩
    by_cases hxs : xs = []
    · rw [hxs] at hdir
      exact hdir
    · exact hthere hxs

theorem WayUpTo.mono (h : s.WayUpTo start xs)
    (hkeep : ∀ place, s.at? place = some .dir → t.at? place = some .dir) : t.WayUpTo start xs := by
  induction xs generalizing start with
  | nil => trivial
  | cons step xs ih =>
    refine ⟨?_, ih h.2⟩
    intro hname
    exact ⟨fun hne => hkeep _ ((h.1 hname).1 hne), (h.1 hname).2⟩

/-- An open way leads to the place that its steps name. -/
theorem WayTo.reachFrom_eq (h : s.WayTo start xs) (toLast : Bool) (links : Nat) (slash : Bool)
    (hxs : ∀ x ∈ xs, IsStep x) (hstart : s.at? start ≠ none) :
    ∃ found, s.get? (follow start xs) = some found ∧
      s.reachFrom toLast links slash start xs = .ok (.found (follow start xs) found) := by
  obtain ⟨node, hnode⟩ := Option.ne_none_iff_exists'.1 (mt at?_eq_none_iff.2 hstart)
  have hway : s.WayTo start.reverse.reverse xs := by rwa [List.reverse_reverse]
  obtain ⟨found, hfound, hwalk⟩ := hway.walk_eq toLast slash hxs (by rwa [List.reverse_reverse])
  rw [List.reverse_reverse] at hfound hwalk
  refine ⟨found, hfound, ?_⟩
  rw [reachFrom, hnode]
  simp only [hwalk]

/-- Where no link stands, a path that can be followed has an open way up to its last step. -/
theorem wayUpTo_of_reachFrom (hfree : s.LinkFree) (hxs : ∀ x ∈ xs, IsStep x)
    (h : s.reachFrom toLast links slash start xs = .ok reach) :
    s.at? start ≠ none ∧ s.WayUpTo start xs := by
  rw [reachFrom] at h
  cases hnode : s.get? start with
  | none =>
    rw [hnode] at h
    cases h
  | some node =>
    rw [hnode] at h
    simp only at h
    refine ⟨by simp [at?, hnode], ?_⟩
    have hnode' : s.get? start.reverse.reverse = some node := by rwa [List.reverse_reverse]
    have hsound := walk_sound_from toLast slash hnode hxs
    cases hwalk : s.walk toLast slash start.reverse node xs with
    | ended r =>
      have hway := wayUpTo_of_walk hxs hnode' hwalk
      rwa [List.reverse_reverse] at hway
    | refused e =>
      rw [hwalk] at h
      cases h
    | atLink target dir rest =>
      rw [hwalk] at hsound
      obtain ⟨-, ⟨place, hlink⟩, -⟩ := hsound
      exact absurd hlink (hfree.get?_ne place target)

/-- The way of a path that the system takes is open. -/
structure Opened (cwd : Place) (path : String) (s : Store) : Prop where
  taken : ¬ Refused path
  home : s.at? (startOf path cwd) ≠ none
  way : s.WayTo (startOf path cwd) (steps path)

theorem opened_of_isDir (hfree : s.LinkFree) (h : s.isDir path = true) : Opened s.cwd path s := by
  obtain ⟨place, entries, hlocate⟩ := isDir_eq_true_iff.1 h
  obtain ⟨-, hreach⟩ := reach_found_dir hlocate
  obtain ⟨hstart, hway⟩ := wayUpTo_of_reachFrom hfree (fun _ => isStep_of_mem_steps) hreach
  exact ⟨not_refused_of_locate hlocate, hstart, hway.wayTo (at?_placeOf_of_isDir hfree h)⟩

/-! ## Making directories -/

theorem opened_of_makeDir (hfree : s.LinkFree) (h : s.makeDir path = .ok t) :
    Opened s.cwd path t := by
  have hmade : Confined (fun _ => False) (s.OnWayOf path) s t := makeDir_confined h
  obtain ⟨place, hreach, -⟩ := makeDir_eq_ok h
  unfold reachName at hreach
  split at hreach
  · cases hreach
  · next htaken =>
    obtain ⟨hstart, hway⟩ := wayUpTo_of_reachFrom hfree (fun _ => isStep_of_mem_steps) hreach
    refine ⟨htaken, ?_, ?_⟩
    · obtain ⟨item, hitem⟩ := Option.ne_none_iff_exists'.1 hstart
      rw [hmade.at?_eq_some id hitem]
      exact Option.some_ne_none item
    · have hkept := hway.mono fun place hdir => hmade.at?_eq_some id hdir
      exact hkept.wayTo (at?_of_makeDir hfree h)

/-- A directory that was made with its ancestors has an open way to it. -/
theorem opened_of_makeDirs (hfree : s.LinkFree) (hpath : path ≠ "")
    (h : s.makeDirs (fuel + 1) path = (.ok (), t)) : Opened s.cwd path t := by
  obtain ⟨u, hcwd, hlinks, hlast⟩ := makeDirs_eq_ok hpath h
  rw [← hcwd]
  rcases hlast with hmake | ⟨hdir, rfl⟩
  · exact opened_of_makeDir (hlinks hfree) hmake
  · exact opened_of_isDir (hlinks hfree) hdir

/-- A place that the first steps of a path name, and not all of them. -/
def BeforeOn (dir : Place) (path : String) (place : Place) : Prop :=
  ∃ xs, xs <+: steps path ∧ xs ≠ steps path ∧ place = follow (startOf path dir) xs

theorem OnWay.beforeOn {dir : Place} (h : Path.parent? path = some parent)
    (hway : OnWay dir parent place) : BeforeOn dir path place := by
  obtain ⟨xs, hxs, rfl⟩ := hway
  obtain ⟨dots, last, after, hsteps, -, -⟩ := steps_parent h
  refine ⟨xs, hxs.trans (prefix_steps_parent h), ?_, by rw [startOf_parent h]⟩
  rintro rfl
  have hlength := hxs.length_le
  rw [hsteps] at hlength
  simp only [List.length_append, List.length_cons] at hlength
  omega

theorem BeforeOn.onWay {dir : Place} (h : BeforeOn dir path place) : OnWay dir path place := by
  obtain ⟨xs, hxs, -, rfl⟩ := h
  exact ⟨xs, hxs, rfl⟩

/-- Where a directory could not be made, at most directories before it were. -/
theorem made_of_makeDirs_error (hfree : s.LinkFree) (h : s.makeDirs fuel path = (.error e, t)) :
    Confined (fun _ => False) (BeforeOn s.cwd path) s t := by
  induction fuel generalizing path with
  | zero => cases h
  | succ fuel ih =>
    rcases makeDirs_eq_error h with rfl | ⟨-, parent, hparent, hmakes | hmakes⟩
    · exact .refl _
    · exact (ih hmakes).mono (fun _ => id) fun q hq => .inl (hq.onWay.beforeOn hparent)
    · have hway := s.makeDirs_confined fuel parent (T := fun _ => False)
      rw [hmakes] at hway
      exact hway.mono (fun _ => id) fun q hq => .inl ((hq hfree).beforeOn hparent)

/-- A directory is made after the one above it: either that one could not be made, or the way to
it is open now. -/
theorem makeDirs_error (hfree : s.LinkFree) (hparent : Path.parent? path = some parent)
    (hne : parent ≠ "") (h : s.makeDirs (fuel + 2) path = (.error e, t)) :
    Confined (fun _ => False) (BeforeOn s.cwd parent) s t ∨
    ¬ Refused path ∧ Opened s.cwd parent t := by
  rcases makeDirs_eq_error h with rfl | ⟨htaken, above, habove, hmakes⟩
  · exact .inl (.refl _)
  · obtain rfl : above = parent := Option.some.inj (habove.symm.trans hparent)
    rcases hmakes with hmakes | hmakes
    · exact .inl (made_of_makeDirs_error hfree hmakes)
    · exact .inr ⟨htaken, opened_of_makeDirs hfree hne hmakes⟩

end Autotree.Store
