import Autotree.Proofs.Store.Leads
import Autotree.Proofs.Store.Merge

/-!
# What a copy comes to

A directory is listed when a copy gets there, so a copy comes to what it made itself if its target
is below its source.  `Visits` says which entries a copy comes to.  They are those of the source if
what is copied adds nothing to it (`AddsNothing`), and they are never deeper than the source if what
is copied there goes no deeper (`GoesNoDeeper`).  Without links below the target the first holds of
a target that is the source itself or apart from it, the second of all that are not strictly below
it; to a place strictly below it no copy ever ends in success, no matter how many levels it may go
down (`copyTree_visits`).

All of it comes from one invariant of a run, `Within`: what is below the source is known, where
`Closed` says that what is known stays so where it is copied to below the source.  What counts as
known is left open; that the places were there before, and that they are not too deep, are the two
that matter.
-/

namespace Autotree

namespace FileAction

open Store Stateful

variable {s t u v base : Store} {source target root path name : String} {p q r x : Place}
  {levels : Nat} {entries rest : List (String × Node)} {entry : String × Node} {item : Item}
  {reach : Reach} {known : Place → Bool → Prop}

/-! ## The entries that a copy comes to -/

/-- How a copy begins with a directory: it makes the target and lists the source. -/
def openLevel (source target : String) : FileAction (List (String × Node)) := do
  makeDirs target
  list source

theorem copyLevels_succ (levels : Nat) (source target : String) :
    copyLevels (levels + 1) source target =
      openLevel source target >>= copyEntries (copyLevels levels) source target := by
  rw [copyLevels, openLevel]
  simp only [bind_assoc]

/-- A copy of a directory comes to one of its entries, once those before it are copied. -/
def ComesTo (levels : Nat) (source target : String) (s : Store) (entry : String × Node)
    (v : Store) : Prop :=
  ∃ before after u, openLevel source target s = (.ok (before ++ entry :: after), u) ∧
    copyEntries (copyLevels levels) source target before u = (.ok (), v)

/-- A copy comes to a place below its source. -/
inductive Visits : Nat → String → String → Store → Place → Prop where
  | entry {levels : Nat} {source target : String} {s v : Store} {entry : String × Node}
      (h : ComesTo levels source target s entry v) :
      Visits (levels + 1) source target s [entry.1]
  | inside {levels : Nat} {source target : String} {s v : Store} {entry : String × Node}
      {r : Place} (h : ComesTo levels source target s entry v) (hdir : entry.2.isDir = true)
      (hr : Visits levels (Path.join source entry.1) (Path.join target entry.1) v r) :
      Visits (levels + 1) source target s (entry.1 :: r)

theorem openLevel_eq_ok (h : openLevel source target s = (.ok entries, u)) :
    makeDirs target s = (.ok (), u) ∧ ∃ place, u.locate source = .ok (place, .dir entries) := by
  obtain ⟨⟨⟩, v, hmake, hlist⟩ := bind_eq_ok.1 h
  obtain ⟨rfl, hlocate⟩ := list_eq_ok.1 hlist
  exact ⟨hmake, hlocate⟩

theorem copyEntries_append (copyDir : String → String → FileAction Unit)
    (source target : String) (before after : List (String × Node)) :
    copyEntries copyDir source target (before ++ after) =
      (copyEntries copyDir source target before >>= fun _ =>
        copyEntries copyDir source target after) := by
  induction before with
  | nil => rfl
  | cons entry before ih =>
    rw [List.cons_append, copyEntries_cons, copyEntries_cons, ih]
    simp only [bind_assoc]

/-- A copy that succeeds comes to every entry, and copies it. -/
theorem comesTo_of_ok (h : copyLevels (levels + 1) source target s = (.ok (), t))
    (hopen : openLevel source target s = (.ok entries, u)) (he : entry ∈ entries) :
    ∃ v w, ComesTo levels source target s entry v ∧
      copyEntry (copyLevels levels) source target entry v = (.ok (), w) := by
  obtain ⟨before, after, rfl⟩ := List.append_of_mem he
  rw [copyLevels_succ, bind_ok hopen, copyEntries_append] at h
  obtain ⟨⟨⟩, v, hbefore, hrest⟩ := bind_eq_ok.1 h
  rw [copyEntries_cons] at hrest
  obtain ⟨⟨⟩, w, hentry, -⟩ := bind_eq_ok.1 hrest
  exact ⟨v, w, ⟨before, after, u, hopen, hbefore⟩, hentry⟩

/-! ## What a run keeps -/

/-- The place that a copy to `root` writes to for what is at `r` below its source. -/
def CopiedTo (base : Store) (root : String) (r x : Place) : Prop :=
  (∀ name ∈ r, isEntryName name = true) ∧
    base.LeadsTo (startOf root base.cwd) (steps root ++ r) x

/-- A change that adds places only to which known ones are copied. -/
structure Adds (known : Place → Bool → Prop) (base : Store) (root : String) (s t : Store) :
    Prop where
  spares : Spares (fun _ => True) s t
  new : ∀ x item, s.at? x = none → t.at? x = some item →
    ∃ r, known r item.isDir ∧ CopiedTo base root r x

theorem Adds.refl (s : Store) : Adds known base root s s :=
  ⟨.refl s, fun x item hs ht => by rw [hs] at ht; cases ht⟩

/-- What stands somewhere is only ever overwritten by its like. -/
theorem isDir_of_spares {old : Item} (h : Spares (fun _ => True) s t) (hs : s.at? x = some old)
    (ht : t.at? x = some item) : old.isDir = item.isDir := by
  rcases h.at?_or x with heq | ⟨hnone, -⟩ | ⟨-, hold, content, mode, hnew⟩
  · rw [heq, hs] at ht
    rw [Option.some.inj ht]
  · rw [hs] at hnone
    cases hnone
  · rw [hnew] at ht
    cases ht
    rw [hs] at hold
    rcases hold with hnone | ⟨content, mode, hold⟩
    · cases hnone
    · cases hold
      rfl

theorem Adds.trans (h : Adds known base root s t) (h' : Adds known base root t u) :
    Adds known base root s u where
  spares := h.spares.trans h'.spares
  new x item hs hu := by
    cases ht : t.at? x with
    | none => exact h'.new x item ht hu
    | some old =>
      rw [← isDir_of_spares h'.spares ht hu]
      exact h.new x old hs ht

/-- What is below the source is known. -/
structure Within (known : Place → Bool → Prop) (p : Place) (base s : Store) : Prop where
  spares : Spares (fun _ => True) base s
  known : ∀ r item, s.at? (p ++ r) = some item → known r item.isDir

/-- What is known is known, too, where it is copied to below the source. -/
def Closed (known : Place → Bool → Prop) (p : Place) (base : Store) (root : String) : Prop :=
  ∀ r r' d, known r d → CopiedTo base root r (p ++ r') → known r' d

theorem Within.of_adds (hclosed : Closed known p base root) (h : Within known p base s)
    (hadds : Adds known base root s t) : Within known p base t where
  spares := h.spares.trans hadds.spares
  known r item ht := by
    cases hs : s.at? (p ++ r) with
    | none =>
      obtain ⟨r', hr', hcopied⟩ := hadds.new _ item hs ht
      exact hclosed r' r _ hr' hcopied
    | some old =>
      rw [← isDir_of_spares hadds.spares hs ht]
      exact h.known r old hs

theorem leadsTo_of_opens (hlinks : SameLinks s u) (h : u.Opens path q) :
    s.LeadsTo (startOf path u.cwd) (steps path) q := by
  obtain ⟨entries, hlocate | ⟨rfl, rfl, -⟩⟩ := h
  · exact leadsTo_of_locate hlinks hlocate
  · exact .here u.cwd

/-- A path that names lead to from the target of a copy. -/
structure Below (root path : String) (r : Place) : Prop where
  names : ∀ name ∈ r, isEntryName name = true
  steps_eq : steps path = steps root ++ r
  startOf_eq : ∀ cwd, startOf path cwd = startOf root cwd

theorem Below.refl (root : String) : Below root root [] :=
  ⟨by simp, (List.append_nil _).symm, fun _ => rfl⟩

theorem Below.join (h : Below root path r) (hname : isEntryName name = true) :
    Below root (Path.join path name) (r ++ [name]) where
  names := List.forall_mem_append.2 ⟨h.names, List.forall_mem_singleton.2 hname⟩
  steps_eq := by
    rw [steps_join_name (isStep_of_isEntryName hname), h.steps_eq, List.append_assoc]
  startOf_eq cwd := by
    rw [startOf_join_name (isStep_of_isEntryName hname), h.startOf_eq]

/-- Where a path leads to nothing yet, what is copied there goes. -/
theorem Below.copiedTo_of_missing (h : Below root path r) (hspares : Spares (fun _ => True) base s)
    (hreach : s.reachName path = .ok (.missing x)) : CopiedTo base root r x := by
  unfold reachName at hreach
  split at hreach
  · cases hreach
  · rw [h.steps_eq, h.startOf_eq, hspares.cwd_eq] at hreach
    have hsteps : ∀ step ∈ steps root ++ r, IsStep step := by
      rw [← h.steps_eq]
      exact fun step => isStep_of_mem_steps
    exact ⟨h.names, leadsTo_of_reachFrom hspares.sameLinks hsteps (by simp) hreach rfl⟩

theorem Below.copiedTo_of_reachFile (h : Below root path r)
    (hspares : Spares (fun _ => True) base s) (hends : EndsInName (steps path))
    (hreach : s.reachFile path = .ok reach) : CopiedTo base root r reach.place := by
  have hleads := leadsTo_of_reachFile hspares.sameLinks hends hreach
  rw [h.steps_eq, h.startOf_eq, hspares.cwd_eq] at hleads
  exact ⟨h.names, hleads⟩

/-- A directory that a path opens is where a copy writes to. -/
theorem Below.copiedTo_of_opens (h : Below root path r) (hspares : Spares (fun _ => True) base s)
    (hopens : s.Opens path x) : CopiedTo base root r x := by
  have hleads := leadsTo_of_opens hspares.sameLinks hopens
  rw [h.steps_eq, h.startOf_eq, hspares.cwd_eq] at hleads
  exact ⟨h.names, hleads⟩

/-- A copy stands before an entry at a place below its source. -/
structure Entering (known : Place → Bool → Prop) (p : Place) (root : String) (s : Store)
    (source target : String) (r : Place) (entry : String × Node) : Prop where
  name : isEntryName entry.1 = true
  known : known (r ++ [entry.1]) entry.2.isDir
  source : entry.2.isDir = true → Fits (Path.join source entry.1) → ∃ entries,
    s.locate (Path.join source entry.1) = .ok (p ++ (r ++ [entry.1]), .dir entries)
  below : Below root target r
  target : ∃ place, s.Opens target place

theorem Entering.of_spares (h : Entering known p root s source target r entry)
    (hspares : Spares (fun _ => True) s t) : Entering known p root t source target r entry where
  name := h.name
  known := h.known
  source hdir hfits := by
    obtain ⟨entries, hlocate⟩ := h.source hdir hfits
    exact locate_dir_mono hspares.keepsWays hspares.cwd_eq hspares.at?_ne_none hlocate
  below := h.below
  target := by
    obtain ⟨place, hopens⟩ := h.target
    exact ⟨place, hopens.mono hspares.keepsWays hspares.cwd_eq hspares.at?_ne_none⟩

/-- What a listing of the source gives can be entered. -/
theorem Within.entering (h : Within known p base s)
    (hsource : s.locate source = .ok (p ++ r, .dir entries)) (hbelow : Below root target r)
    (htarget : ∃ place, s.Opens target place) (he : entry ∈ entries) :
    Entering known p root s source target r entry := by
  obtain ⟨name, node⟩ := entry
  have hv := Node.Valid.get? s.valid_root (get?_of_locate hsource)
  have hlookup := lookup_of_mem hv.nodup he
  refine ⟨hv.isEntryName_of_mem he, ?_, fun hdir hfits => ?_, hbelow, htarget⟩
  · have hat : s.at? (p ++ (r ++ [name])) = some node.item := by
      rw [← List.append_assoc, at?, get?_entry (get?_of_locate hsource), hlookup, Option.map_some]
    rw [← Node.isDir_item]
    exact h.known _ _ hat
  · cases node with
    | file => cases hdir
    | link => cases hdir
    | dir sub =>
      rw [← List.append_assoc]
      exact ⟨sub, locate_join hsource hfits hlookup fun _ => Node.noConfusion⟩

/-- A copy is ready for a directory below its source: when it has listed it, it stands before the
entries. -/
structure Ready (known : Place → Bool → Prop) (p : Place) (base : Store) (root : String) (s : Store)
    (source target : String) (r : Place) : Prop where
  below : Below root target r
  opened : ∀ entries u, openLevel source target s = (.ok entries, u) →
    Within known p base u ∧ u.locate source = .ok (p ++ r, .dir entries) ∧
      ∃ place, u.Opens target place

/-! ## One step -/

/-- A directory is made by its name in a directory, or is there already, or cannot be made. -/
theorem makeDirs_join (htarget : s.Opens target x) (hname : isEntryName name = true) :
    (∃ t, s.reachName (Path.join target name) = .ok (.missing (x ++ [name])) ∧
      Makes (Path.join target name) (x ++ [name]) s t) ∨
      (makeDirs (Path.join target name) s = (.ok (), s) ∧
        ∃ place, s.Opens (Path.join target name) place) ∨
      ∃ e, makeDirs (Path.join target name) s = (.error e, s) := by
  -- what is there already will do if it leads to a directory
  have hthere : ∀ {e : Errno}, s.makeDir (Path.join target name) = .error e → e ≠ .noEntry →
      (makeDirs (Path.join target name) s = (.ok (), s) ∧
        ∃ place, s.Opens (Path.join target name) place) ∨
        ∃ e, makeDirs (Path.join target name) s = (.error e, s) := by
    intro e hmake hentry
    rw [makeDirs, ofOutcome_apply, Store.makeDirs,
      if_neg (join_ne_empty (isStep_of_isEntryName hname).1), hmake]
    cases hisDir : s.isDir (Path.join target name) with
    | true =>
      obtain ⟨place, entries, hlocate⟩ := isDir_eq_true_iff.1 hisDir
      refine .inl ⟨?_, place, opens_of_locate hlocate⟩
      cases e <;> first | rfl | exact absurd rfl hentry
    | false =>
      right
      cases e <;> first | exact ⟨_, rfl⟩ | exact absurd rfl hentry
  rcases htarget.reachName_cases hname with ⟨-, hlong⟩ | ⟨reach, hreach, hplace, -⟩
  · have hmake : s.makeDir (Path.join target name) = .error .nameTooLong := by
      rw [makeDir, hlong]
    exact .inr (hthere hmake Errno.noConfusion)
  cases reach with
  | missing there =>
    obtain rfl : there = x ++ [name] := hplace
    exact .inl ⟨_, hreach, makes_of_missing hreach⟩
  | found there node =>
    have hmake : s.makeDir (Path.join target name) = .error .alreadyExists := by
      rw [makeDir, hreach]
    exact .inr (hthere hmake Errno.noConfusion)

/-- Only making the target changes anything before the entries are copied. -/
theorem openLevel_state (source target : String) (s : Store) :
    (openLevel source target s).2 = (makeDirs target s).2 := by
  unfold openLevel
  rcases hmake : makeDirs target s with ⟨e | _, t⟩
  · rw [bind_error hmake]
  · rw [bind_ok hmake, list, query_apply]

/-- A copy that came to an entry left what it met. -/
theorem ComesTo.spares (h : ComesTo levels source target s entry v) :
    Spares (fun _ => True) s v := by
  obtain ⟨before, after, u, hopen, hbefore⟩ := h
  obtain ⟨hmake, place, hlocate⟩ := openLevel_eq_ok hopen
  have hv := Node.Valid.get? u.valid_root (get?_of_locate hlocate)
  exact (stays_copyEntries (fun _ he => hv.isEntryName_of_mem (List.mem_append_left _ he))
    (stays_copyLevels levels) (fun _ _ => trivial)).run hbefore
    ((stays_makeDirs target).run hmake (.refl s))

theorem copyFile_state (source target : String) (s : Store) :
    (copyFile source target s).2 = s ∨
      s.copyFile source target = .ok (copyFile source target s).2 := by
  unfold copyFile
  rw [get_bind]
  rcases hcopy : s.copyFile source target with (e | _) | t
  · exact .inl rfl
  · exact .inl rfl
  · exact .inr rfl

section Run

variable (hclosed : Closed known p base root)

namespace Entering

variable (h : Entering known p root s source target r entry) (hwithin : Within known p base s)

include h hwithin

theorem makeDirs_cases (hdir : entry.2.isDir = true) :
    (∃ t, makeDirs (Path.join target entry.1) s = (.ok (), t) ∧ Adds known base root s t ∧
      ∃ place, t.Opens (Path.join target entry.1) place) ∨
      ∃ e, makeDirs (Path.join target entry.1) s = (.error e, s) := by
  obtain ⟨place, htarget⟩ := h.target
  rcases makeDirs_join htarget h.name with ⟨t, hreach, hmakes⟩ | ⟨hmake, hopens⟩ | herror
  · obtain ⟨made, hlocated⟩ := hmakes.located
    refine .inl ⟨t, hmakes.run, ⟨?_, fun x item hs ht => ?_⟩, _, opens_of_locate hlocated⟩
    · exact (stays_makeDirs _).run hmakes.run (.refl s)
    · rw [hmakes.at?_eq] at ht
      split at ht
      · next hx =>
        cases ht
        have hknown := h.known
        rw [hdir] at hknown
        rw [← hx] at hreach
        exact ⟨_, hknown, (h.below.join h.name).copiedTo_of_missing hwithin.spares hreach⟩
      · rw [hs] at ht
        cases ht
  · exact .inl ⟨s, hmake, .refl s, hopens⟩
  · exact .inr herror

theorem adds_openLevel (hdir : entry.2.isDir = true) :
    Adds known base root s
      (openLevel (Path.join source entry.1) (Path.join target entry.1) s).2 := by
  rw [openLevel_state]
  rcases h.makeDirs_cases hwithin hdir with ⟨t, hrun, hadds, -⟩ | ⟨e, herror⟩
  · rwa [hrun]
  · rw [herror]
    exact .refl s

theorem adds_copyFile (hdir : entry.2.isDir = false) (path : String) :
    Adds known base root s (copyFile path (Path.join target entry.1) s).2 where
  spares := stays_copyFile h.name (fun _ _ => trivial) s (.refl s)
  new x item hs ht := by
    rcases copyFile_state path (Path.join target entry.1) s with hstate | hcopy
    · rw [hstate, hs] at ht
      cases ht
    · obtain ⟨place, content, executable, reach, dir, last, -, hreach, hplace, hlast, habove, hold,
        heq⟩ := copyFile_run hcopy
      have hcopied := (h.below.join h.name).copiedTo_of_reachFile hwithin.spares
        (endsInName_join h.name target) hreach
      have hbelow : s.at? (dir ++ [last]) ≠ some .dir := by
        rw [hplace] at hold
        rcases hold with hnone | ⟨old, mode, hfile⟩
        · simp [hnone]
        · simp [hfile]
      rw [heq, hplace, at?_putFile habove hlast hbelow] at ht
      split at ht
      · next hx =>
        cases ht
        have hknown := h.known
        rw [hdir] at hknown
        exact ⟨_, hknown, by rwa [hx, ← hplace]⟩
      · rw [hs] at ht
        cases ht

include hclosed

/-- A copy that stands before a directory is ready for it. -/
theorem ready (hdir : entry.2.isDir = true) :
    Ready known p base root s (Path.join source entry.1) (Path.join target entry.1)
      (r ++ [entry.1]) where
  below := h.below.join h.name
  opened := by
    intro entries u hopen
    obtain ⟨hmake, place, hlocate⟩ := openLevel_eq_ok hopen
    rcases h.makeDirs_cases hwithin hdir with ⟨t, hrun, hadds, htarget⟩ | ⟨e, herror⟩
    · rw [hrun] at hmake
      cases hmake
      obtain ⟨sub, hsource⟩ := (h.of_spares hadds.spares).source hdir (fits_of_locate hlocate)
      rw [hlocate] at hsource
      cases hsource
      exact ⟨hwithin.of_adds hclosed hadds, hlocate, htarget⟩
    · rw [herror] at hmake
      cases hmake

end Entering

/-! ## Whole runs -/

theorem adds_copyEntry (h : Entering known p root s source target r entry)
    (hwithin : Within known p base s)
    (hdirs : entry.2.isDir = true →
      Adds known base root s
        (copyLevels levels (Path.join source entry.1) (Path.join target entry.1) s).2) :
    Adds known base root s (copyEntry (copyLevels levels) source target entry s).2 := by
  unfold copyEntry
  split
  · next hdir => exact hdirs hdir
  · next hdir => exact h.adds_copyFile hwithin (eq_false_of_ne_true hdir) _

include hclosed

theorem adds_copyEntries
    (hdirs : ∀ s source target r entry, Entering known p root s source target r entry →
      Within known p base s → entry.2.isDir = true →
      Adds known base root s
        (copyLevels levels (Path.join source entry.1) (Path.join target entry.1) s).2)
    (hrest : ∀ e ∈ rest, Entering known p root s source target r e)
    (hwithin : Within known p base s) :
    Adds known base root s (copyEntries (copyLevels levels) source target rest s).2 := by
  induction rest generalizing s with
  | nil => exact .refl s
  | cons entry rest ih =>
    obtain ⟨hentry, hothers⟩ := List.forall_mem_cons.1 hrest
    have hfirst := adds_copyEntry hentry hwithin (hdirs s source target r entry hentry hwithin)
    rw [copyEntries_cons]
    rcases hcopy : copyEntry (copyLevels levels) source target entry s with ⟨e | _, t⟩
    · rw [bind_error hcopy]
      rwa [hcopy] at hfirst
    · rw [bind_ok hcopy]
      rw [hcopy] at hfirst
      exact hfirst.trans (ih (fun e he => (hothers e he).of_spares hfirst.spares)
        (hwithin.of_adds hclosed hfirst))

/-- Copying a directory adds places only to which known ones are copied. -/
theorem adds_copyLevels (levels : Nat) (s : Store) (source target : String) (r : Place)
    (entry : String × Node) (h : Entering known p root s source target r entry)
    (hwithin : Within known p base s) (hdir : entry.2.isDir = true) :
    Adds known base root s
      (copyLevels levels (Path.join source entry.1) (Path.join target entry.1) s).2 := by
  induction levels generalizing s source target r entry with
  | zero => exact .refl s
  | succ levels ih =>
    have hadds := h.adds_openLevel hwithin hdir
    rw [copyLevels_succ]
    rcases hopen : openLevel (Path.join source entry.1) (Path.join target entry.1) s with
      ⟨e | entries, u⟩
    · rw [bind_error hopen]
      rwa [hopen] at hadds
    · rw [bind_ok hopen]
      rw [hopen] at hadds
      obtain ⟨hwithin', hsource, htarget⟩ :=
        (h.ready hclosed hwithin hdir).opened entries u hopen
      exact hadds.trans (adds_copyEntries hclosed ih
        (fun e he => hwithin'.entering hsource (h.below.join h.name) htarget he) hwithin')

theorem ComesTo.entering (h : ComesTo levels source target s entry v)
    (hready : Ready known p base root s source target r) :
    Within known p base v ∧ Entering known p root v source target r entry := by
  obtain ⟨before, after, u, hopen, hbefore⟩ := h
  obtain ⟨hwithin, hsource, htarget⟩ := hready.opened _ u hopen
  have hentering : ∀ e ∈ before ++ entry :: after, Entering known p root u source target r e :=
    fun _ he => hwithin.entering hsource hready.below htarget he
  have hadds := adds_copyEntries hclosed (adds_copyLevels hclosed levels)
    (fun e he => hentering e (List.mem_append_left _ he)) hwithin
  rw [hbefore] at hadds
  exact ⟨hwithin.of_adds hclosed hadds,
    (hentering entry (List.mem_append_right _ List.mem_cons_self)).of_spares hadds.spares⟩

/-- What a copy comes to is known. -/
theorem known_of_visits (h : Visits levels source target s x)
    (hready : Ready known p base root s source target r) : ∃ d, known (r ++ x) d := by
  induction h generalizing r with
  | entry hcomes => exact ⟨_, (hcomes.entering hclosed hready).2.known⟩
  | inside hcomes hdir _ ih =>
    obtain ⟨hwithin, hentering⟩ := hcomes.entering hclosed hready
    obtain ⟨d, hd⟩ := ih (hentering.ready hclosed hwithin hdir)
    rw [List.append_assoc] at hd
    exact ⟨d, hd⟩

/-! ## The limits of a copy -/

/-- Entries are copied in the same way by two numbers of levels if the directories among them
are. -/
theorem copyEntries_congr {levels' : Nat}
    (hsame : ∀ s entry, Entering known p root s source target r entry → Within known p base s →
      entry.2.isDir = true →
        copyLevels levels' (Path.join source entry.1) (Path.join target entry.1) s =
          copyLevels levels (Path.join source entry.1) (Path.join target entry.1) s)
    (hrest : ∀ e ∈ rest, Entering known p root s source target r e)
    (hwithin : Within known p base s) :
    copyEntries (copyLevels levels') source target rest s =
      copyEntries (copyLevels levels) source target rest s := by
  induction rest generalizing s with
  | nil => rfl
  | cons entry rest ih =>
    obtain ⟨hentry, hothers⟩ := List.forall_mem_cons.1 hrest
    have hfirst : copyEntry (copyLevels levels') source target entry s =
        copyEntry (copyLevels levels) source target entry s := by
      unfold copyEntry
      split
      · next hdir => exact hsame s entry hentry hwithin hdir
      · rfl
    have hadds := adds_copyEntry hentry hwithin
      (adds_copyLevels hclosed levels s source target r entry hentry hwithin)
    rw [copyEntries_cons, copyEntries_cons]
    rcases hcopy : copyEntry (copyLevels levels) source target entry s with ⟨e | _, t⟩
    · rw [bind_error hcopy, bind_error (hfirst.trans hcopy)]
    · rw [bind_ok hcopy, bind_ok (hfirst.trans hcopy)]
      rw [hcopy] at hadds
      exact ih (fun e he => (hothers e he).of_spares hadds.spares) (hwithin.of_adds hclosed hadds)

/-- Where what is known is not deeper than the levels, more levels change nothing. -/
theorem copyLevels_add {height : Nat} (hheight : ∀ r d, known r d → r.length + d.toNat ≤ height)
    (hready : Ready known p base root s source target r) (hr : known r true)
    (hlevels : height ≤ levels + r.length) (n : Nat) :
    copyLevels (levels + n) source target s = copyLevels levels source target s := by
  have hlength := hheight r true hr
  rw [Bool.toNat_true] at hlength
  induction levels generalizing s source target r with
  | zero => omega
  | succ levels ih =>
    rw [Nat.add_right_comm, copyLevels_succ, copyLevels_succ]
    rcases hopen : openLevel source target s with ⟨e | entries, u⟩
    · rw [bind_error hopen, bind_error hopen]
    · rw [bind_ok hopen, bind_ok hopen]
      obtain ⟨hwithin, hsource, htarget⟩ := hready.opened entries u hopen
      refine copyEntries_congr hclosed ?_
        (fun e he => hwithin.entering hsource hready.below htarget he) hwithin
      intro v entry hentry hwithin' hdir
      have hknown : known (r ++ [entry.1]) true := hdir ▸ hentry.known
      have hbelow := hheight _ true hknown
      rw [Bool.toNat_true] at hbelow
      exact ih (hentry.ready hclosed hwithin' hdir) hknown
        (by rw [List.length_append, List.length_singleton]; omega) hbelow

end Run

/-! ## Copies -/

/-- A copy of a directory to a place strictly below it does not succeed: what it makes there it
comes to. -/
theorem copyLevels_ne_ok (hplace : ∀ r x, CopiedTo base root r x → x = q ++ r)
    (hready : Ready (fun _ _ => True) p base root s source target r)
    (hunder : Under (p ++ r) (q ++ r)) : copyLevels levels source target s ≠ (.ok (), t) := by
  induction levels generalizing s source target r t with
  | zero => exact fun h => nomatch h
  | succ levels ih =>
    intro h
    rcases hopen : openLevel source target s with ⟨e | entries, u⟩
    · rw [copyLevels_succ, bind_error hopen] at h
      cases h
    · obtain ⟨hwithin, hsource, place, htarget⟩ := hready.opened entries u hopen
      have hat := htarget.at?_eq
      rw [hplace r place (hready.below.copiedTo_of_opens hwithin.spares htarget)] at hat
      -- the source lists a directory that leads on to the target
      obtain ⟨name, rest, heq⟩ := hunder
      have hdir : u.at? (p ++ r ++ [name]) = some .dir := by
        rw [heq, List.append_cons] at hat
        by_cases hrest : rest = []
        · rwa [hrest, List.append_nil] at hat
        · exact at?_eq_dir_of_below hrest hat
      obtain ⟨sub, hsub⟩ := at?_eq_dir_iff.1 hdir
      rw [get?_entry (get?_of_locate hsource)] at hsub
      obtain ⟨v, w, hcomes, hentry⟩ := comesTo_of_ok h hopen (mem_of_lookup hsub)
      have hclosed : Closed (fun _ _ => True) p base root := fun _ _ _ _ _ => trivial
      obtain ⟨hwithin', hentering⟩ := hcomes.entering hclosed hready
      obtain ⟨next, more, hmore⟩ := List.exists_cons_of_ne_nil (List.concat_ne_nil name rest)
      refine ih (hentering.ready hclosed hwithin' rfl) ⟨next, more, ?_⟩ hentry
      rw [← hmore, ← List.append_assoc, heq]
      simp

/-- What is copied from below a source goes to no place that is missing below it. -/
def AddsNothing (s : Store) (target : String) (p : Place) : Prop :=
  ∀ r r', s.at? (p ++ r) ≠ none → CopiedTo s target r (p ++ r') → s.at? (p ++ r') ≠ none

/-- What is copied to a place below the source goes no deeper than where it is from. -/
def GoesNoDeeper (s : Store) (target : String) (p : Place) : Prop :=
  ∀ r r', CopiedTo s target r (p ++ r') → r'.length ≤ r.length

section Copies

variable (hsource : s.locate source = .ok (p, .dir entries))
  (hmake : makeDirs target s = (.ok (), u)) (htarget : u.Opens target q)

theorem spares_of_made (hmake : makeDirs target s = (.ok (), u)) : Spares (fun _ => True) s u :=
  (stays_makeDirs target).run hmake (.refl s)

include hmake htarget

/-- Below a target without links the place that something is copied to is named by it. -/
theorem eq_append_of_copiedTo (hlinks : ∀ r text, s.at? (q ++ r) ≠ some (.link text))
    (h : CopiedTo s target r x) : x = q ++ r := by
  have hspares := spares_of_made hmake
  obtain ⟨mid, hmid, hrest⟩ := h.2.of_append
  have htop := leadsTo_of_opens hspares.sameLinks htarget
  rw [hspares.cwd_eq] at htop
  rw [hmid.unique htop] at hrest
  exact hrest.eq_append hlinks h.1

theorem addsNothing_of_apart (hlinks : ∀ r text, s.at? (q ++ r) ≠ some (.link text))
    (hapart : Apart p q ∨ p = q) : AddsNothing s target p := by
  intro r r' hr hcopied
  have heq := eq_append_of_copiedTo hmake htarget hlinks hcopied
  rcases hapart with hapart | rfl
  · have hnot := hapart.symm.not_prefix_append r []
    rw [List.append_nil] at hnot
    exact absurd (heq ▸ List.prefix_append p r') hnot
  · rwa [List.append_cancel_left heq]

theorem goesNoDeeper_of_not_under (hlinks : ∀ r text, s.at? (q ++ r) ≠ some (.link text))
    (hunder : ¬ Under p q) : GoesNoDeeper s target p := by
  intro r r' hcopied
  have heq := eq_append_of_copiedTo hmake htarget hlinks hcopied
  by_contra hlt
  have hlength := congrArg List.length heq
  rw [List.length_append, List.length_append] at hlength
  have hprefix : p <+: q := List.prefix_of_prefix_length_le (List.prefix_append p r')
    (heq ▸ List.prefix_append q r) (by omega)
  obtain ⟨rest, rfl⟩ := hprefix
  cases rest with
  | nil =>
    rw [List.append_nil] at hlength
    omega
  | cons name rest => exact hunder ⟨name, rest, rfl⟩

include hsource

/-- A copy whose target can be made is ready for its source. -/
theorem ready_of_made (hwithin : Within known p s u) :
    Ready known p s target s source target [] where
  below := .refl target
  opened := by
    intro listed v hopen
    obtain ⟨hmake', place, hlocate⟩ := openLevel_eq_ok hopen
    rw [hmake] at hmake'
    cases hmake'
    have hspares := spares_of_made hmake
    obtain ⟨entries', hsource'⟩ :=
      locate_dir_mono hspares.keepsWays hspares.cwd_eq hspares.at?_ne_none hsource
    rw [hlocate] at hsource'
    cases hsource'
    rw [List.append_nil]
    exact ⟨hwithin, hlocate, q, htarget⟩

omit htarget in
/-- If making the target adds nothing below the source, what is below it was there before. -/
theorem within_of_kept (hkept : ∀ x, Under p x → u.at? x = s.at? x)
    (hknown : ∀ r item, s.at? (p ++ r) = some item → known r item.isDir) : Within known p s u where
  spares := spares_of_made hmake
  known r item hat := by
    refine hknown r item ?_
    have hdir : s.at? p = some .dir := at?_eq_dir_iff.2 ⟨entries, get?_of_locate hsource⟩
    cases r with
    | nil =>
      rw [List.append_nil] at hat ⊢
      rw [hdir, ← hat, (spares_of_made hmake).keepsWays p .dir hdir trivial]
    | cons name r => rw [← hkept _ ⟨name, r, rfl⟩, hat]

omit hmake htarget in
/-- What is below the source lies at one of its levels. -/
theorem length_le_height (hat : s.at? (p ++ r) = some item) :
    r.length + item.isDir.toNat ≤ (Node.dir entries).height := by
  obtain ⟨node, hnode, rfl⟩ := Option.map_eq_some_iff.1 hat
  rw [get?_append, get?_of_locate hsource, Option.bind_some] at hnode
  have hle := Node.length_add_height_le hnode
  rw [Node.isDir_item]
  cases node with
  | file => exact hle
  | link => exact hle
  | dir sub =>
    rw [Node.height] at hle
    simp only [Node.isDir, Bool.toNat_true]
    omega

theorem visits_existing (hkept : ∀ x, Under p x → u.at? x = s.at? x)
    (hadds : AddsNothing s target p) (hvisits : Visits levels source target s r) :
    s.at? (p ++ r) ≠ none := by
  have hwithin : Within (fun r _ => s.at? (p ++ r) ≠ none) p s u :=
    within_of_kept hsource hmake hkept fun r item hat => by simp [hat]
  obtain ⟨_, hknown⟩ := known_of_visits (fun r r' _ => hadds r r') hvisits
    (ready_of_made hsource hmake htarget hwithin)
  exact hknown

theorem visits_no_deeper (hkept : ∀ x, Under p x → u.at? x = s.at? x)
    (hdeep : GoesNoDeeper s target p) :
    (∀ levels r, Visits levels source target s r → r.length ≤ (Node.dir entries).height) ∧
      (p ≠ [] → ∀ n, copyLevels (s.height + pathLimit + n) source target s =
        copyTree source target s) := by
  let known : Place → Bool → Prop := fun r d => r.length + d.toNat ≤ (Node.dir entries).height
  have hclosed : Closed known p s target := fun r r' _ hr hcopied =>
    Nat.le_trans (Nat.add_le_add_right (hdeep r r' hcopied) _) hr
  have hknown : ∀ r item, s.at? (p ++ r) = some item → known r item.isDir :=
    fun _ _ => length_le_height hsource
  have hready := ready_of_made hsource hmake htarget (within_of_kept hsource hmake hkept hknown)
  constructor
  · intro levels r hvisits
    obtain ⟨d, hd⟩ := known_of_visits hclosed hvisits hready
    exact Nat.le_trans (Nat.le_add_right _ _) hd
  · intro hp n
    have hheight : (Node.dir entries).height < s.height :=
      Node.height_lt_of_get? (get?_of_locate hsource) hp
    have htop : known [] true := hknown [] .dir
      (at?_eq_dir_iff.2 ⟨entries, by rw [List.append_nil, get?_of_locate hsource]⟩)
    rw [copyTree_apply]
    exact copyLevels_add hclosed (fun _ _ => id) hready htop (by rw [List.length_nil]; omega) n

/-- A copy that adds nothing to its source comes to nothing but what the source had when it began.
If what is copied below the source goes no deeper there, it comes to nothing deeper than the source,
and with more levels it is the same copy.  Without links below the target the one holds of a target
that is the source or apart from it, the other of any target but those strictly below the source; a
copy to one of these does not succeed, however many levels it has. -/
theorem copyTree_visits :
    ((∀ x, Under p x → u.at? x = s.at? x) →
      (AddsNothing s target p →
        ∀ levels r, Visits levels source target s r → s.at? (p ++ r) ≠ none) ∧
      (GoesNoDeeper s target p →
        (∀ levels r, Visits levels source target s r → r.length ≤ (Node.dir entries).height) ∧
        (p ≠ [] → ∀ n, copyLevels (s.height + pathLimit + n) source target s =
          copyTree source target s))) ∧
    ((∀ r text, s.at? (q ++ r) ≠ some (.link text)) →
      (Apart p q ∨ p = q → AddsNothing s target p) ∧
      (¬ Under p q → GoesNoDeeper s target p) ∧
      (Under p q → ∀ levels t, copyLevels levels source target s ≠ (.ok (), t))) := by
  refine ⟨fun hkept => ⟨fun hadds _ _ => visits_existing hsource hmake htarget hkept hadds,
    visits_no_deeper hsource hmake htarget hkept⟩, fun hlinks => ?_⟩
  refine ⟨addsNothing_of_apart hmake htarget hlinks, goesNoDeeper_of_not_under hmake htarget hlinks,
    fun hunder levels t => ?_⟩
  have hwithin : Within (fun _ _ => True) p s u := ⟨spares_of_made hmake, fun _ _ _ => trivial⟩
  refine copyLevels_ne_ok (fun _ _ => eq_append_of_copiedTo hmake htarget hlinks)
    (ready_of_made hsource hmake htarget hwithin) ?_
  rwa [List.append_nil, List.append_nil]

end Copies

theorem twoDirectories_visited :
    (∀ levels r, Visits levels "src" "src" twoDirectories r →
      twoDirectories.at? (["work", "src"] ++ r) ≠ none ∧ r.length ≤ 2) ∧
    ∀ levels t, copyLevels levels "src" "src/out" twoDirectories ≠ (.ok (), t) := by
  have hsource : twoDirectories.locate "src" = .ok (["work", "src"],
      .dir [("net", .dir [("sock.c", .file ⟨#[2]⟩ false)]), ("main.c", .file ⟨#[1]⟩ false)]) := rfl
  have hlinks : ∀ q r text, twoDirectories.at? (q ++ r) ≠ some (.link text) :=
    fun q r => mergeable_twoDirectories.linkFree (q ++ r)
  constructor
  · obtain ⟨hkept, hwhere⟩ := copyTree_visits hsource rfl (opens_of_locate hsource)
    obtain ⟨hadds, hdeep, -⟩ := hwhere (hlinks _)
    obtain ⟨hexisting, hnodeeper⟩ := hkept fun _ _ => rfl
    exact fun levels r hvisits => ⟨hexisting (hadds (.inr rfl)) levels r hvisits,
      (hnodeeper (hdeep (not_under_self _))).1 levels r hvisits⟩
  · have hmade : (twoDirectories.putDir ["work", "src", "out"]).Opens "src/out"
        ["work", "src", "out"] := opens_of_locate rfl
    exact ((copyTree_visits hsource rfl hmade).2 (hlinks _)).2.2 ⟨"out", [], rfl⟩

/-- An empty directory. -/
def emptyDirectory : Store :=
  Store.empty.putDir ["src"]

/-- A copy of an empty directory into itself comes to the directory that it made there. -/
theorem emptyDirectory_visits_target :
    Visits (emptyDirectory.height + pathLimit) "src" "src/out" emptyDirectory ["out"] ∧
      emptyDirectory.at? ["src", "out"] = none := by
  refine ⟨?_, by decide⟩
  have hlevels : emptyDirectory.height + pathLimit = pathLimit + 1 + 1 := by decide
  have hopen : openLevel "src" "src/out" emptyDirectory =
      (.ok [("out", .dir [])], emptyDirectory.putDir ["src", "out"]) := by
    rfl
  rw [hlevels]
  exact .entry ⟨[], [], _, hopen, rfl⟩

end FileAction

end Autotree
