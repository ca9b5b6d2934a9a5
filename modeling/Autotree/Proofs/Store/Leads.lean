import Autotree.Proofs.Store.Copy
import Autotree.Proofs.Store.Replace

/-!
# Where paths lead through links

`LeadsTo` follows the links of a store and takes every other name on a way for that of a
directory, whether it is there yet or not.  What a path leads to in a store with the same links, it
leads to in this sense (`leadsTo_of_reachFile`, `leadsTo_of_locate`).  So a copy, which leaves every
link where it is, changes no files but those that paths below its target lead to
(`stays_copyTree`).
-/

namespace Autotree

namespace Store

/-- The place that steps lead to, over the links of a store and over directories that may be
missing from it. -/
inductive LeadsTo (s : Store) : Place → List String → Place → Prop
  | here (place : Place) : LeadsTo s place [] place
  | step {place q : Place} {step : String} {rest : List String}
      (hname : isEntryName step = true →
        ∀ target, s.at? (stepFrom place step) ≠ some (.link target))
      (h : LeadsTo s (stepFrom place step) rest q) : LeadsTo s place (step :: rest) q
  | link {place q : Place} {name target : String} {rest : List String}
      (hlink : s.at? (place ++ [name]) = some (.link target))
      (h : LeadsTo s (startOf target place) (steps target ++ rest) q) :
      LeadsTo s place (name :: rest) q

/-- The places that a reach goes to: a link goes on where its target leads. -/
def GoesTo (s : Store) : Reach → Place → Prop
  | .found place (.link target), q => s.LeadsTo (startOf target place.dropLast) (steps target) q
  | reach, q => q = reach.place

/-- The places that a walk goes to. -/
def Walk.GoesTo (s : Store) : Walk → Place → Prop
  | .ended reach, q => s.GoesTo reach q
  | .refused _, _ => False
  | .atLink target dir rest, q => s.LeadsTo (startOf target dir) (steps target ++ rest) q

/-- The same links stand in both stores. -/
def SameLinks (s t : Store) : Prop :=
  ∀ place target, t.at? place = some (.link target) ↔ s.at? place = some (.link target)

/-- The last step is a name. -/
def EndsInName (steps : List String) : Prop :=
  ∃ front name, steps = front ++ [name] ∧ isEntryName name = true

variable {s t u : Store} {place dir start trail q : Place} {node : Node} {path step name : String}
  {xs rest : List String} {toLast slash : Bool} {links : Nat} {reach : Reach}
  {entries : List (String × Node)}

theorem EndsInName.tail (h : EndsInName (step :: xs))
    (hend : xs = [] → ¬ isEntryName step = true) : EndsInName xs := by
  obtain ⟨front, name, heq, hname⟩ := h
  cases front with
  | nil =>
    obtain ⟨rfl, rfl⟩ := List.cons.inj heq
    exact absurd hname (hend rfl)
  | cons first front => exact ⟨front, name, (List.cons.inj heq).2, hname⟩

theorem endsInName_join (h : isEntryName name = true) (dir : String) :
    EndsInName (steps (Path.join dir name)) :=
  ⟨steps dir, name, steps_join_name (isStep_of_isEntryName h) dir, h⟩

theorem LeadsTo.append_dots {dots : List String} (h : s.LeadsTo start xs q)
    (hdots : ∀ d ∈ dots, d = ".") : s.LeadsTo start (xs ++ dots) q := by
  induction h with
  | here place =>
    induction dots with
    | nil => exact .here place
    | cons d dots ih =>
      obtain ⟨rfl, hrest⟩ := List.forall_mem_cons.1 hdots
      refine .step (fun hname => absurd hname not_isEntryName_dot) ?_
      rw [stepFrom_dot]
      exact ih hrest
  | step hname _ ih => exact .step hname ih
  | link hlink _ ih =>
    rw [List.append_assoc] at ih
    exact .link hlink ih

/-- Where no link stands, steps lead to the place that they name. -/
theorem LeadsTo.eq_follow (h : s.LeadsTo start xs q) (hfree : s.LinkFree) :
    q = follow start xs := by
  induction h with
  | here place => rfl
  | step _ _ ih => rw [ih, follow_cons]
  | link hlink => exact absurd hlink (hfree _ _)

/-- What leads over two ways one after the other leads over the first of them to somewhere. -/
theorem LeadsTo.of_append {ys : List String} (h : s.LeadsTo start (xs ++ ys) q) :
    ∃ mid, s.LeadsTo start xs mid ∧ s.LeadsTo mid ys q := by
  generalize hsteps : xs ++ ys = steps at h
  induction h generalizing xs with
  | here place =>
    obtain ⟨rfl, rfl⟩ := List.append_eq_nil_iff.1 hsteps
    exact ⟨place, .here place, .here place⟩
  | @step place q step rest hname h ih =>
    cases xs with
    | nil =>
      rw [List.nil_append] at hsteps
      exact ⟨place, .here place, hsteps ▸ .step hname h⟩
    | cons x xs =>
      obtain ⟨rfl, rfl⟩ := List.cons.inj hsteps
      obtain ⟨mid, hfirst, hsecond⟩ := ih rfl
      exact ⟨mid, .step hname hfirst, hsecond⟩
  | @link place q name target rest hlink h ih =>
    cases xs with
    | nil =>
      rw [List.nil_append] at hsteps
      exact ⟨place, .here place, hsteps ▸ .link hlink h⟩
    | cons x xs =>
      obtain ⟨rfl, rfl⟩ := List.cons.inj hsteps
      obtain ⟨mid, hfirst, hsecond⟩ := ih (List.append_assoc ..)
      exact ⟨mid, .link hlink hfirst, hsecond⟩

/-- A way leads to one place only. -/
theorem LeadsTo.unique {q' : Place} (h : s.LeadsTo start xs q) (h' : s.LeadsTo start xs q') :
    q = q' := by
  -- a name is either that of a link or it is not
  have hexclusive : ∀ {place : Place} {name target : String},
      s.at? (place ++ [name]) = some (.link target) →
      (isEntryName name = true → ∀ target, s.at? (stepFrom place name) ≠ some (.link target)) →
      False := by
    intro place name target hlink hnone
    have hname := isEntryName_of_at? hlink
    refine hnone hname target ?_
    rw [stepFrom_of_isEntryName hname, hlink]
  induction h with
  | here place =>
    cases h'
    rfl
  | step hname _ ih =>
    cases h' with
    | step _ h' => exact ih h'
    | link hlink h' => exact (hexclusive hlink hname).elim
  | link hlink _ ih =>
    cases h' with
    | step hname h' => exact (hexclusive hlink hname).elim
    | link hlink' h' =>
      rw [hlink] at hlink'
      cases hlink'
      exact ih h'

/-- Below a place where no link is, names lead to the place that they name. -/
theorem LeadsTo.eq_append (hlinks : ∀ r target, s.at? (start ++ r) ≠ some (.link target))
    (hnames : ∀ name ∈ xs, isEntryName name = true) (h : s.LeadsTo start xs q) :
    q = start ++ xs := by
  induction xs generalizing start with
  | nil =>
    cases h
    rw [List.append_nil]
  | cons name xs ih =>
    obtain ⟨hname, hrest⟩ := List.forall_mem_cons.1 hnames
    cases h with
    | link hlink _ => exact absurd hlink (hlinks [name] _)
    | step _ h =>
      rw [stepFrom_of_isEntryName hname] at h
      have hbelow : ∀ r target, s.at? (start ++ [name] ++ r) ≠ some (.link target) := fun r => by
        rw [List.append_assoc]
        exact hlinks ([name] ++ r)
      rw [ih hbelow hrest h, List.append_assoc]
      rfl

/-! ## Following a path -/

theorem goesTo_place (h : ∀ place target, reach ≠ .found place (.link target)) :
    s.GoesTo reach reach.place := by
  cases reach with
  | missing place => rfl
  | found place node =>
    cases node with
    | link target => exact absurd rfl (h place target)
    | file content executable => rfl
    | dir entries => rfl

/-- Past an entry that is no link, a way goes on at the entry itself. -/
theorem LeadsTo.past_entry (hlinks : SameLinks s u) (hnode : u.get? trail.reverse = some node)
    (hname : isEntryName name = true) (hnone : ∀ target, node.get? [name] ≠ some (.link target))
    (h : s.LeadsTo (name :: trail).reverse xs q) : s.LeadsTo trail.reverse (name :: xs) q := by
  rw [← stepFrom_name_reverse hname] at h
  refine .step (fun _ target hlink => hnone target ?_) h
  rw [stepFrom_name_reverse hname] at hlink
  rw [← get?_cons_reverse hnode]
  exact at?_eq_link_iff.1 ((hlinks _ target).2 hlink)

theorem leadsTo_of_walk (hlinks : SameLinks s u) (hxs : ∀ x ∈ xs, IsStep x)
    (hnode : u.get? trail.reverse = some node)
    (hlast : ∀ place target, u.walk toLast slash trail node xs =
      .ended (.found place (.link target)) →
        (∀ target, node ≠ .link target) ∨ EndsInName xs)
    (h : (u.walk toLast slash trail node xs).GoesTo s q) : s.LeadsTo trail.reverse xs q := by
  induction xs generalizing trail node with
  | nil =>
    cases node with
    | link target =>
      rcases hlast _ target rfl with hnode | ⟨front, name, heq, -⟩
      · exact absurd rfl (hnode target)
      · exact absurd heq (by simp)
    | file content executable =>
      obtain rfl : q = trail.reverse := h
      exact .here _
    | dir entries =>
      obtain rfl : q = trail.reverse := h
      exact .here _
  | cons step xs ih =>
    obtain ⟨hstep, hsteps⟩ := List.forall_mem_cons.1 hxs
    rcases hstep.dot_or_up_or_name with rfl | rfl | hname
    · rw [walk_dot] at h hlast
      refine .step (fun hname => absurd hname not_isEntryName_dot) ?_
      rw [stepFrom_dot]
      refine ih hsteps hnode (fun place target hw => ?_) h
      exact (hlast place target hw).imp_right fun hends => hends.tail fun _ => not_isEntryName_dot
    · obtain ⟨entries, hparent⟩ := exists_dir_tail hnode
      rw [walk_up hparent] at h
      refine .step (fun hname => absurd hname not_isEntryName_up) ?_
      rw [stepFrom_up_reverse]
      exact ih hsteps hparent (fun _ _ _ => .inl (by simp)) h
    · obtain ⟨-, hdot, hup⟩ := isEntryName_iff.1 hname
      rw [walk, if_neg hdot, if_neg hup] at h
      split at h
      · exact h.elim
      split at h
      · next hmissing =>
        split at h
        · next hlast =>
          rw [Bool.and_eq_true] at hlast
          obtain rfl := List.isEmpty_iff.1 hlast.1
          obtain rfl : q = (step :: trail).reverse := h
          exact .past_entry hlinks hnode hname (by simp [hmissing]) (.here _)
        · exact h.elim
      · next entries hdir =>
        have hbelow := (get?_cons_reverse hnode step).trans hdir
        exact .past_entry hlinks hnode hname (by simp [hdir])
          (ih hsteps hbelow (fun _ _ _ => .inl (by simp)) h)
      · next content executable hfile =>
        split at h
        · next hlast =>
          rw [Bool.and_eq_true] at hlast
          obtain rfl := List.isEmpty_iff.1 hlast.1
          obtain rfl : q = (step :: trail).reverse := h
          exact .past_entry hlinks hnode hname (by simp [hfile]) (.here _)
        · exact h.elim
      · next target hlink =>
        have hstands : s.at? (trail.reverse ++ [step]) = some (.link target) := by
          refine (hlinks _ target).1 (at?_eq_link_iff.2 ?_)
          rw [← hlink, get?_step hnode]
        split at h
        · next hlast =>
          rw [Bool.and_eq_true, Bool.and_eq_true] at hlast
          obtain rfl := List.isEmpty_iff.1 hlast.1.1
          refine .link hstands ?_
          rw [List.append_nil]
          have hdir : (step :: trail).reverse.dropLast = trail.reverse := by
            rw [List.reverse_cons, List.dropLast_concat]
          rw [← hdir]
          exact h
        · exact .link hstands h

theorem leadsTo_of_walk_from (toLast slash : Bool) (hlinks : SameLinks s u)
    (hxs : ∀ x ∈ xs, IsStep x) (hnode : u.get? start = some node)
    (hlast : ∀ place target, u.walk toLast slash start.reverse node xs =
      .ended (.found place (.link target)) →
        (∀ target, node ≠ .link target) ∨ EndsInName xs)
    (h : (u.walk toLast slash start.reverse node xs).GoesTo s q) : s.LeadsTo start xs q := by
  have hnode' : u.get? start.reverse.reverse = some node := by rwa [List.reverse_reverse]
  have hway := leadsTo_of_walk hlinks hxs hnode' hlast h
  rwa [List.reverse_reverse] at hway

theorem at?_startOf_ne_link (h : u.get? dir = some (.dir entries)) (path target : String) :
    u.at? (startOf path dir) ≠ some (.link target) := by
  unfold startOf
  split
  · simp [at?, get?, root, Node.item]
  · simp [at?, h, Node.item]

/-- What a way leads to, it leads to over the links alone. -/
theorem leadsTo_of_reachFrom (hlinks : SameLinks s u) (hxs : ∀ x ∈ xs, IsStep x)
    (hlast : ∀ place target, reach = .found place (.link target) →
      (∀ target, u.at? start ≠ some (.link target)) ∨ EndsInName xs)
    (h : u.reachFrom toLast links slash start xs = .ok reach) (hq : s.GoesTo reach q) :
    s.LeadsTo start xs q := by
  fun_induction reachFrom u toLast links slash start xs with
  | case1 => cases h
  | case2 links slash start xs node hnode r hw =>
    cases h
    refine leadsTo_of_walk_from toLast slash hlinks hxs hnode (fun place target hlink => ?_)
      (by rwa [hw])
    rw [hw] at hlink
    refine (hlast place target (Walk.ended.inj hlink)).imp_left fun hstart target hlink => ?_
    rw [hlink] at hnode
    exact hstart target (at?_eq_link_iff.2 hnode)
  | case3 => cases h
  | case4 => cases h
  | case5 => cases h
  | case6 slash start xs node hnode target dir rest hw links htarget ih =>
    have hsound := walk_sound_from toLast slash hnode hxs
    rw [hw] at hsound
    obtain ⟨⟨entries, hdir⟩, -, hrest⟩ := hsound
    have hnext : s.LeadsTo (startOf target dir) (steps target ++ rest) q :=
      ih (isStep_of_mem_append hrest target)
        (fun _ _ _ => .inl (at?_startOf_ne_link hdir target)) h
    refine leadsTo_of_walk_from toLast slash hlinks hxs hnode (fun _ _ hlink => ?_) (by rwa [hw])
    rw [hw] at hlink
    cases hlink

/-- What the path of a directory leads to. -/
theorem leadsTo_of_locateBase (hlinks : SameLinks s u)
    (h : u.locateBase path = .ok (place, .dir entries)) :
    s.LeadsTo (startOf path u.cwd) (steps path) place :=
  leadsTo_of_reachFrom hlinks (fun _ => isStep_of_mem_steps) (by simp) (locateBase_eq_ok_iff.1 h)
    rfl

theorem leadsTo_of_locate (hlinks : SameLinks s u)
    (h : u.locate path = .ok (place, .dir entries)) :
    s.LeadsTo (startOf path u.cwd) (steps path) place :=
  leadsTo_of_locateBase hlinks (locateBase_of_locate h)

theorem leadsTo_of_reachFileFrom (hlinks : SameLinks s u)
    (hlast : (∀ target, u.at? (startOf path dir) ≠ some (.link target)) ∨
      EndsInName (steps path))
    (h : u.reachFileFrom links dir path = .ok reach) :
    s.LeadsTo (startOf path dir) (steps path) reach.place := by
  induction links generalizing dir path with
  | zero => cases h
  | succ links ih =>
    rw [reachFileFrom] at h
    split at h
    · cases h
    · split at h
      · cases h
      · next r hr =>
        have hway {q} (hq : s.GoesTo r q) : s.LeadsTo (startOf path dir) (steps path) q :=
          leadsTo_of_reachFrom hlinks (fun _ => isStep_of_mem_steps) (fun _ _ _ => hlast) hr hq
        split at h
        · cases h
        · split at h
          · next place target =>
            -- a link stands in a directory, and its target is followed from there
            have hlink : u.get? place.reverse.reverse = some (.link target) := by
              rw [List.reverse_reverse]
              exact reachFrom_holds hr fun _ => isStep_of_mem_steps
            obtain ⟨entries, hdir⟩ := exists_dir_tail hlink
            rw [List.tail_reverse, List.reverse_reverse] at hdir
            exact hway (ih (.inl (at?_startOf_ne_link hdir target)) h)
          · next hnot =>
            cases h
            exact hway (goesTo_place hnot)

/-- What the path of a file leads to. -/
theorem leadsTo_of_reachFile (hlinks : SameLinks s u) (hpath : EndsInName (steps path))
    (h : u.reachFile path = .ok reach) :
    s.LeadsTo (startOf path u.cwd) (steps path) reach.place := by
  unfold reachFile at h
  split at h
  · cases h
  · exact leadsTo_of_reachFileFrom hlinks (.inr hpath) h

/-! ## Files that are written to -/

/-- A file stands in the second store where a file or nothing stands in the first. -/
def Written (s t : Store) (place : Place) : Prop :=
  (s.at? place = none ∨ ∃ content mode, s.at? place = some (.file content mode)) ∧
    ∃ content mode, t.at? place = some (.file content mode)

/-- Nothing changed but files at the places in `T`, and directories that were added. -/
structure Spares (T : Place → Prop) (s t : Store) : Prop where
  cwd_eq : t.cwd = s.cwd
  at?_or : ∀ q, t.at? q = s.at? q ∨ Made s t q ∨ T q ∧ Written s t q

variable {T W : Place → Prop}

namespace Spares

theorem refl (s : Store) : Spares T s s :=
  ⟨rfl, fun _ => .inl rfl⟩

theorem trans (h : Spares T s t) (h' : Spares T t u) : Spares T s u where
  cwd_eq := h'.cwd_eq.trans h.cwd_eq
  at?_or q := by
    rcases h'.at?_or q with heq | ⟨hnone, hdir⟩ | ⟨hT, hold, hnew⟩
    · unfold Made Written
      rw [heq]
      exact h.at?_or q
    · rcases h.at?_or q with heq | ⟨-, hdir'⟩ | ⟨-, -, content, mode, hfile⟩
      · exact .inr (.inl ⟨heq ▸ hnone, hdir⟩)
      · rw [hnone] at hdir'
        cases hdir'
      · rw [hnone] at hfile
        cases hfile
    · rcases h.at?_or q with heq | ⟨-, hdir⟩ | ⟨-, hfirst, -⟩
      · exact .inr (.inr ⟨hT, heq ▸ hold, hnew⟩)
      · rw [hdir] at hold
        rcases hold with hnone | ⟨content, mode, hfile⟩
        · cases hnone
        · cases hfile
      · exact .inr (.inr ⟨hT, hfirst, hnew⟩)

theorem of_confined (h : Confined (fun _ => False) W s t) : Spares T s t where
  cwd_eq := h.cwd_eq
  at?_or q := by
    rcases h.at?_or q with heq | hfalse | ⟨-, hmade⟩
    · exact .inl heq
    · exact hfalse.elim
    · exact .inr (.inl hmade)

theorem keepsWays (h : Spares T s t) : KeepsWays s t := by
  intro q item hs hitem
  rcases h.at?_or q with heq | ⟨hnone, -⟩ | ⟨-, hold, -⟩
  · exact heq.trans hs
  · rw [hs] at hnone
    cases hnone
  · rw [hs] at hold
    rcases hold with hnone | ⟨content, mode, hfile⟩
    · cases hnone
    · cases hfile
      exact hitem.elim

theorem sameLinks (h : Spares T s t) : SameLinks s t := by
  intro q target
  refine ⟨fun ht => ?_, fun hs => h.keepsWays q _ hs trivial⟩
  rcases h.at?_or q with heq | ⟨-, hdir⟩ | ⟨-, -, content, mode, hfile⟩
  · exact heq.symm.trans ht
  · rw [ht] at hdir
    cases hdir
  · rw [ht] at hfile
    cases hfile

theorem fileAt_eq (h : Spares T s t) (hq : ¬ T q) : t.fileAt q = s.fileAt q := by
  rcases h.at?_or q with heq | ⟨hnone, hdir⟩ | ⟨hT, -⟩
  · exact fileAt_of_at?_eq heq
  · rw [fileAt_of_none hnone, fileAt_of_dir hdir]
  · exact absurd hT hq

theorem at?_ne_none (h : Spares T s t) (hs : s.at? q ≠ none) : t.at? q ≠ none := by
  rcases h.at?_or q with heq | ⟨-, hdir⟩ | ⟨-, -, content, mode, hfile⟩
  · rwa [heq]
  · simp [hdir]
  · simp [hfile]

/-- What led to a directory still does. -/
theorem isDir (h : Spares T s t) (hdir : s.isDir path = true) : t.isDir path = true := by
  obtain ⟨place, entries, hlocate⟩ := isDir_eq_true_iff.1 hdir
  obtain ⟨entries', hlocate'⟩ := locate_dir_mono h.keepsWays h.cwd_eq h.at?_ne_none hlocate
  exact isDir_eq_true_iff.2 ⟨place, entries', hlocate'⟩

end Spares

/-- A file that is put in a directory takes the place of a file or of nothing. -/
theorem spares_putFile (hdir : s.at? dir = some .dir) (hname : isEntryName name = true)
    (hold : s.at? (dir ++ [name]) = none ∨
      ∃ content mode, s.at? (dir ++ [name]) = some (.file content mode))
    (hT : T (dir ++ [name])) (content : ByteArray) (executable : Bool) :
    Spares T s (s.putFile (dir ++ [name]) content executable) := by
  have hbelow : s.at? (dir ++ [name]) ≠ some .dir := by
    rcases hold with hnone | ⟨old, mode, hfile⟩
    · simp [hnone]
    · simp [hfile]
  have hat := at?_putFile hdir hname hbelow content executable
  refine ⟨cwd_putFile .., fun q => ?_⟩
  by_cases hq : q = dir ++ [name]
  · subst hq
    exact .inr (.inr ⟨hT, hold, content, executable, by rw [hat, if_pos rfl]⟩)
  · exact .inl (by rw [hat, if_neg hq])

/-- What the path of a directory, or one below it, leads to. -/
def LeadsBelow (s : Store) (dir : String) (q : Place) : Prop :=
  ∃ names, (∀ name ∈ names, isEntryName name = true) ∧
    s.LeadsTo (startOf dir s.cwd) (steps dir ++ names) q

theorem LeadsBelow.of_join (hname : isEntryName name = true)
    (h : s.LeadsBelow (Path.join path name) q) : s.LeadsBelow path q := by
  obtain ⟨names, hnames, hleads⟩ := h
  have hstep := isStep_of_isEntryName hname
  rw [startOf_join_name hstep, steps_join_name hstep, List.append_assoc] at hleads
  exact ⟨name :: names, List.forall_mem_cons.2 ⟨hname, hnames⟩, hleads⟩

end Store

namespace FileAction

open Store Stateful

variable {T : Place → Prop} {s t u : Store} {source target path name : String} {levels : Nat}
  {entries : List (String × Node)} {copyDir : String → String → FileAction Unit}

/-- A step from a store that spares what is outside `T`, as seen from `s`, spares it as well. -/
def StaysSparing (T : Place → Prop) (s t u : Store) : Prop :=
  Spares T s t → Spares T s u

theorem StaysSparing.refl (t : Store) : StaysSparing T s t t := id

theorem StaysSparing.trans {v : Store} (h : StaysSparing T s t u) (h' : StaysSparing T s u v) :
    StaysSparing T s t v :=
  h' ∘ h

theorem stays_makeDirs (path : String) : Keeps (StaysSparing T s) (makeDirs path) :=
  fun t h => h.trans (.of_confined (makeDirs_confined path t))

theorem stays_ensureDir (path : String) : Keeps (StaysSparing T s) (ensureDir path) :=
  fun t h => h.trans (.of_confined (ensureDir_confined path t))

theorem stays_list (path : String) : Keeps (StaysSparing T s) (list path) := by
  intro s
  rw [list, query_apply]
  exact .refl s

/-- Copying a file changes the file that the path of the target leads to. -/
theorem stays_copyFile (hname : isEntryName name = true)
    (hT : ∀ q, s.LeadsBelow target q → T q) :
    Keeps (StaysSparing T s) (copyFile source (Path.join target name)) := by
  intro t h
  unfold copyFile
  rw [get_bind]
  rcases hcopy : t.copyFile source (Path.join target name) with (e | _) | u
  · exact h
  · exact h
  · obtain ⟨place, content, executable, reach, dir, last, -, hreach, hplace, hlast, hdir, hold,
      rfl⟩ := copyFile_run hcopy
    have hleads := leadsTo_of_reachFile h.sameLinks (endsInName_join hname target) hreach
    rw [h.cwd_eq] at hleads
    have hwritten : T reach.place := by
      refine hT _ (LeadsBelow.of_join hname ⟨[], nofun, ?_⟩)
      rwa [List.append_nil]
    rw [hplace] at hold hwritten
    refine h.trans ?_
    rw [hplace]
    exact spares_putFile hdir hlast hold hwritten _ _

theorem stays_copyEntries (hnames : ∀ entry ∈ entries, isEntryName entry.1 = true)
    (hdir : ∀ source target, (∀ q, s.LeadsBelow target q → T q) →
      Keeps (StaysSparing T s) (copyDir source target))
    (hT : ∀ q, s.LeadsBelow target q → T q) :
    Keeps (StaysSparing T s) (copyEntries copyDir source target entries) := by
  induction entries with
  | nil => exact Keeps.pure .refl _
  | cons entry rest ih =>
    obtain ⟨hname, hrest⟩ := List.forall_mem_cons.1 hnames
    rw [copyEntries_cons]
    refine Keeps.bind StaysSparing.trans ?_ fun _ => ih hrest
    unfold copyEntry
    split
    · exact hdir _ _ fun q hq => hT q (hq.of_join hname)
    · exact stays_copyFile hname hT

/-- Copying a directory changes the files that paths below the target lead to. -/
theorem stays_copyLevels (levels : Nat) (source target : String)
    (hT : ∀ q, s.LeadsBelow target q → T q) :
    Keeps (StaysSparing T s) (copyLevels levels source target) := by
  induction levels generalizing source target with
  | zero => exact Keeps.throw .refl _
  | succ levels ih =>
    rw [copyLevels]
    refine Keeps.bind StaysSparing.trans (stays_makeDirs _) fun _ => ?_
    refine Keeps.bind_of_result StaysSparing.trans (stays_list source) ?_
    intro u entries v hlist
    exact stays_copyEntries (fun _ => (valid_of_list hlist).isEntryName_of_mem) ih hT

theorem stays_copyTree (source target : String) (hT : ∀ q, s.LeadsBelow target q → T q) :
    Keeps (StaysSparing T s) (copyTree source target) :=
  Keeps.get_bind fun _ => stays_copyLevels _ source target hT

/-! ## Replacing a file -/

variable {dir : Place} {text base : String} {e : Failure}

/-- A replacement that fails leaves every file as it was. -/
theorem fileAt_of_writeAtomic_error (h : writeAtomic path text s = (.error e, t)) (q : Place) :
    t.fileAt q = s.fileAt q := by
  obtain ⟨r, u, dir, hensure, hunmoved, -⟩ := writeAtomic_error h
  have hmade : Confined (fun _ => False) (s.OnWayOf (parentOf path)) s
      (ensureDir (parentOf path) s).2 := ensureDir_confined _ s
  rw [hensure] at hmade
  exact (fileAt_of_at?_eq (hunmoved.at?_eq q)).trans (hmade.fileAt_eq id)

/-- A replacement that succeeds changes one file, in the directory that was made for it. -/
theorem writeAtomic_join_changes (hname : isEntryName name = true)
    (h : writeAtomic (Path.join base name) text s = (.ok (), t)) :
    ∃ u dir entries, Confined (fun _ => False) (s.OnWayOf (parentOf (Path.join base name))) s u ∧
      u.locateBase (parentOf (Path.join base name)) = .ok (dir, .dir entries) ∧
      Replaced u t dir name text ∧ ∀ q, q ≠ dir ++ [name] → t.fileAt q = s.fileAt q := by
  obtain ⟨u, dir, entries, dots, hensure, hlocate, -, -, -, hreplaced⟩ :=
    writeAtomic_join_ok hname h
  have hmade : Confined (fun _ => False) (s.OnWayOf (parentOf (Path.join base name))) s
      (ensureDir (parentOf (Path.join base name)) s).2 := ensureDir_confined _ s
  rw [hensure] at hmade
  refine ⟨u, dir, entries, hmade, hlocate, hreplaced, fun q hq => ?_⟩
  rw [← hmade.fileAt_eq (q := q) id]
  exact fileAt_of_at?_eq (by rw [hreplaced.at?_eq, if_neg hq])

/-- The directory in which a joined name is replaced is what the path before it leads to. -/
theorem leadsTo_of_parentOf (hname : isEntryName name = true) (hlinks : SameLinks s u)
    (h : u.locateBase (parentOf (Path.join base name)) = .ok (dir, .dir entries)) :
    s.LeadsTo (startOf base u.cwd) (steps base) dir := by
  obtain ⟨dots, hsteps, hdots, hstart⟩ := steps_parentOf_join hname base
  rw [hsteps, ← hstart]
  exact (leadsTo_of_locateBase hlinks h).append_dots hdots

end FileAction

end Autotree
