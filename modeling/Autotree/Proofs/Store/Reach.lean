import Autotree.Proofs.Path.Steps
import Autotree.Proofs.Store.Item

/-!
# Where paths lead

What following a path says of the store: a node that is found stands at its place, a place that is
missing is free and has a proper name (`reachFrom_holds`).  A way on which no link is met is the
lexical one, `follow` (`walk_sound`).  A way to a directory depends on directories and links
alone, and any way on these and on what stands at its end, so a change that only touches other files
leaves it as it is (`reachFrom_kept`).  A way that is continued behind a directory goes on as one
from there (`exists_reachFrom_append`).
-/

namespace Autotree

namespace Store

/-! ## Lexical ways -/

/-- The place one step from a place, by name alone. -/
def stepFrom (place : Place) (step : String) : Place :=
  if step = "." then place else if step = ".." then place.dropLast else place ++ [step]

/-- The place that steps lead to from a place, by name alone. -/
def follow (place : Place) (steps : List String) : Place :=
  steps.foldl stepFrom place

@[simp] theorem follow_nil (place : Place) : follow place [] = place := rfl

theorem follow_cons (place : Place) (step : String) (steps : List String) :
    follow place (step :: steps) = follow (stepFrom place step) steps := rfl

theorem follow_append (place : Place) (xs ys : List String) :
    follow place (xs ++ ys) = follow (follow place xs) ys := List.foldl_append

theorem stepFrom_of_isEntryName {name : String} (h : isEntryName name = true) (place : Place) :
    stepFrom place name = place ++ [name] := by
  obtain ⟨-, hdot, hup⟩ := isEntryName_iff.1 h
  rw [stepFrom, if_neg hdot, if_neg hup]

@[simp] theorem stepFrom_dot (place : Place) : stepFrom place "." = place := if_pos rfl

theorem stepFrom_up_reverse (trail : Place) : stepFrom trail.reverse ".." = trail.tail.reverse := by
  rw [stepFrom, if_neg (by decide), if_pos rfl, List.dropLast_reverse]

theorem stepFrom_name_reverse {name : String} (h : isEntryName name = true) (trail : Place) :
    stepFrom trail.reverse name = (name :: trail).reverse := by
  rw [stepFrom_of_isEntryName h, List.reverse_cons]

theorem follow_dots {dots : List String} (h : ∀ d ∈ dots, d = ".") (place : Place) :
    follow place dots = place := by
  induction dots with
  | nil => rfl
  | cons d dots ih =>
    rw [follow_cons, h d List.mem_cons_self, stepFrom_dot]
    exact ih fun d hd => h d (List.mem_cons_of_mem _ hd)

/-- The place that a path stands for by its text alone. -/
def placeOf (s : Store) (path : String) : Place :=
  follow (startOf path s.cwd) (steps path)

end Store

namespace Reach

/-- The place that a path leads to. -/
def place : Reach → Place
  | found place _ => place
  | missing place => place

/-- What stands where a path leads. -/
def item? : Reach → Option Item
  | found _ node => some node.item
  | missing _ => none

/-- What a reach says of the store. -/
def HoldsIn (s : Store) : Reach → Prop
  | found place node => s.get? place = some node
  | missing place => s.get? place = none ∧
      ∃ dir name, place = dir ++ [name] ∧ isEntryName name = true ∧ s.at? dir = some .dir

end Reach

namespace Store

variable {s t : Store} {place dir start trail : Place} {node n : Node} {path : String}
  {xs ys rest : List String} {toLast slash : Bool} {links : Nat} {reach : Reach}
  {entries : List (String × Node)}

/-- What a walk from a place over given steps says of the store. -/
def Walk.SoundIn (s : Store) (start : Place) (steps : List String) : Walk → Prop
  | .ended reach => reach.place = follow start steps ∧ reach.HoldsIn s
  | .refused _ => True
  | .atLink target dir rest => (∃ entries, s.get? dir = some (.dir entries)) ∧
      (∃ place, s.get? place = some (.link target)) ∧ ∀ step ∈ rest, IsStep step

theorem get?_step (h : s.get? place = some node) (step : String) :
    s.get? (place ++ [step]) = node.get? [step] := by
  rw [get?_append, h, Option.bind_some]

theorem get?_cons_reverse (h : s.get? trail.reverse = some node) (step : String) :
    s.get? (step :: trail).reverse = node.get? [step] := by
  rw [List.reverse_cons, get?_step h]

theorem walk_dot (xs : List String) :
    s.walk toLast slash trail node ("." :: xs) = s.walk toLast slash trail node xs := by
  rw [walk, if_pos rfl]

theorem walk_up (h : s.get? trail.tail.reverse = some node) (below : Node) (xs : List String) :
    s.walk toLast slash trail below (".." :: xs) = s.walk toLast slash trail.tail node xs := by
  rw [walk, if_neg (by decide), if_pos rfl, h]

/-- Above a place where something stands, and at the root, is a directory. -/
theorem exists_dir_tail (h : s.get? trail.reverse = some node) :
    ∃ entries, s.get? trail.tail.reverse = some (.dir entries) := by
  cases trail with
  | nil => exact ⟨s.entries, Node.get?_nil s.root⟩
  | cons step trail =>
    rw [List.reverse_cons] at h
    exact Node.exists_dir_of_get?_append (List.cons_ne_nil step []) h

theorem Walk.SoundIn.cons {w : Walk} {step : String}
    (h : w.SoundIn s (stepFrom start step) xs) : w.SoundIn s start (step :: xs) := by
  cases w with
  | ended reach => exact h
  | refused e => trivial
  | atLink target dir rest => exact h

theorem at?_eq_dir_of_isDir (h : s.get? place = some node) (hdir : node.isDir = true) :
    s.at? place = some .dir := by
  cases node with
  | file content executable => cases hdir
  | link target => cases hdir
  | dir entries => exact at?_eq_dir_iff.2 ⟨entries, h⟩

theorem walk_sound (hnode : s.get? trail.reverse = some node) (hxs : ∀ x ∈ xs, IsStep x) :
    (s.walk toLast slash trail node xs).SoundIn s trail.reverse xs := by
  induction xs generalizing trail node with
  | nil => exact ⟨rfl, hnode⟩
  | cons step xs ih =>
    obtain ⟨hstep, hrest⟩ := List.forall_mem_cons.1 hxs
    refine .cons ?_
    rcases hstep.dot_or_up_or_name with rfl | rfl | hname
    · rw [stepFrom_dot, walk_dot]
      exact ih hnode hrest
    · obtain ⟨entries, hparent⟩ := exists_dir_tail hnode
      rw [stepFrom_up_reverse, walk_up hparent]
      exact ih hparent hrest
    · -- the place is the entry, and whatever the walk finds it finds there
      obtain ⟨-, hdot, hup⟩ := isEntryName_iff.1 hname
      have hget := get?_cons_reverse hnode step
      rw [stepFrom_name_reverse hname, walk, if_neg hdot, if_neg hup]
      split
      · trivial
      split
      · next hnone =>
        split
        · next hlast =>
          rw [Bool.and_eq_true] at hlast
          rw [List.isEmpty_iff.1 hlast.1]
          exact ⟨rfl, hget.trans hnone, trail.reverse, step, List.reverse_cons, hname,
            at?_eq_dir_of_isDir hnode hlast.2⟩
        · trivial
      · next hdir => exact ih (hget.trans hdir) hrest
      · next hfile =>
        split
        · next hlast =>
          rw [Bool.and_eq_true] at hlast
          rw [List.isEmpty_iff.1 hlast.1]
          exact ⟨rfl, hget.trans hfile⟩
        · trivial
      · next hlink =>
        split
        · next hlast =>
          rw [Bool.and_eq_true, Bool.and_eq_true] at hlast
          rw [List.isEmpty_iff.1 hlast.1.1]
          exact ⟨rfl, hget.trans hlink⟩
        · exact ⟨exists_dir_tail (hget.trans hlink), ⟨_, hget.trans hlink⟩, hrest⟩

/-! ## Following links -/

theorem isStep_of_mem_append (h : ∀ x ∈ rest, IsStep x) (target : String) :
    ∀ x ∈ steps target ++ rest, IsStep x := by
  intro x hx
  rcases List.mem_append.1 hx with hx | hx
  · exact isStep_of_mem_steps hx
  · exact h x hx

theorem walk_sound_from (toLast slash : Bool) (hnode : s.get? start = some node)
    (hxs : ∀ x ∈ xs, IsStep x) :
    (s.walk toLast slash start.reverse node xs).SoundIn s start xs := by
  have hsound : (s.walk toLast slash start.reverse node xs).SoundIn s start.reverse.reverse xs :=
    walk_sound (by rwa [List.reverse_reverse]) hxs
  rwa [List.reverse_reverse] at hsound

theorem reachFrom_holds (h : s.reachFrom toLast links slash start xs = .ok reach)
    (hxs : ∀ x ∈ xs, IsStep x) : reach.HoldsIn s := by
  fun_induction reachFrom s toLast links slash start xs with
  | case1 => cases h
  | case2 links slash start xs node hnode r hw =>
    cases h
    have hsound := walk_sound_from toLast slash hnode hxs
    rw [hw] at hsound
    exact hsound.2
  | case3 => cases h
  | case4 => cases h
  | case5 => cases h
  | case6 slash start xs node hnode target dir rest hw links htarget ih =>
    have hsound := walk_sound_from toLast slash hnode hxs
    rw [hw] at hsound
    exact ih h (isStep_of_mem_append hsound.2.2 target)

theorem reach_holds (h : s.reach toLast path = .ok reach) : reach.HoldsIn s := by
  unfold Store.reach at h
  split at h
  · cases h
  · exact reachFrom_holds h fun _ => isStep_of_mem_steps

theorem reachName_holds (h : s.reachName path = .ok reach) : reach.HoldsIn s := by
  unfold reachName at h
  split at h
  · cases h
  · exact reachFrom_holds h fun _ => isStep_of_mem_steps

theorem reachFileFrom_holds (h : s.reachFileFrom links dir path = .ok reach) :
    reach.HoldsIn s := by
  induction links generalizing dir path with
  | zero => cases h
  | succ links ih =>
    rw [reachFileFrom] at h
    split at h
    · cases h
    · split at h
      · cases h
      · next r hr =>
        split at h
        · cases h
        · split at h
          · exact ih h
          · cases h
            exact reachFrom_holds hr fun _ => isStep_of_mem_steps

theorem reachFile_holds (h : s.reachFile path = .ok reach) : reach.HoldsIn s := by
  unfold reachFile at h
  split at h
  · cases h
  · exact reachFileFrom_holds h

theorem locate_eq_ok_iff :
    s.locate path = .ok (place, node) ↔ s.reach true path = .ok (.found place node) := by
  unfold locate
  cases s.reach true path with
  | error e => simp
  | ok r => cases r <;> simp

theorem not_refused_of_locate (h : s.locate path = .ok (place, node)) : ¬ Refused path := by
  intro hrefused
  rw [locate_eq_ok_iff, Store.reach, if_pos hrefused] at h
  cases h

theorem get?_of_locate (h : s.locate path = .ok (place, node)) : s.get? place = some node :=
  reach_holds (locate_eq_ok_iff.1 h)

theorem locateBase_eq_ok_iff :
    s.locateBase path = .ok (place, node) ↔
      s.reachFrom true linkLimit (endsInSlash path) (startOf path s.cwd) (steps path) =
        .ok (.found place node) := by
  unfold locateBase
  cases s.reachFrom true linkLimit (endsInSlash path) (startOf path s.cwd) (steps path) with
  | error e => simp
  | ok r => cases r <;> simp

/-- What a path leads to, it leads to in front of a name as well. -/
theorem locateBase_of_locate (h : s.locate path = .ok (place, node)) :
    s.locateBase path = .ok (place, node) := by
  have hpath := not_refused_of_locate h
  rw [locate_eq_ok_iff, Store.reach, if_neg hpath] at h
  exact locateBase_eq_ok_iff.2 h

theorem get?_of_locateBase (h : s.locateBase path = .ok (place, node)) :
    s.get? place = some node :=
  reachFrom_holds (locateBase_eq_ok_iff.1 h) fun _ => isStep_of_mem_steps

/-! ## Ways to a directory -/

/-- Every directory and link of `s` stands in `t` as well, so that ways over them go on. -/
def KeepsWays (s t : Store) : Prop :=
  ∀ place item, s.at? place = some item → item.LeadsOn → t.at? place = some item

theorem KeepsWays.directory (hkeep : KeepsWays s t) (h : s.get? place = some (.dir entries)) :
    ∃ entries', t.get? place = some (.dir entries') :=
  at?_eq_dir_iff.1 (hkeep place .dir (at?_eq_dir_iff.2 ⟨entries, h⟩) trivial)

theorem KeepsWays.link {target : String} (hkeep : KeepsWays s t)
    (h : s.get? place = some (.link target)) : t.get? place = some (.link target) :=
  at?_eq_link_iff.1 (hkeep place (.link target) (at?_eq_link_iff.2 h) trivial)

/-- What a walk is in a store that keeps the ways: it ends at the same place, if what stands there
is the same or a directory was made of it, and meets the same link. -/
def Walk.KeptBy (s t : Store) (w w' : Walk) : Prop :=
  (∀ reach, w = .ended reach →
    t.at? reach.place = s.at? reach.place ∨ t.at? reach.place = some .dir →
      ∃ reach', w' = .ended reach' ∧ reach'.place = reach.place ∧
        reach'.item? = t.at? reach.place) ∧
  ∀ target dir rest, w = .atLink target dir rest → w' = .atLink target dir rest

theorem KeepsWays.exists_dir {node' : Node} (hkeep : KeepsWays s t)
    (hs : s.get? place = some node) (ht : t.get? place = some node') (hdir : node.isDir = true) :
    ∃ entries, node' = .dir entries := by
  cases node with
  | dir entries =>
    obtain ⟨entries', hdir'⟩ := hkeep.directory hs
    exact ⟨entries', Option.some.inj (ht.symm.trans hdir')⟩
  | file content executable => cases hdir
  | link target => cases hdir

namespace Walk.KeptBy

theorem refused {e : Errno} {w : Walk} : (Walk.refused e).KeptBy s t w :=
  ⟨nofun, nofun⟩

theorem ended {w : Walk} (h : t.at? reach.place = s.at? reach.place ∨
      t.at? reach.place = some .dir →
    ∃ reach', w = .ended reach' ∧ reach'.place = reach.place ∧
      reach'.item? = t.at? reach.place) : (Walk.ended reach).KeptBy s t w := by
  refine ⟨?_, nofun⟩
  rintro _ ⟨⟩
  exact h

theorem atLink {target : String} {dir : Place} {rest : List String} :
    (Walk.atLink target dir rest).KeptBy s t (.atLink target dir rest) :=
  ⟨nofun, fun _ _ _ h => h⟩

end Walk.KeptBy

/-- A walk that is over at its last name finds there what stands in the other store. -/
theorem walk_last (ht : t.get? trail.reverse = some node) (hdir : node.isDir = true)
    {step : String} (hdot : step ≠ ".") (hup : step ≠ "..") (hshort : ¬ Overlong step)
    (hlast : t.at? (step :: trail).reverse = none ∨ t.at? (step :: trail).reverse = some .dir ∨
      slash = false ∧ ∃ content executable,
        t.at? (step :: trail).reverse = some (.file content executable)) :
    ∃ reach, t.walk toLast slash trail node [step] = .ended reach ∧
      reach.place = (step :: trail).reverse ∧ reach.item? = t.at? (step :: trail).reverse := by
  have hget := get?_cons_reverse ht step
  rw [walk, if_neg hdot, if_neg hup, if_neg hshort]
  rcases hlast with hnone | hsome | ⟨hslash, content, executable, hfile⟩
  · rw [← hget, at?_eq_none_iff.1 hnone]
    refine ⟨.missing (step :: trail).reverse, ?_, rfl, hnone.symm⟩
    simp [hdir]
  · obtain ⟨entries, hentries⟩ := at?_eq_dir_iff.1 hsome
    rw [← hget, hentries]
    exact ⟨.found (step :: trail).reverse (.dir entries), rfl, rfl, hsome.symm⟩
  · rw [← hget, at?_eq_file_iff.1 hfile]
    refine ⟨.found (step :: trail).reverse (.file content executable), ?_, rfl, hfile.symm⟩
    simp [hslash]

theorem walk_kept {node' : Node} (hkeep : KeepsWays s t) (hs : s.get? trail.reverse = some node)
    (ht : t.get? trail.reverse = some node') :
    (s.walk toLast slash trail node xs).KeptBy s t (t.walk toLast slash trail node' xs) := by
  induction xs generalizing trail node node' with
  | nil =>
    refine .ended fun _ => ?_
    exact ⟨.found trail.reverse node', rfl, rfl, by simp [Reach.item?, Reach.place, at?, ht]⟩
  | cons step xs ih =>
    rw [walk]
    split
    · next hdot =>
      rw [hdot, walk_dot]
      exact ih hs ht
    next hdot =>
    split
    · next hup =>
      obtain ⟨parent, hparent⟩ := exists_dir_tail hs
      obtain ⟨parent', hparent'⟩ := exists_dir_tail ht
      rw [hup, hparent, walk_up hparent']
      exact ih hparent hparent'
    next hup =>
    split
    · exact .refused
    next hshort =>
    have hs' := get?_cons_reverse hs step
    have ht' := get?_cons_reverse ht step
    -- at a file or at nothing the walk over `s` is over, and the other one is too
    cases hnode : node.get? [step] with
    | none =>
      rw [hnode] at hs'
      simp only
      split
      · next hlast =>
        obtain ⟨hempty, hdir⟩ := Bool.and_eq_true_iff.1 hlast
        obtain rfl := List.isEmpty_iff.1 hempty
        obtain ⟨entries', rfl⟩ := hkeep.exists_dir hs ht hdir
        refine .ended fun hend => ?_
        refine walk_last ht rfl hdot hup hshort (hend.imp (fun heq => ?_) .inl)
        exact heq.trans (at?_eq_none_iff.2 hs')
      · exact .refused
    | some m =>
      rw [hnode] at hs'
      cases m with
      | file content executable =>
        simp only
        split
        · next hlast =>
          obtain ⟨hempty, hslash⟩ := Bool.and_eq_true_iff.1 hlast
          obtain rfl := List.isEmpty_iff.1 hempty
          obtain ⟨entries', rfl⟩ := hkeep.exists_dir hs ht (Node.isDir_of_get?_cons hnode)
          refine .ended fun hend => walk_last ht rfl hdot hup hshort (.inr ?_)
          rcases hend with heq | hmade
          · exact .inr ⟨by simpa using hslash, content, executable,
              heq.trans (at?_eq_file_iff.2 hs')⟩
          · exact .inl hmade
        · exact .refused
      | link target =>
        have hlink := hkeep.link hs'
        rw [walk, if_neg hdot, if_neg hup, if_neg hshort, ← ht', hlink]
        simp only
        split
        · exact .ended fun _ => ⟨_, rfl, rfl, (at?_eq_link_iff.2 hlink).symm⟩
        · exact .atLink
      | dir entries =>
        obtain ⟨below, hbelow⟩ := hkeep.directory hs'
        rw [walk, if_neg hdot, if_neg hup, if_neg hshort, ← ht', hbelow]
        exact ih hs' hbelow

theorem walk_kept_from {node' : Node} (toLast slash : Bool) (xs : List String)
    (hkeep : KeepsWays s t) (hs : s.get? start = some node) (ht : t.get? start = some node') :
    (s.walk toLast slash start.reverse node xs).KeptBy s t
      (t.walk toLast slash start.reverse node' xs) :=
  walk_kept hkeep (by rwa [List.reverse_reverse]) (by rwa [List.reverse_reverse])

/-- A way leads to the same place in a store that keeps the ways and has its start, if what stands
at its end is the same or a directory was made of it. -/
theorem reachFrom_kept (hkeep : KeepsWays s t)
    (h : s.reachFrom toLast links slash start xs = .ok reach) (hxs : ∀ x ∈ xs, IsStep x)
    (hstart : t.at? start ≠ none)
    (hend : t.at? reach.place = s.at? reach.place ∨ t.at? reach.place = some .dir) :
    ∃ reach', t.reachFrom toLast links slash start xs = .ok reach' ∧
      reach'.place = reach.place ∧ reach'.item? = t.at? reach.place := by
  fun_induction reachFrom s toLast links slash start xs with
  | case1 => cases h
  | case2 links slash start xs node hnode r hw =>
    cases h
    obtain ⟨node', hnode'⟩ := Option.ne_none_iff_exists'.1 (mt at?_eq_none_iff.2 hstart)
    obtain ⟨reach', hw', hkept⟩ :=
      (walk_kept_from toLast slash xs hkeep hnode hnode').1 reach hw hend
    refine ⟨reach', ?_, hkept⟩
    rw [reachFrom, hnode']
    simp only [hw']
  | case3 => cases h
  | case4 => cases h
  | case5 => cases h
  | case6 slash start xs node hnode target dir rest hw links htarget ih =>
    have hsound := walk_sound_from toLast slash hnode hxs
    rw [hw] at hsound
    -- the walk to the link is kept, and so is the directory that the link is in
    obtain ⟨⟨above, habove⟩, -, hrest⟩ := hsound
    obtain ⟨node', hnode'⟩ := Option.ne_none_iff_exists'.1 (mt at?_eq_none_iff.2 hstart)
    have hw' := (walk_kept_from toLast slash xs hkeep hnode hnode').2 target dir rest hw
    have hnext : t.at? (startOf target dir) ≠ none := by
      obtain ⟨above', habove'⟩ := hkeep.directory habove
      unfold startOf
      split
      · simp [at?, get?]
      · simp [at?, habove']
    obtain ⟨reach', h', hkept⟩ := ih h (isStep_of_mem_append hrest target) hnext
    refine ⟨reach', ?_, hkept⟩
    rw [reachFrom, hnode']
    simp only [hw', if_neg htarget, h']

theorem at?_start_of_reachFrom (h : s.reachFrom toLast links slash start xs = .ok reach) :
    s.at? start ≠ none := by
  intro hnone
  rw [reachFrom, at?_eq_none_iff.1 hnone] at h
  cases h

/-! ## Two ways to a directory -/

/-- Where both stores have a directory or a link, they have the same. -/
def WaysAgree (s t : Store) : Prop :=
  ∀ place item other, s.at? place = some item → t.at? place = some other → item.LeadsOn →
    other.LeadsOn → item = other

/-- How a walk goes on: from a directory, or along a link. -/
def Walk.onward? : Walk → Option (Place ⊕ String × Place × List String)
  | .ended (.found place (.dir _)) => some (.inl place)
  | .atLink target dir rest => some (.inr (target, dir, rest))
  | _ => none

/-- Two walks that can both go on do so in the same way. -/
def Walk.Meets (w w' : Walk) : Prop :=
  ∀ a b, w.onward? = some a → w'.onward? = some b → a = b

theorem WaysAgree.not_dir_link {target : String} (hagree : WaysAgree s t)
    (hs : s.get? place = some (.dir entries)) (ht : t.get? place = some (.link target)) : False :=
  nomatch hagree place .dir (.link target) (at?_eq_dir_iff.2 ⟨entries, hs⟩) (at?_eq_link_iff.2 ht)
    trivial trivial

theorem WaysAgree.symm (hagree : WaysAgree s t) : WaysAgree t s :=
  fun place item other hs ht hitem hother => (hagree place other item ht hs hother hitem).symm

theorem WaysAgree.link_eq {target target' : String} (hagree : WaysAgree s t)
    (hs : s.get? place = some (.link target)) (ht : t.get? place = some (.link target')) :
    target = target' :=
  Item.link.inj (hagree place (.link target) (.link target') (at?_eq_link_iff.2 hs)
    (at?_eq_link_iff.2 ht) trivial trivial)

theorem walk_meets {node' : Node} {toLast' slash' : Bool} (hagree : WaysAgree s t)
    (hs : s.get? trail.reverse = some node) (ht : t.get? trail.reverse = some node') :
    (s.walk toLast slash trail node xs).Meets (t.walk toLast' slash' trail node' xs) := by
  induction xs generalizing trail node node' with
  | nil =>
    intro a b ha hb
    cases node <;> cases ha
    cases node' <;> cases hb
    rfl
  | cons step xs ih =>
    rw [walk, walk]
    split
    · exact ih hs ht
    · split
      · obtain ⟨parent, hparent⟩ := exists_dir_tail hs
        obtain ⟨parent', hparent'⟩ := exists_dir_tail ht
        rw [hparent, hparent']
        exact ih hparent hparent'
      · have hs' := get?_cons_reverse hs step
        have ht' := get?_cons_reverse ht step
        intro a b ha hb
        split at ha
        · cases ha
        next hshort =>
        rw [if_neg hshort] at hb
        -- a walk that goes on has met a directory or a link, and both have met the same
        split at ha
        · split at ha <;> cases ha
        · next hm =>
          split at hb
          · split at hb <;> cases hb
          · next hm' => exact ih (hs'.trans hm) (ht'.trans hm') a b ha hb
          · split at hb <;> cases hb
          · next hm' => exact (hagree.not_dir_link (hs'.trans hm) (ht'.trans hm')).elim
        · split at ha <;> cases ha
        · next hm =>
          split at hb
          · split at hb <;> cases hb
          · next hm' => exact (hagree.symm.not_dir_link (ht'.trans hm') (hs'.trans hm)).elim
          · split at hb <;> cases hb
          · next hm' =>
            obtain rfl := hagree.link_eq (hs'.trans hm) (ht'.trans hm')
            split at ha
            · cases ha
            · split at hb
              · cases hb
              · cases ha
                cases hb
                rfl

theorem walk_meets_from {node' : Node} (toLast slash toLast' slash' : Bool) (xs : List String)
    (hagree : WaysAgree s t) (hs : s.get? start = some node) (ht : t.get? start = some node') :
    (s.walk toLast slash start.reverse node xs).Meets
      (t.walk toLast' slash' start.reverse node' xs) :=
  walk_meets hagree (by rwa [List.reverse_reverse]) (by rwa [List.reverse_reverse])

/-- A way to a directory is a walk to it, or a walk to a link and a way from there. -/
theorem reachFrom_eq_dir
    (h : s.reachFrom toLast links slash start xs = .ok (.found place (.dir entries))) :
    ∃ node, s.get? start = some node ∧
      (s.walk toLast slash start.reverse node xs = .ended (.found place (.dir entries)) ∨
        ∃ links' slash' target dir rest, links = links' + 1 ∧
          s.walk toLast slash start.reverse node xs = .atLink target dir rest ∧
          s.reachFrom toLast links' slash' (startOf target dir) (steps target ++ rest) =
            .ok (.found place (.dir entries))) := by
  fun_induction reachFrom s toLast links slash start xs with
  | case1 => cases h
  | case2 links slash start xs node hnode r hw =>
    cases h
    exact ⟨node, hnode, .inl hw⟩
  | case3 => cases h
  | case4 => cases h
  | case5 => cases h
  | case6 slash start xs node hnode target dir rest hw links htarget =>
    exact ⟨node, hnode, .inr ⟨links, _, target, dir, rest, rfl, hw, h⟩⟩

/-- Two stores that agree on the ways do not lead to two directories. -/
theorem reachFrom_dir_unique {entries' : List (String × Node)} {toLast' slash' : Bool}
    {links' : Nat} {place' : Place} (hagree : WaysAgree s t)
    (h : s.reachFrom toLast links slash start xs = .ok (.found place (.dir entries)))
    (h' : t.reachFrom toLast' links' slash' start xs = .ok (.found place' (.dir entries'))) :
    place = place' := by
  fun_induction reachFrom s toLast links slash start xs generalizing slash' links' with
  | case1 => cases h
  | case2 links slash start xs node hnode r hw =>
    cases h
    obtain ⟨node', hnode', hgo⟩ := reachFrom_eq_dir h'
    have hmeets := walk_meets_from toLast slash toLast' slash' xs hagree hnode hnode'
    rcases hgo with hw' | ⟨_, _, _, _, _, -, hw', -⟩
    · exact Sum.inl.inj (hmeets _ _ (congrArg Walk.onward? hw) (congrArg Walk.onward? hw'))
    · exact nomatch hmeets _ _ (congrArg Walk.onward? hw) (congrArg Walk.onward? hw')
  | case3 => cases h
  | case4 => cases h
  | case5 => cases h
  | case6 slash start xs node hnode target dir rest hw links htarget ih =>
    obtain ⟨node', hnode', hgo⟩ := reachFrom_eq_dir h'
    have hmeets := walk_meets_from toLast slash toLast' slash' xs hagree hnode hnode'
    rcases hgo with hw' | ⟨_, _, _, _, _, -, hw', hnext⟩
    · exact nomatch hmeets _ _ (congrArg Walk.onward? hw) (congrArg Walk.onward? hw')
    · cases Sum.inr.inj (hmeets _ _ (congrArg Walk.onward? hw) (congrArg Walk.onward? hw'))
      exact ih h hnext

/-! ## Going on behind a directory -/

/-- What a walk becomes that has more steps to go, when it went on without them: from a directory
it goes on over them, and a link leaves them for later. -/
def Walk.ContinuedBy (s : Store) (toLast slash : Bool) (ys : List String) (w w' : Walk) : Prop :=
  (∀ place entries, w = .ended (.found place (.dir entries)) →
    w' = s.walk toLast slash place.reverse (.dir entries) ys) ∧
  ∀ target dir rest, w = .atLink target dir rest → w' = .atLink target dir (rest ++ ys)

theorem walk_append (toLast' slash' : Bool) (hys : ys ≠ []) :
    (s.walk toLast slash trail node xs).ContinuedBy s toLast' slash' ys
      (s.walk toLast' slash' trail node (xs ++ ys)) := by
  induction xs generalizing trail node with
  | nil =>
    refine ⟨?_, fun _ _ _ h => nomatch h⟩
    intro place entries h
    rw [walk, Walk.ended.injEq, Reach.found.injEq] at h
    obtain ⟨rfl, rfl⟩ := h
    rw [List.reverse_reverse, List.nil_append]
  | cons step xs ih =>
    -- with more steps to go, no step of the first ones is the last
    have hmore : (xs ++ ys).isEmpty = false := by
      rw [List.isEmpty_eq_false_iff]
      exact List.append_ne_nil_of_right_ne_nil xs hys
    rw [List.cons_append, walk, walk]
    split
    · exact ih
    · split
      · split
        · exact ih
        · exact ⟨fun _ _ h => (nomatch h), fun _ _ _ h => (nomatch h)⟩
      · split
        · exact ⟨fun _ _ h => (nomatch h), fun _ _ _ h => (nomatch h)⟩
        split
        · split <;> exact ⟨fun _ _ h => (nomatch h), fun _ _ _ h => (nomatch h)⟩
        · exact ih
        · split <;> exact ⟨fun _ _ h => (nomatch h), fun _ _ _ h => (nomatch h)⟩
        · split
          · exact ⟨fun _ _ h => (nomatch h), fun _ _ _ h => (nomatch h)⟩
          · refine ⟨fun _ _ h => (nomatch h), ?_⟩
            intro target dir rest h
            cases h
            simp only [hmore, Bool.false_and, Bool.false_eq_true, if_false]

/-- A way that is continued behind a directory goes on from there, with the links that are left. -/
theorem exists_reachFrom_append (toLast slash' : Bool)
    (h : s.reachFrom true links slash start xs = .ok (.found place (.dir entries)))
    (hplace : s.get? place = some (.dir entries)) (hys : ys ≠ []) :
    ∃ left ≤ links, s.reachFrom toLast links slash' start (xs ++ ys) =
      s.reachFrom toLast left slash' place ys := by
  fun_induction reachFrom s true links slash start xs with
  | case1 => cases h
  | case2 links slash start xs node hnode r hr =>
    cases h
    refine ⟨links, Nat.le_refl _, ?_⟩
    rw [reachFrom, reachFrom, hnode, hplace]
    simp only [(walk_append toLast slash' hys).1 place entries hr]
  | case3 => cases h
  | case4 => cases h
  | case5 => cases h
  | case6 slash start xs node hnode target dir rest hr links htarget ih =>
    -- the link is met as before, with the further steps behind what was left
    have hmore : (rest ++ ys).isEmpty = false := by
      rw [List.isEmpty_eq_false_iff]
      exact List.append_ne_nil_of_right_ne_nil rest hys
    obtain ⟨left, hle, hleft⟩ := ih h
    refine ⟨left, Nat.le_succ_of_le hle, ?_⟩
    rw [reachFrom, hnode]
    simp only [(walk_append toLast slash' hys).2 target dir rest hr, if_neg htarget, hmore,
      Bool.false_and, Bool.or_false]
    rw [← List.append_assoc]
    exact hleft

/-- A way that is continued behind a directory leads where the rest of it leads from there. -/
theorem reachFrom_append {slash' : Bool}
    (h : s.reachFrom true links slash start xs = .ok (.found place (.dir entries)))
    (hplace : s.get? place = some (.dir entries)) (hys : ys ≠ [])
    (hw : s.walk toLast slash' place.reverse (.dir entries) ys = .ended reach) :
    s.reachFrom toLast links slash' start (xs ++ ys) = .ok reach := by
  obtain ⟨left, -, hleft⟩ := exists_reachFrom_append toLast slash' h hplace hys
  rw [hleft, reachFrom, hplace]
  simp only [hw]

theorem walk_dots {dots : List String} (h : ∀ d ∈ dots, d = ".") (xs : List String) :
    s.walk toLast slash trail node (dots ++ xs) = s.walk toLast slash trail node xs := by
  induction dots with
  | nil => rfl
  | cons d dots ih =>
    rw [List.cons_append, h d List.mem_cons_self, walk_dot]
    exact ih fun d hd => h d (List.mem_cons_of_mem _ hd)

theorem walk_eq_of_dots {dots : List String} (h : ∀ d ∈ dots, d = ".") :
    s.walk toLast slash trail node dots = .ended (.found trail.reverse node) := by
  have hwalk : s.walk toLast slash trail node (dots ++ []) = s.walk toLast slash trail node [] :=
    walk_dots h []
  rwa [List.append_nil, walk] at hwalk

theorem reach_found_dir (h : s.locate path = .ok (place, .dir entries)) :
    ¬ Refused path ∧
      s.reachFrom true linkLimit (endsInSlash path) (startOf path s.cwd) (steps path) =
        .ok (.found place (.dir entries)) := by
  exact ⟨not_refused_of_locate h, locateBase_eq_ok_iff.1 (locateBase_of_locate h)⟩

/-- A directory is where it was, in a store that keeps the ways and what its path starts from. -/
theorem locateBase_dir_kept (hkeep : KeepsWays s t) (hcwd : t.cwd = s.cwd)
    (hstart : t.at? (startOf path s.cwd) ≠ none)
    (h : s.locateBase path = .ok (place, .dir entries)) :
    ∃ entries', t.locateBase path = .ok (place, .dir entries') := by
  have hdir : t.at? place = some .dir :=
    hkeep place .dir (at?_eq_dir_iff.2 ⟨entries, get?_of_locateBase h⟩) trivial
  obtain ⟨reach', hreach', hplace, hitem⟩ :=
    reachFrom_kept hkeep (locateBase_eq_ok_iff.1 h) (fun _ => isStep_of_mem_steps) hstart
      (.inr hdir)
  rw [show (Reach.found place (.dir entries)).place = place from rfl, hdir] at hitem
  rw [← hcwd] at hreach'
  cases reach' with
  | missing there => cases hitem
  | found there node' =>
    obtain rfl : there = place := hplace
    cases node' with
    | dir entries' => exact ⟨entries', locateBase_eq_ok_iff.2 hreach'⟩
    | file content executable => cases hitem
    | link target => cases hitem

section Kept

variable (hkeep : KeepsWays s t) (hcwd : t.cwd = s.cwd)
  (hstart : s.at? s.cwd ≠ none → t.at? s.cwd ≠ none)

include hkeep hcwd hstart

omit hkeep hcwd in
/-- What a path starts from is still there. -/
theorem at?_startOf_ne_none (h : s.at? (startOf path s.cwd) ≠ none) :
    t.at? (startOf path s.cwd) ≠ none := by
  unfold startOf at h ⊢
  split
  · simp [at?, get?]
  · next habs =>
    rw [if_neg habs] at h
    exact hstart h

/-- The way of a path leads to the same place in a store that keeps the ways, if what stands at its
end is the same or a directory was made of it. -/
theorem reachFrom_kept_of_path
    (h : s.reachFrom toLast links slash (startOf path s.cwd) (steps path) = .ok reach)
    (hend : t.at? reach.place = s.at? reach.place ∨ t.at? reach.place = some .dir) :
    ∃ reach', t.reachFrom toLast links slash (startOf path t.cwd) (steps path) = .ok reach' ∧
      reach'.place = reach.place ∧ reach'.item? = t.at? reach.place := by
  rw [hcwd]
  exact reachFrom_kept hkeep h (fun _ => isStep_of_mem_steps)
    (at?_startOf_ne_none hstart (at?_start_of_reachFrom h)) hend

theorem reachName_kept (h : s.reachName path = .ok reach)
    (hend : t.at? reach.place = s.at? reach.place ∨ t.at? reach.place = some .dir) :
    ∃ reach', t.reachName path = .ok reach' ∧ reach'.place = reach.place ∧
      reach'.item? = t.at? reach.place := by
  unfold reachName at h ⊢
  split at h
  · cases h
  · next hpath =>
    rw [if_neg hpath]
    exact reachFrom_kept_of_path hkeep hcwd hstart h hend

theorem locate_kept (h : s.locate path = .ok (place, node))
    (hend : t.at? place = s.at? place ∨ t.at? place = some .dir) :
    ∃ node', t.locate path = .ok (place, node') ∧ t.at? place = some node'.item := by
  have hreach := locate_eq_ok_iff.1 h
  have hat : s.at? place = some node.item := by rw [at?, get?_of_locate h, Option.map_some]
  unfold Store.reach at hreach
  split at hreach
  · cases hreach
  · next hpath =>
    obtain ⟨reach', hreach', hplace, hitem⟩ :=
      reachFrom_kept_of_path hkeep hcwd hstart hreach hend
    cases reach' with
    | missing there =>
      obtain rfl : there = place := hplace
      have hnone : t.at? there = none := hitem.symm
      rw [hnone, hat] at hend
      rcases hend with hend | hend
      · cases hend
      · cases hend
    | found there node' =>
      obtain rfl : there = place := hplace
      refine ⟨node', locate_eq_ok_iff.2 ?_, hitem.symm⟩
      rw [Store.reach, if_neg hpath]
      exact hreach'

theorem locateBase_dir_mono (h : s.locateBase path = .ok (place, .dir entries)) :
    ∃ entries', t.locateBase path = .ok (place, .dir entries') :=
  locateBase_dir_kept hkeep hcwd
    (at?_startOf_ne_none hstart (at?_start_of_reachFrom (locateBase_eq_ok_iff.1 h))) h

theorem locate_dir_mono (h : s.locate path = .ok (place, .dir entries)) :
    ∃ entries', t.locate path = .ok (place, .dir entries') := by
  have hdir : t.at? place = some .dir :=
    hkeep place .dir (at?_eq_dir_iff.2 ⟨entries, get?_of_locate h⟩) trivial
  obtain ⟨node', hlocate, hitem⟩ := locate_kept hkeep hcwd hstart h (.inr hdir)
  obtain ⟨entries', hentries⟩ := at?_eq_dir_iff.1 hdir
  rw [get?_of_locate hlocate] at hentries
  cases hentries
  exact ⟨entries', hlocate⟩

theorem locate_file_mono {content : ByteArray} {executable : Bool}
    (h : s.locate path = .ok (place, .file content executable))
    (hend : t.at? place = s.at? place) : t.locate path = .ok (place, .file content executable) := by
  have hfile : t.at? place = some (.file content executable) :=
    hend.trans (at?_eq_file_iff.2 (get?_of_locate h))
  obtain ⟨node', hlocate, -⟩ := locate_kept hkeep hcwd hstart h (.inl hend)
  have hget := at?_eq_file_iff.1 hfile
  rw [get?_of_locate hlocate] at hget
  cases hget
  exact hlocate

end Kept

/-- A directory and the path of one in it lead to the same place in stores that agree on the
ways. -/
theorem locateBase_unique {parent : String} {dots : List String} {there : Place}
    {entries' : List (String × Node)} (hagree : WaysAgree s t) (hcwd : t.cwd = s.cwd)
    (hs : s.locateBase parent = .ok (dir, .dir entries))
    (hsteps : steps path = steps parent ++ dots) (hdots : ∀ d ∈ dots, d = ".")
    (hstart : startOf path s.cwd = startOf parent s.cwd)
    (ht : t.locateBase path = .ok (there, .dir entries')) : there = dir := by
  have hreach := locateBase_eq_ok_iff.1 hs
  have hreach' := locateBase_eq_ok_iff.1 ht
  rw [hcwd, hstart, hsteps] at hreach'
  by_cases hnil : dots = []
  · rw [hnil, List.append_nil] at hreach'
    exact (reachFrom_dir_unique hagree hreach hreach').symm
  · have hdotted : s.reachFrom true linkLimit false (startOf parent s.cwd)
        (steps parent ++ dots) = .ok (.found dir (.dir entries)) := by
      refine reachFrom_append hreach (get?_of_locateBase hs) hnil ?_
      rw [walk_eq_of_dots hdots, List.reverse_reverse]
    exact (reachFrom_dir_unique hagree hdotted hreach').symm

section Below

variable {base name : String} (dots : List String)
  (hbase : s.reachFrom true linkLimit (endsInSlash base) (startOf base s.cwd) (steps base) =
    .ok (.found dir (.dir entries))) (hname : isEntryName name = true)
  (hsteps : steps path = steps base ++ dots ++ [name]) (hdots : ∀ d ∈ dots, d = ".")
  (hstart : startOf path s.cwd = startOf base s.cwd) (hpath : ¬ Refused path)

include hbase hname hsteps hdots hstart hpath

/-- The name of a path whose directory is known. -/
theorem reachName_of_reachFrom :
    s.reachName path =
      if Overlong name then .error .nameTooLong
      else
        .ok (match entries.lookup name with
          | none => .missing (dir ++ [name])
          | some node => .found (dir ++ [name]) node) := by
  obtain ⟨-, hdot, hup⟩ := isEntryName_iff.1 hname
  have hplace := reachFrom_holds hbase fun _ => isStep_of_mem_steps
  obtain ⟨left, -, hleft⟩ := exists_reachFrom_append false false hbase hplace
    (List.append_ne_nil_of_right_ne_nil dots (List.cons_ne_nil name []))
  rw [reachName, if_neg hpath, hsteps, hstart, List.append_assoc, hleft, reachFrom, hplace]
  simp only [walk_dots hdots, walk, if_neg hdot, if_neg hup, Node.get?]
  by_cases hlong : Overlong name
  · rw [if_pos hlong, if_pos hlong]
  · rw [if_neg hlong, if_neg hlong]
    cases entries.lookup name with
    | none => simp [Node.isDir]
    | some n => cases n <;> simp

theorem locate_of_reachFrom (hshort : ¬ Overlong name) (hslash : endsInSlash path = false)
    (hnode : entries.lookup name = some node) (hlink : ∀ target, node ≠ .link target) :
    s.locate path = .ok (dir ++ [name], node) := by
  obtain ⟨-, hdot, hup⟩ := isEntryName_iff.1 hname
  rw [locate_eq_ok_iff, Store.reach, if_neg hpath, hsteps, hstart, hslash, List.append_assoc]
  refine reachFrom_append hbase (reachFrom_holds hbase fun _ => isStep_of_mem_steps) (by simp) ?_
  rw [walk_dots hdots, walk, if_neg hdot, if_neg hup, if_neg hshort]
  simp only [Node.get?, hnode]
  cases node with
  | file content executable => simp
  | link target => exact absurd rfl (hlink target)
  | dir entries => simp [walk]

end Below

/-- A path that the system takes, over names that it takes. -/
structure Fits (path : String) : Prop where
  taken : ¬ Refused path
  short : ∀ name ∈ steps path, ¬ Overlong name

instance (path : String) : Decidable (Fits path) :=
  decidable_of_iff (¬ Refused path ∧ ∀ name ∈ steps path, ¬ Overlong name)
    ⟨fun h => ⟨h.1, h.2⟩, fun h => ⟨h.taken, h.short⟩⟩

theorem Fits.name_join {base name : String} (h : Fits (Path.join base name)) (hname : IsStep name) :
    ¬ Overlong name :=
  h.short name (by simp [steps_join_name hname])

/-- A step that a walk has not taken, whatever it comes to. -/
def Walk.Leaves (x : String) : Walk → Prop
  | ended _ => False
  | refused _ => True
  | atLink _ _ rest => x ∈ rest

/-- No walk takes a step that is too long. -/
theorem walk_leaves {x : String} (toLast slash : Bool) (trail : Place) (node : Node)
    (hx : x ∈ xs) (hlong : Overlong x) : (s.walk toLast slash trail node xs).Leaves x := by
  have hlater : ∀ {step : String} {rest : List String}, ¬ Overlong step → x ∈ step :: rest →
      x ∈ rest := by
    intro step rest hshort hmem
    refine (List.mem_cons.1 hmem).resolve_left ?_
    rintro rfl
    exact hshort hlong
  induction xs generalizing trail node with
  | nil => cases hx
  | cons step xs ih =>
    rw [walk]
    split
    · next hdot => exact ih _ _ (hlater (hdot ▸ by decide) hx)
    split
    · next hup =>
      split
      · exact ih _ _ (hlater (hup ▸ by decide) hx)
      · trivial
    split
    · trivial
    next hshort =>
    have hrest := hlater hshort hx
    have hlast : xs.isEmpty = false := by
      cases xs with
      | nil => cases hrest
      | cons => rfl
    simp only [hlast, Bool.false_and, Bool.false_eq_true, if_false]
    split
    · trivial
    · exact ih _ _ hrest
    · trivial
    · exact hrest

theorem reachFrom_short (h : s.reachFrom toLast links slash start xs = .ok reach) :
    ∀ x ∈ xs, ¬ Overlong x := by
  intro x hx hlong
  fun_induction reachFrom s toLast links slash start xs with
  | case1 => cases h
  | case2 links slash start xs node hnode r hw =>
    have hleaves := walk_leaves (s := s) toLast slash start.reverse node hx hlong
    rw [hw] at hleaves
    exact hleaves
  | case3 => cases h
  | case4 => cases h
  | case5 => cases h
  | case6 slash start xs node hnode target dir rest hw links htarget ih =>
    have hleaves := walk_leaves (s := s) toLast slash start.reverse node hx hlong
    rw [hw] at hleaves
    exact ih h (List.mem_append_right _ hleaves)

theorem fits_of_reachName (h : s.reachName path = .ok reach) : Fits path := by
  unfold reachName at h
  split at h
  · cases h
  · next htaken => exact ⟨htaken, reachFrom_short h⟩

/-- A path that leads somewhere fits. -/
theorem fits_of_locate (h : s.locate path = .ok (place, node)) : Fits path := by
  have htaken := not_refused_of_locate h
  rw [locate_eq_ok_iff, Store.reach, if_neg htaken] at h
  exact ⟨htaken, reachFrom_short h⟩

/-- The entry of a directory that a joined name stands for. -/
theorem locate_join {base name : String} (hbase : s.locate base = .ok (dir, .dir entries))
    (hfits : Fits (Path.join base name)) (hnode : entries.lookup name = some node)
    (hlink : ∀ target, node ≠ .link target) :
    s.locate (Path.join base name) = .ok (dir ++ [name], node) := by
  have hname : isEntryName name = true :=
    (Node.Valid.get? s.valid_root (get?_of_locate hbase)).isEntryName hnode
  have hstep := isStep_of_isEntryName hname
  exact locate_of_reachFrom [] (reach_found_dir hbase).2 hname (by simp [steps_join_name hstep])
    (by simp) (startOf_join_name hstep base s.cwd) hfits.taken
    (hfits.name_join hstep) (endsInSlash_join_name hstep base) hnode hlink

end Store

end Autotree
