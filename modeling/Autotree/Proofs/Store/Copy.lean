import Autotree.Proofs.Store.Confined
import Autotree.Store.Copy

/-!
# Copying trees where no link stands

A copy changes nothing but what is below its target, apart from the directories on the way there
(`copyTree_confined`).  When it succeeds and the two trees are apart, the files below the target
are those of the source over those that were there (`overlaid_of_copyTree`): a copy adds and
replaces files, and removes none.  A tree that is copied onto itself is left with empty files
(`fileAt_of_copyTree_self`).
-/

namespace Autotree

namespace Store

/-! ## Files -/

/-- The file at a place, with its mode. -/
def fileAt (s : Store) (place : Place) : Option (ByteArray × Bool) :=
  match s.at? place with
  | some (.file content executable) => some (content, executable)
  | _ => none

/-- Places strictly below a place. -/
def Under (dir place : Place) : Prop :=
  ∃ name rest, place = dir ++ name :: rest

variable {T W : Place → Prop} {s t u : Store} {dir place q : Place} {name : String}
  {content : ByteArray} {executable : Bool}

theorem fileAt_of_at?_eq (h : t.at? q = s.at? q) : t.fileAt q = s.fileAt q := by
  rw [fileAt, fileAt, h]

theorem fileAt_eq_some_iff :
    s.fileAt q = some (content, executable) ↔ s.at? q = some (.file content executable) := by
  unfold fileAt
  split
  · next h => simp [h]
  · next h =>
    constructor
    · intro h'
      cases h'
    · intro h'
      exact absurd h' (h content executable)

theorem fileAt_of_dir (h : s.at? q = some .dir) : s.fileAt q = none := by
  rw [fileAt, h]

theorem fileAt_of_none (h : s.at? q = none) : s.fileAt q = none := by
  rw [fileAt, h]

/-- New directories are no files: outside the bounds of a change the files are the same. -/
theorem Confined.fileAt_eq (h : Confined T W s t) (hT : ¬ T q) : t.fileAt q = s.fileAt q := by
  rcases h.at?_or q with h | h | ⟨-, hnone, hdir⟩
  · exact fileAt_of_at?_eq h
  · exact absurd h hT
  · rw [fileAt_of_none hnone, fileAt_of_dir hdir]

theorem Under.of_concat (h : dir ++ [name] <+: q) : Under dir q := by
  obtain ⟨rest, rfl⟩ := h
  exact ⟨name, rest, by simp⟩

theorem not_under_self (dir : Place) : ¬ Under dir dir := by
  rintro ⟨name, rest, h⟩
  simpa using congrArg List.length h

/-- Places of which neither is above the other. -/
def Apart (p q : Place) : Prop :=
  ¬ p <+: q ∧ ¬ q <+: p

theorem Apart.symm {p q : Place} (h : Apart p q) : Apart q p :=
  ⟨h.2, h.1⟩

/-- What is below one of two places that are apart is not below the other. -/
theorem Apart.not_prefix_append {source target : Place} (h : Apart source target)
    (rest more : Place) : ¬ target ++ more <+: source ++ rest := by
  intro hpre
  have htarget : target <+: source ++ rest := (List.prefix_append target more).trans hpre
  have hsource : source <+: source ++ rest := List.prefix_append source rest
  rcases Nat.le_total source.length target.length with hle | hle
  · exact h.1 (List.prefix_of_prefix_length_le hsource htarget hle)
  · exact h.2 (List.prefix_of_prefix_length_le htarget hsource hle)

theorem Apart.append {source target : Place} (h : Apart source target) (rest more : Place) :
    Apart (source ++ rest) (target ++ more) :=
  ⟨h.symm.not_prefix_append more rest, h.not_prefix_append rest more⟩

/-! ## Copying one file -/

theorem exists_parent_of_file (h : s.get? place = some (.file content executable)) :
    ∃ dir name, place = dir ++ [name] ∧ isEntryName name = true ∧ s.at? dir = some .dir ∧
      s.at? place ≠ some .dir := by
  rcases List.eq_nil_or_concat place with rfl | ⟨dir, name, rfl⟩
  · cases h
  · rw [List.concat_eq_append] at h ⊢
    have hat := at?_eq_file_iff.2 h
    have habove := at?_eq_dir_of_below (List.cons_ne_nil name []) hat
    exact ⟨dir, name, rfl, isEntryName_of_at? hat, habove, by simp [hat]⟩

/-- Copying a file puts one at the place where the target is written, which was free or a file. -/
theorem copyFile_run {source target : String} (h : s.copyFile source target = .ok t) :
    ∃ place content executable reach dir name,
      s.locate source = .ok (place, .file content executable) ∧
      s.reachFile target = .ok reach ∧ reach.place = dir ++ [name] ∧ isEntryName name = true ∧
      s.at? dir = some .dir ∧
      (s.at? reach.place = none ∨ ∃ old mode, s.at? reach.place = some (.file old mode)) ∧
      t = s.putFile reach.place
        (if reach.place = place ∧ s.at? reach.place ≠ none then .empty else content)
        executable := by
  unfold copyFile at h
  split at h
  · cases h
  · next place content executable hsource =>
    split at h
    · cases h
    · next there old mode htarget =>
      cases h
      have hget : s.get? there = some (.file old mode) := reachFile_holds htarget
      have hat : s.at? there = some (.file old mode) := at?_eq_file_iff.2 hget
      obtain ⟨dir, name, hconcat, hname, hdir, -⟩ := exists_parent_of_file hget
      exact ⟨place, content, executable, _, dir, name, hsource, htarget, hconcat, hname, hdir,
        .inr ⟨old, mode, hat⟩, by simp [Reach.place, hat]⟩
    · cases h
    · next there htarget =>
      cases h
      obtain ⟨hnone, dir, name, hconcat, hname, hdir⟩ := reachFile_holds htarget
      have hat : s.at? there = none := at?_eq_none_iff.2 hnone
      exact ⟨place, content, executable, _, dir, name, hsource, htarget, hconcat, hname, hdir,
        .inl hat, by simp [Reach.place, hat]⟩
  · cases h

/-- Where no link stands, a file that was copied stands at the place of the target. -/
theorem copyFile_eq_ok {source target : String} (hfree : s.LinkFree)
    (h : s.copyFile source target = .ok t) :
    ∃ content executable dir name, s.at? (s.placeOf source) = some (.file content executable) ∧
      s.placeOf target = dir ++ [name] ∧ isEntryName name = true ∧ s.at? dir = some .dir ∧
      s.at? (s.placeOf target) ≠ some .dir ∧
      t = s.putFile (s.placeOf target)
        (if s.placeOf target = s.placeOf source ∧ s.at? (s.placeOf target) ≠ none then .empty
          else content) executable := by
  obtain ⟨place, content, executable, reach, dir, name, hsource, htarget, hconcat, hname, hdir,
    hold, rfl⟩ := copyFile_run h
  have hat := at?_eq_file_iff.2 (get?_placeOf_of_locate hfree hsource)
  have hne : s.at? reach.place ≠ some .dir := by
    rcases hold with hnone | ⟨old, mode, hfile⟩
    · simp [hnone]
    · simp [hfile]
  rw [reachFile_place hfree htarget] at hconcat hne ⊢
  rw [locate_place hfree hsource]
  exact ⟨content, executable, dir, name, hat, hconcat, hname, hdir, hne, rfl⟩

/-! ## Changes from stores without links -/

/-- A change that is confined when no link stands, seen from the directory `cwd`. -/
def Bounded (cwd : Place) (T W : Place → Prop) (s t : Store) : Prop :=
  s.LinkFree → s.cwd = cwd → Confined T W s t

variable {cwd : Place} {T' W' : Place → Prop}

theorem Bounded.refl (s : Store) : Bounded cwd T W s s :=
  fun _ _ => .refl s

theorem Bounded.trans (h : Bounded cwd T W s t) (h' : Bounded cwd T W t u) :
    Bounded cwd T W s u := by
  intro hfree hcwd
  have hst := h hfree hcwd
  exact hst.trans (h' (hst.linkFree hfree) (hst.cwd_eq.trans hcwd))

theorem Bounded.mono (h : Bounded cwd T W s t) (hT : ∀ q, T q → T' q)
    (hW : ∀ q, W q → W' q ∨ T' q) : Bounded cwd T' W' s t :=
  fun hfree hcwd => (h hfree hcwd).mono hT hW

end Store

namespace FileAction

open Store Stateful

variable {T W : Place → Prop} {s t u : Store} {cwd dir : Place} {name path source target : String}
  {levels : Nat} {entries : List (String × Node)}
  {copyDir : String → String → FileAction Unit}

theorem query_apply {α : Type} (context : String) (ask : Store → Except Errno α) (s : Store) :
    query context ask s = ((ask s).mapError fun e => .file context (.system e), s) := by
  unfold query
  cases ask s <;> simp only [*] <;> rfl

theorem list_eq_ok :
    list path s = (.ok entries, t) ↔
      t = s ∧ ∃ place, s.locate path = .ok (place, .dir entries) := by
  rw [list, query_apply, Store.list]
  constructor
  · intro h
    split at h
    · cases h
    · next hlocate =>
      cases h
      exact ⟨rfl, _, hlocate⟩
    · cases h
  · rintro ⟨rfl, place, hlocate⟩
    rw [hlocate]
    rfl

/-- The entries that a listing gives have distinct, proper names. -/
theorem valid_of_list (h : list path s = (.ok entries, t)) : (Node.dir entries).Valid := by
  obtain ⟨-, place, hlocate⟩ := list_eq_ok.1 h
  exact Node.Valid.get? s.valid_root (get?_of_locate hlocate)

/-! ## Where a copy writes -/

theorem keeps_makeDirs (hW : ∀ q, OnWay cwd path q → W q) :
    Keeps (Bounded cwd T W) (makeDirs path) := by
  intro s hfree hcwd
  refine (makeDirs_confined path s).mono (fun _ => id) fun q hq => .inl (hW q ?_)
  rw [← hcwd]
  exact hq hfree

theorem keeps_list (path : String) : Keeps (Bounded cwd T W) (list path) := by
  intro s
  rw [list, query_apply]
  exact .refl s

/-- Copying a file changes what stands at the place of the target only. -/
theorem keeps_copyFile (hT : T (placeIn cwd target)) :
    Keeps (Bounded cwd T W) (copyFile source target) := by
  intro s hfree hcwd
  unfold copyFile
  rw [get_bind]
  rcases hcopy : s.copyFile source target with (e | _) | t
  · exact .refl s
  · exact .refl s
  · obtain ⟨content, executable, dir, name, -, hplace, hname, hdir, hold, rfl⟩ :=
      copyFile_eq_ok hfree hcopy
    rw [placeOf_eq, hcwd] at hplace hold
    rw [hplace] at hold hT
    refine (?_ : Confined T W s (s.putFile (s.placeOf target) _ executable))
    rw [placeOf_eq, hcwd, hplace]
    exact putFile_confined hdir hname hold hT _ _

/-- How one entry is copied. -/
def copyEntry (copyDir : String → String → FileAction Unit) (source target : String)
    (entry : String × Node) : FileAction Unit :=
  if entry.2.isDir then copyDir (Path.join source entry.1) (Path.join target entry.1)
  else copyFile (Path.join source entry.1) (Path.join target entry.1)

theorem copyEntries_cons (entry : String × Node) (rest : List (String × Node)) :
    copyEntries copyDir source target (entry :: rest) =
      (copyEntry copyDir source target entry >>= fun _ =>
        copyEntries copyDir source target rest) := by
  rw [copyEntries, copyEntry]
  split <;> rfl

theorem keeps_copyEntry {entry : String × Node} (hname : isEntryName entry.1 = true)
    (hdir : ∀ source target, Keeps (Bounded cwd (Under (placeIn cwd target)) (OnWay cwd target))
      (copyDir source target)) :
    Keeps (Bounded cwd (placeIn cwd target ++ [entry.1] <+: ·) (OnWay cwd target))
      (copyEntry copyDir source target entry) := by
  have hplace := placeIn_join hname cwd target
  unfold copyEntry
  split
  · intro s
    refine (hdir _ (Path.join target entry.1) s).mono ?_ ?_
    · intro q hq
      obtain ⟨below, rest, rfl⟩ := hq
      rw [hplace]
      exact List.prefix_append _ _
    · intro q hq
      rcases onWay_join hname hq with hq | rfl
      · exact .inl hq
      · exact .inr (List.prefix_refl _)
  · exact keeps_copyFile (hplace ▸ List.prefix_refl _)

/-- Copying entries changes what is below the target only, if copying one directory does. -/
theorem keeps_copyEntries (hnames : ∀ entry ∈ entries, isEntryName entry.1 = true)
    (hdir : ∀ source target, Keeps (Bounded cwd (Under (placeIn cwd target)) (OnWay cwd target))
      (copyDir source target)) :
    Keeps (Bounded cwd (Under (placeIn cwd target)) (OnWay cwd target))
      (copyEntries copyDir source target entries) := by
  induction entries with
  | nil => exact Keeps.pure .refl _
  | cons entry rest ih =>
    have hrest := ih fun entry hentry => hnames entry (List.mem_cons_of_mem _ hentry)
    rw [copyEntries_cons]
    refine Keeps.bind Bounded.trans ?_ fun _ => hrest
    intro s
    exact (keeps_copyEntry (hnames entry List.mem_cons_self) hdir s).mono
      (fun _ => Under.of_concat) fun _ => .inl

/-- Copying what a listing gives changes what is below the target only, if copying one directory
does. -/
theorem keeps_listed (source : String)
    (hdir : ∀ source target, Keeps (Bounded cwd (Under (placeIn cwd target)) (OnWay cwd target))
      (copyDir source target)) :
    Keeps (Bounded cwd (Under (placeIn cwd target)) (OnWay cwd target))
      (list source >>= copyEntries copyDir source target) := by
  refine Keeps.bind_of_result Bounded.trans (keeps_list source) ?_
  intro s entries t hlist
  exact keeps_copyEntries (fun _ => (valid_of_list hlist).isEntryName_of_mem) hdir

/-- Where no link stands, copying a directory changes nothing but what is below the target, and
makes the directories that are missing on the way there. -/
theorem keeps_copyLevels (levels : Nat) (source target : String) :
    Keeps (Bounded cwd (Under (placeIn cwd target)) (OnWay cwd target))
      (copyLevels levels source target) := by
  induction levels generalizing source target with
  | zero => exact Keeps.throw .refl _
  | succ levels ih =>
    rw [copyLevels]
    refine Keeps.bind Bounded.trans (keeps_makeDirs fun _ => id) fun _ => ?_
    exact keeps_listed source ih

theorem keeps_copyTree (source target : String) :
    Keeps (Bounded cwd (Under (placeIn cwd target)) (OnWay cwd target)) (copyTree source target) :=
  Keeps.get_bind fun _ => keeps_copyLevels _ source target

/-- A copy without levels does not begin; any other fails to make its target, or makes it first. -/
theorem copyLevels_begins (cwd : Place) (levels : Nat) (source target : String) (s : Store) :
    (∃ e, copyLevels levels source target s = (.error e, s)) ∨
    (∃ e t, makeDirs target s = (.error e, t) ∧
      copyLevels levels source target s = (.error e, t)) ∨
    ∃ t, makeDirs target s = (.ok (), t) ∧
      Bounded cwd (Under (placeIn cwd target)) (OnWay cwd target) t
        (copyLevels levels source target s).2 := by
  cases levels with
  | zero => exact .inl ⟨_, rfl⟩
  | succ levels =>
    rw [copyLevels]
    rcases hmake : makeDirs target s with ⟨e | _, t⟩
    · exact .inr (.inl ⟨e, t, rfl, bind_error hmake⟩)
    · refine .inr (.inr ⟨t, rfl, ?_⟩)
      rw [bind_ok hmake]
      exact keeps_listed source (keeps_copyLevels levels) t

/-! ## What a copy leaves -/

/-- The files below `target` are those below `source`, over those that were below `target`. -/
def Overlaid (source target : Place) (s t : Store) : Prop :=
  ∀ q, t.fileAt (target ++ q) = (s.fileAt (source ++ q)).or (s.fileAt (target ++ q))

/-- What is left of a file that is copied onto itself. -/
def emptied (file : ByteArray × Bool) : ByteArray × Bool :=
  (.empty, file.2)

/-- The files below `target` are what `f` makes of those below `source`, over those that were below
`target`. -/
def OverlaidBy (f : ByteArray × Bool → ByteArray × Bool) (source target : Place) (s t : Store) :
    Prop :=
  ∀ q, t.fileAt (target ++ q) = ((s.fileAt (source ++ q)).map f).or (s.fileAt (target ++ q))

theorem overlaidBy_id {source target : Place} :
    OverlaidBy id source target s t ↔ Overlaid source target s t := by
  simp only [OverlaidBy, Overlaid, Option.map_id_fun, id_eq]

/-- What copying makes of files: the same ones in a place apart, empty ones in the same place. -/
def CopyMakes (f : ByteArray × Bool → ByteArray × Bool) (source target : Place) : Prop :=
  f = id ∧ Apart source target ∨ f = emptied ∧ source = target

variable {f : ByteArray × Bool → ByteArray × Bool}

theorem CopyMakes.append {source target : Place} (h : CopyMakes f source target) (name : String) :
    CopyMakes f (source ++ [name]) (target ++ [name]) := by
  rcases h with ⟨hf, hapart⟩ | ⟨hf, rfl⟩
  · exact .inl ⟨hf, hapart.append [name] [name]⟩
  · exact .inr ⟨hf, rfl⟩

/-- A copy to one name does not reach the source of another. -/
theorem CopyMakes.not_prefix {source target : Place} {other : String}
    (h : CopyMakes f source target) (hne : other ≠ name) (q : Place) :
    ¬ target ++ [name] <+: source ++ other :: q := by
  rcases h with ⟨-, hapart⟩ | ⟨-, rfl⟩
  · exact hapart.not_prefix_append _ _
  · intro hpre
    rw [List.prefix_append_right_inj] at hpre
    exact hne (List.cons_prefix_cons.1 hpre).1.symm

theorem copied_of_copyFile (h : copyFile source target s = (.ok (), t)) :
    s.copyFile source target = .ok t := by
  unfold copyFile at h
  rw [get_bind] at h
  rcases hcopy : s.copyFile source target with (e | _) | u
  · rw [hcopy] at h
    cases h
  · rw [hcopy] at h
    cases h
  · rw [hcopy] at h
    cases h
    rfl

theorem overlaidBy_of_copyFile (hfree : s.LinkFree)
    (hmakes : CopyMakes f (s.placeOf source) (s.placeOf target))
    (h : copyFile source target s = (.ok (), t)) :
    OverlaidBy f (s.placeOf source) (s.placeOf target) s t := by
  obtain ⟨content, executable, dir, name, hsource, hplace, hname, hdir, hold, rfl⟩ :=
    copyFile_eq_ok hfree (copied_of_copyFile h)
  have hnew : ((if s.placeOf target = s.placeOf source ∧ s.at? (s.placeOf target) ≠ none
      then ByteArray.empty else content), executable) = f (content, executable) := by
    rcases hmakes with ⟨rfl, hapart⟩ | ⟨rfl, heq⟩
    · have hne : s.placeOf target ≠ s.placeOf source := fun heq =>
        hapart.1 (heq ▸ List.prefix_refl _)
      rw [if_neg fun hboth => hne hboth.1, id_eq]
    · rw [if_pos ⟨heq.symm, by simp [← heq, hsource]⟩, emptied]
  generalize (if s.placeOf target = s.placeOf source ∧ s.at? (s.placeOf target) ≠ none
    then ByteArray.empty else content) = new at hnew ⊢
  rw [hplace] at hold ⊢
  have hat := at?_putFile hdir hname hold new executable
  intro q
  by_cases hq : q = []
  · subst hq
    rw [List.append_nil, List.append_nil, fileAt_eq_some_iff.2 hsource, Option.map_some, ← hnew,
      Option.some_or, fileAt_eq_some_iff, hat, if_pos rfl]
  · -- nothing is below a file
    have hbelow : s.at? (s.placeOf source ++ q) = none :=
      at?_append_eq_none hq (by simp [hsource])
    have hself : dir ++ [name] ++ q ≠ dir ++ [name] := fun heq => hq (by simpa using heq)
    rw [fileAt_of_none hbelow, Option.map_none, Option.none_or]
    exact fileAt_of_at?_eq (by rw [hat, if_neg hself])

/-- How a directory is copied, as far as copying the directory above it needs to know. -/
structure CopiesDirs (cwd : Place) (copyDir : String → String → FileAction Unit) : Prop where
  keeps : ∀ source target, Keeps (Bounded cwd (Under (placeIn cwd target)) (OnWay cwd target))
    (copyDir source target)
  overlaid : ∀ f source target s t, s.LinkFree → s.cwd = cwd →
    CopyMakes f (placeIn cwd source) (placeIn cwd target) →
    copyDir source target s = (.ok (), t) →
    OverlaidBy f (placeIn cwd source) (placeIn cwd target) s t

section Entries

variable {entry : String × Node} (hdirs : CopiesDirs cwd copyDir) (hfree : s.LinkFree)
  (hcwd : s.cwd = cwd) (hmakes : CopyMakes f (placeIn cwd source) (placeIn cwd target))

include hdirs hfree hcwd hmakes

theorem overlaidBy_of_copyEntry (hname : isEntryName entry.1 = true)
    (h : copyEntry copyDir source target entry s = (.ok (), t)) :
    OverlaidBy f (placeIn cwd source ++ [entry.1]) (placeIn cwd target ++ [entry.1]) s t := by
  have hbelow := hmakes.append entry.1
  rw [← placeIn_join hname, ← placeIn_join hname] at hbelow ⊢
  unfold copyEntry at h
  split at h
  · exact hdirs.overlaid _ _ _ s t hfree hcwd hbelow h
  · subst hcwd
    exact overlaidBy_of_copyFile hfree hbelow h

/-- Copying the entries of a list overlays the trees of their names, and leaves alone what is not
below these. -/
theorem overlaidBy_of_copyEntries (hnames : ∀ entry ∈ entries, isEntryName entry.1 = true)
    (hnodup : (entries.map (·.1)).Nodup)
    (h : copyEntries copyDir source target entries s = (.ok (), t)) :
    (∀ entry ∈ entries,
      OverlaidBy f (placeIn cwd source ++ [entry.1]) (placeIn cwd target ++ [entry.1]) s t) ∧
    ∀ q, (∀ entry ∈ entries, ¬ placeIn cwd target ++ [entry.1] <+: q) →
      t.fileAt q = s.fileAt q := by
  induction entries generalizing s with
  | nil =>
    rw [copyEntries] at h
    cases h
    exact ⟨fun entry hentry => (nomatch hentry), fun q _ => rfl⟩
  | cons entry rest ih =>
    rw [copyEntries_cons] at h
    obtain ⟨⟨⟩, u, hfirst, hrest⟩ := bind_eq_ok.1 h
    have hname := hnames entry List.mem_cons_self
    obtain ⟨hnew, hnodup⟩ := List.nodup_cons.1 hnodup
    have hself := overlaidBy_of_copyEntry hdirs hfree hcwd hmakes hname hfirst
    -- the first copy reaches neither the sources of the other names nor their targets
    have hkeeps : Keeps (Bounded cwd (placeIn cwd target ++ [entry.1] <+: ·) (OnWay cwd target))
        (copyEntry copyDir source target entry) := keeps_copyEntry hname hdirs.keeps
    have hchange := hkeeps s hfree hcwd
    rw [hfirst] at hchange
    obtain ⟨hothers, hkept⟩ := ih (hchange.linkFree hfree) (hchange.cwd_eq.trans hcwd)
      (fun entry hentry => hnames entry (List.mem_cons_of_mem _ hentry)) hnodup hrest
    have hne : ∀ other ∈ rest, other.1 ≠ entry.1 := fun other hother heq =>
      hnew (List.mem_map.2 ⟨other, hother, heq⟩)
    refine ⟨?_, ?_⟩
    · intro other hother q
      rcases List.mem_cons.1 hother with rfl | hother
      · rw [hkept, hself q]
        intro another hanother hpre
        rw [List.append_assoc, List.prefix_append_right_inj] at hpre
        exact hne another hanother (List.cons_prefix_cons.1 hpre).1
      · have hsource : u.fileAt (placeIn cwd source ++ [other.1] ++ q) =
            s.fileAt (placeIn cwd source ++ [other.1] ++ q) := by
          rw [List.append_assoc]
          exact hchange.fileAt_eq (hmakes.not_prefix (hne other hother) q)
        rw [hothers other hother q, hsource]
        congr 1
        refine hchange.fileAt_eq fun hpre => ?_
        rw [List.append_assoc, List.prefix_append_right_inj] at hpre
        exact hne other hother (List.cons_prefix_cons.1 hpre).1.symm
    · intro q hq
      rw [hkept q fun other hother => hq other (List.mem_cons_of_mem _ hother)]
      exact hchange.fileAt_eq (hq entry List.mem_cons_self)

end Entries

/-- When the tree of each name in a directory overlays that of the same name in another, and the
others there stay, the first directory overlays the second. -/
theorem overlaidBy_of_names {source target : Place} (hdir : s.get? source = some (.dir entries))
    (hself : ∀ entry ∈ entries, OverlaidBy f (source ++ [entry.1]) (target ++ [entry.1]) s t)
    (hkept : ∀ q, (∀ entry ∈ entries, ¬ target ++ [entry.1] <+: q) → t.fileAt q = s.fileAt q) :
    OverlaidBy f source target s t := by
  intro q
  cases q with
  | nil =>
    rw [List.append_nil, List.append_nil, fileAt_of_dir (at?_eq_dir_iff.2 ⟨entries, hdir⟩),
      Option.map_none, Option.none_or]
    apply hkept _
    intro entry _ hpre
    have hlength := hpre.length_le
    rw [List.length_append, List.length_singleton] at hlength
    omega
  | cons name q =>
    have hsplit : ∀ p : Place, p ++ name :: q = p ++ [name] ++ q := fun p => by simp
    by_cases hname : name ∈ entries.map (·.1)
    · obtain ⟨entry, hentry, rfl⟩ := List.mem_map.1 hname
      rw [hsplit, hsplit, hself entry hentry q]
    · -- a name that the source does not have stays
      rw [fileAt_of_none (at?_eq_none_of_not_mem hdir hname q), Option.map_none, Option.none_or]
      refine hkept _ fun entry hentry hpre => hname (List.mem_map.2 ⟨entry, hentry, ?_⟩)
      rw [List.prefix_append_right_inj] at hpre
      exact (List.cons_prefix_cons.1 hpre).1

/-- A copy that succeeds made the target, listed the source and copied the entries. -/
theorem copyLevels_eq_ok (h : copyLevels levels source target s = (.ok (), t)) :
    ∃ below u place entries, levels = below + 1 ∧ makeDirs target s = (.ok (), u) ∧
      u.locate source = .ok (place, .dir entries) ∧
      copyEntries (copyLevels below) source target entries u = (.ok (), t) := by
  cases levels with
  | zero => cases h
  | succ below =>
    rw [copyLevels] at h
    obtain ⟨⟨⟩, u, hmake, hlevel⟩ := bind_eq_ok.1 h
    obtain ⟨entries, v, hlist, hcopy⟩ := bind_eq_ok.1 hlevel
    obtain ⟨rfl, place, hlocate⟩ := list_eq_ok.1 hlist
    exact ⟨below, v, place, entries, rfl, hmake, hlocate, hcopy⟩

/-- Where no link stands, a copy of a directory leaves the files of the source over those of the
target, and empty ones of a directory that is copied onto itself. -/
theorem copiesDirs_copyLevels (cwd : Place) (levels : Nat) :
    CopiesDirs cwd (copyLevels levels) := by
  induction levels with
  | zero => exact ⟨keeps_copyLevels 0, fun _ _ _ _ _ _ _ _ h => nomatch h⟩
  | succ levels ih =>
    refine ⟨keeps_copyLevels _, ?_⟩
    intro f source target s t hfree hcwd hmakes h
    obtain ⟨below, v, place, entries, hlevels, hmake, hlocate, hcopy⟩ := copyLevels_eq_ok h
    obtain rfl : levels = below := Nat.succ.inj hlevels
    have hmade : Confined (fun _ => False) (s.OnWayOf target) s v := by
      simpa only [hmake] using makeDirs_confined target s
    have hfree' := hmade.linkFree hfree
    have hcwd' := hmade.cwd_eq.trans hcwd
    have hentries := get?_placeOf_of_locate hfree' hlocate
    rw [placeOf_eq, hcwd'] at hentries
    have hvalid := Node.Valid.get? v.valid_root (get?_of_locate hlocate)
    obtain ⟨hself, hkept⟩ := overlaidBy_of_copyEntries ih hfree' hcwd' hmakes
      (fun _ => hvalid.isEntryName_of_mem) hvalid.nodup hcopy
    have hsame : ∀ q, v.fileAt q = s.fileAt q := fun q => hmade.fileAt_eq id
    have hover := overlaidBy_of_names hentries hself hkept
    intro q
    rw [← hsame (placeIn cwd source ++ q), ← hsame (placeIn cwd target ++ q)]
    exact hover q

theorem copyTree_apply (source target : String) (s : Store) :
    copyTree source target s = copyLevels (s.height + pathLimit) source target s := by
  unfold copyTree
  rw [get_bind]

theorem overlaidBy_of_copyTree (hfree : s.LinkFree)
    (hmakes : CopyMakes f (s.placeOf source) (s.placeOf target))
    (h : copyTree source target s = (.ok (), t)) :
    OverlaidBy f (s.placeOf source) (s.placeOf target) s t := by
  rw [copyTree_apply] at h
  exact (copiesDirs_copyLevels s.cwd _).overlaid f source target s t hfree rfl hmakes h

theorem overlaid_of_copyTree (hfree : s.LinkFree)
    (hapart : Apart (s.placeOf source) (s.placeOf target))
    (h : copyTree source target s = (.ok (), t)) :
    Overlaid (s.placeOf source) (s.placeOf target) s t :=
  overlaidBy_id.1 (overlaidBy_of_copyTree hfree (.inl ⟨rfl, hapart⟩) h)

/-- A tree that is copied onto itself has the same files as before, and they are empty. -/
theorem fileAt_of_copyTree_self (hfree : s.LinkFree)
    (hsame : s.placeOf source = s.placeOf target)
    (h : copyTree source target s = (.ok (), t)) (q : Place) :
    t.fileAt (s.placeOf target ++ q) = (s.fileAt (s.placeOf target ++ q)).map emptied := by
  rw [overlaidBy_of_copyTree hfree (.inr ⟨rfl, hsame⟩) h q, hsame]
  cases s.fileAt (s.placeOf target ++ q) <;> rfl

theorem copyTree_confined (hfree : s.LinkFree) (source target : String) :
    Confined (Under (s.placeOf target)) (OnWay s.cwd target) s (copyTree source target s).2 :=
  keeps_copyTree source target s hfree rfl

end FileAction

end Autotree
