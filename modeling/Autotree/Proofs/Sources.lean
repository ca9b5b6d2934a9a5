import Mathlib.Data.List.Nodup
import Mathlib.Data.List.Perm.Basic
import Autotree.Descriptor.Layout
import Autotree.Proofs.Action
import Autotree.Proofs.Path.Names
import Autotree.Proofs.Store.Copy
import Autotree.Proofs.Store.Joined
import Autotree.Proofs.Store.Tree
import Autotree.Proofs.Text.Raw

/-!
# What a scan finds

Where every link leads to a file and the path of every directory that is entered is taken by the
system, a scan is a function of the tree at the place scanned (`scan_eq`); a scan that succeeds
entered only such directories (`enterable_of_discover`).  Where no link stands, it gives the files
below whose names end in `.c`, without those in hidden directories (`mem_listed_iff`).  The bound on
its levels is never met.  So the layout of a build tree is a function of the tree at its source
directory (`discover_eq`, `discoverUnits_eq`).
-/

namespace Autotree

/-- The sources that a layout lists, those of the program and of all libraries. -/
def Layout.sources (layout : Layout) : List String :=
  layout.mainSources ++ layout.units.flatMap LibraryUnit.sources

namespace Sources

open Store Stateful

variable {s t : Store} {deep : Bool} {name base dir : String} {node n : Node}
  {p place : Place} {entries sub rest : List (String × Node)} {here : Ancestor}
  {ancestors : List Ancestor} {levels : Nat} {names : List String} {path : String}

/-! ## Names as they are shown -/

/-- All names on the way to a place are text. -/
def IsText (p : Place) : Prop :=
  ∀ name ∈ p, Text.isUnicode name = true

instance (p : Place) : Decidable (IsText p) :=
  inferInstanceAs (Decidable (∀ name ∈ p, Text.isUnicode name = true))

theorem map_shown_of_isText (h : IsText p) : p.map Text.shown = p := by
  rw [List.map_congr_left fun name hname => Text.shown_of_isUnicode (h name hname), List.map_id']

theorem isHidden_iff : isHidden name = true ↔ name.toList.head? = some '.' := by
  rw [isHidden, beq_iff_eq, Text.head?_shown_eq_dot]

theorem isHidden_eq (name : String) : isHidden name = (name.toList.head? == some '.') := by
  rw [Bool.eq_iff_iff, isHidden_iff, beq_iff_eq]

theorem isSource_iff : isSource name = true ↔ ['.', 'c'] <:+ name.toList := by
  have hends : ∀ c ∈ ['.', 'c'], Text.IsAscii c :=
    List.forall_mem_cons.2 ⟨by decide, List.forall_mem_singleton.2 (by decide)⟩
  rw [isSource, List.isSuffixOf_iff_suffix, Text.suffix_shown_iff hends]

theorem isSource_eq (name : String) : isSource name = ['.', 'c'].isSuffixOf name.toList := by
  rw [Bool.eq_iff_iff, isSource_iff, List.isSuffixOf_iff_suffix]

theorem isHidden_shown (name : String) : isHidden (Text.shown name) = isHidden name := by
  rw [Bool.eq_iff_iff, isHidden_iff, isHidden, beq_iff_eq]

/-- A name shows as one. -/
theorem isEntryName_shown (h : isEntryName name = true) : isEntryName (Text.shown name) = true := by
  obtain ⟨⟨-, hslash⟩, -, -⟩ := isEntryName_iff.1 h
  rcases Text.shown_eq_or_exists_foreign name with heq | ⟨c, hc, hforeign⟩
  · rwa [heq]
  have hdot : c ≠ '.' := hforeign.ne (by decide)
  refine isEntryName_iff.2 ⟨⟨?_, ?_⟩, ?_, ?_⟩
  · intro heq
    rw [heq] at hc
    cases hc
  · intro hmem
    exact (Text.mem_of_mem_shown hmem).elim hslash fun hforeign => hforeign.ne (by decide) rfl
  · intro heq
    rw [heq] at hc
    exact hdot (List.mem_singleton.1 hc)
  · intro heq
    rw [heq] at hc
    exact hdot (by simpa using hc)

/-! ## The sources of a tree -/

/-- Whether the names on a way are those of a source: the last one ends in `.c`, and none before it
begins with a dot. -/
def namesSource (p : Place) : Bool :=
  p.getLast?.any (['.', 'c'].isSuffixOf ·.toList) && p.dropLast.all (!·.toList.head? == some '.')

/-- Whether a scan gives a node, by its place below the directory scanned. -/
def isListed (deep : Bool) (e : Place × Node) : Bool :=
  !e.2.isDir && namesSource e.1 && (deep || e.1.dropLast.isEmpty)

/-- The places of the sources below a node, in listing order. -/
def listed (deep : Bool) (node : Node) : List Place :=
  (node.descendants.filter (isListed deep)).map (·.1)

theorem namesSource_iff : namesSource p = true ↔
    (∃ name ∈ p.getLast?, ['.', 'c'] <:+ name.toList) ∧
      ∀ name ∈ p.dropLast, name.toList.head? ≠ some '.' := by
  simp [namesSource, Option.any_eq_true]

theorem namesSource_eq (p : Place) :
    namesSource p = (p.getLast?.any isSource && p.dropLast.all (!isHidden ·)) := by
  rw [show isSource = (['.', 'c'].isSuffixOf ·.toList) from funext isSource_eq]
  simp only [namesSource, isHidden_eq]

theorem isListed_singleton (deep : Bool) (name : String) (node : Node) :
    isListed deep ([name], node) = (!node.isDir && isSource name) := by
  simp [isListed, namesSource_eq]

theorem namesSource_cons (hp : p ≠ []) :
    namesSource (name :: p) = (!isHidden name && namesSource p) := by
  obtain ⟨a, p, rfl⟩ := List.exists_cons_of_ne_nil hp
  simp only [namesSource_eq, List.getLast?_cons_cons, List.dropLast_cons_cons, List.all_cons]
  cases isHidden name <;> simp

theorem isListed_cons (deep : Bool) (name : String) (hp : p ≠ []) (n : Node) :
    isListed deep (name :: p, n) = (deep && !isHidden name && isListed true (p, n)) := by
  obtain ⟨a, p, rfl⟩ := List.exists_cons_of_ne_nil hp
  simp only [isListed, namesSource_cons, ne_eq, List.cons_ne_nil, not_false_eq_true,
    List.dropLast_cons_cons, List.isEmpty_cons, Bool.or_false, Bool.true_or, Bool.and_true]
  cases deep <;> cases isHidden name <;> simp

/-- The sources that one entry of a directory accounts for. -/
def listedEntry (deep : Bool) (name : String) (node : Node) : List Place :=
  (if isListed deep ([name], node) then [[name]] else []) ++
    if deep && !isHidden name then (listed true node).map (name :: ·) else []

theorem ne_nil_of_mem_descendants {e : Place × Node} (h : e ∈ node.descendants) : e.1 ≠ [] := by
  cases node with
  | file => cases h
  | link => cases h
  | dir entries => exact Node.ne_nil_of_mem_ofEntries h

theorem listed_dir_cons (deep : Bool) (name : String) (node : Node)
    (rest : List (String × Node)) :
    listed deep (.dir ((name, node) :: rest)) =
      listedEntry deep name node ++ listed deep (.dir rest) := by
  have hbelow : ((node.descendants.map fun e => (name :: e.1, e.2)).filter (isListed deep)).map
      (·.1) = if deep && !isHidden name then (listed true node).map (name :: ·) else [] := by
    have hkeep : ∀ e ∈ node.descendants, (isListed deep ∘ fun e => (name :: e.1, e.2)) e =
        (deep && !isHidden name && isListed true e) := fun e he =>
      isListed_cons deep name (ne_nil_of_mem_descendants he) e.2
    rw [List.filter_map, List.filter_congr hkeep]
    cases deep && !isHidden name with
    | false => simp
    | true => simp [listed, Function.comp_def]
  unfold listedEntry
  rw [← hbelow, listed, Node.descendants, Node.descendants.ofEntries, List.cons_append,
    List.filter_cons, List.filter_append]
  split <;> simp [listed, Node.descendants]

theorem listed_dir (deep : Bool) (entries : List (String × Node)) :
    listed deep (.dir entries) = entries.flatMap fun e => listedEntry deep e.1 e.2 := by
  induction entries with
  | nil => rfl
  | cons head rest ih => rw [listed_dir_cons, ih, List.flatMap_cons]

/-- A source at a place below a directory: a file that is none of a hidden directory. -/
def HasSource (s : Store) (dir p : Place) : Prop :=
  (s.fileAt (dir ++ p)).isSome ∧ namesSource p = true

theorem isEmpty_dropLast_iff (hp : p ≠ []) : p.dropLast.isEmpty = true ↔ p.length = 1 := by
  have hpos := List.length_pos_iff.2 hp
  rw [List.isEmpty_iff_length_eq_zero, List.length_dropLast]
  omega

/-- What is listed at a depth is what is listed at every depth, as far as it goes. -/
theorem mem_listed_depth :
    p ∈ listed deep node ↔ p ∈ listed true node ∧ (deep = true ∨ p.length = 1) := by
  unfold listed
  simp only [List.mem_map, List.mem_filter, isListed, Bool.true_or, Bool.and_true]
  constructor
  · rintro ⟨⟨p, n⟩, ⟨hmem, hlisted⟩, rfl⟩
    obtain ⟨hlisted, hdepth⟩ := Bool.and_eq_true_iff.1 hlisted
    exact ⟨⟨(p, n), ⟨hmem, hlisted⟩, rfl⟩, (Bool.or_eq_true_iff.1 hdepth).imp_right
      (isEmpty_dropLast_iff (ne_nil_of_mem_descendants hmem)).1⟩
  · rintro ⟨⟨⟨p, n⟩, ⟨hmem, hlisted⟩, rfl⟩, hdepth⟩
    exact ⟨(p, n), ⟨hmem, Bool.and_eq_true_iff.2 ⟨hlisted, Bool.or_eq_true_iff.2
      (hdepth.imp_right (isEmpty_dropLast_iff (ne_nil_of_mem_descendants hmem)).2)⟩⟩, rfl⟩

/-- What is listed is no directory, and its names are those of a source. -/
theorem mem_listed_iff_at? (h : s.get? place = some (.dir entries)) :
    p ∈ listed true (.dir entries) ↔
      (s.at? (place ++ p)).map Item.isDir = some false ∧ namesSource p = true := by
  have hv := Node.Valid.get? s.valid_root h
  have hget : s.get? (place ++ p) = (Node.dir entries).get? p := by
    rw [Store.get?_append, h, Option.bind_some]
  have hmem : p ∈ listed true (.dir entries) ↔
      ∃ n, (p, n) ∈ (Node.dir entries).descendants ∧ isListed true (p, n) = true := by
    unfold listed
    constructor
    · intro hp
      obtain ⟨⟨p', n⟩, hfilter, rfl⟩ := List.mem_map.1 hp
      exact ⟨n, List.mem_filter.1 hfilter⟩
    · rintro ⟨n, hn⟩
      exact List.mem_map.2 ⟨(p, n), List.mem_filter.2 hn, rfl⟩
  have hitem : ∀ n : Node, (n.item.isDir = false) = (n.isDir = false) := fun n => by
    rw [Node.isDir_item]
  rw [hmem, at?, hget, Option.map_map]
  simp only [Option.map_eq_some_iff, Function.comp_apply, hitem]
  constructor
  · rintro ⟨n, hn, hlisted⟩
    obtain ⟨-, hn⟩ := (Node.mem_descendants hv).1 hn
    simp only [isListed, Bool.true_or, Bool.and_true, Bool.and_eq_true, Bool.not_eq_true']
      at hlisted
    exact ⟨⟨n, hn, hlisted.1⟩, hlisted.2⟩
  · rintro ⟨⟨n, hn, hdir⟩, hnames⟩
    refine ⟨n, (Node.mem_descendants hv).2 ⟨?_, hn⟩, by simp [isListed, hdir, hnames]⟩
    rintro rfl
    cases hn
    cases hdir

theorem mem_listed_iff (hfree : (Node.dir entries).LinkFree)
    (h : s.get? place = some (.dir entries)) :
    p ∈ listed true (.dir entries) ↔ HasSource s place p := by
  rw [mem_listed_iff_at? h]
  refine and_congr_left' ?_
  -- without links only files are no directories
  have hget : s.get? (place ++ p) = (Node.dir entries).get? p := by
    rw [Store.get?_append, h, Option.bind_some]
  cases hat : s.at? (place ++ p) with
  | none => simp [fileAt_of_none hat]
  | some item =>
    cases item with
    | file content executable => simp [fileAt_eq_some_iff.2 hat, Item.isDir]
    | link target => exact absurd (hget.symm.trans (at?_eq_link_iff.1 hat)) (hfree p target)
    | dir => simp [fileAt_of_dir hat, Item.isDir]

/-! ## Links to files -/

/-- Every link below a node leads to a file, where a path leads to the node. -/
def LinksToFiles (s : Store) (path : String) (node : Node) : Prop :=
  ∀ p target, node.get? p = some (.link target) → s.isFile (p.foldl Path.join path) = true

theorem linksToFiles_of_linkFree (h : node.LinkFree) : LinksToFiles s path node :=
  fun p target hlink => absurd hlink (h p target)

theorem LinksToFiles.of_mem {e : String × Node} (hv : (Node.dir entries).Valid)
    (h : LinksToFiles s path (.dir entries)) (he : e ∈ entries) :
    LinksToFiles s (Path.join path e.1) e.2 := by
  intro p target hlink
  refine h (e.1 :: p) target ?_
  rw [Node.get?, lookup_of_mem hv.nodup he, Option.bind_some, hlink]

theorem followEntry_link (h : s.isFile path = true) (ancestors : List Ancestor) (place : Place)
    (target : String) :
    ∃ there content executable, followEntry s ancestors place path (.link target) =
      .ok (there, .file content executable) := by
  obtain ⟨there, content, executable, hlocate⟩ := isFile_eq_true_iff.1 h
  have hnone : ancestors.find? (fun a => (Node.file content executable).isDir &&
      a.place == there) = none := List.find?_eq_none.2 fun a _ => by simp [Node.isDir]
  refine ⟨there, content, executable, ?_⟩
  simp only [followEntry, hlocate, hnone]

/-! ## Directories entered -/

/-- The directories that a deep scan enters, by their places below the one scanned. -/
inductive Enters : List (String × Node) → Place → Prop where
  | top (entries : List (String × Node)) : Enters entries []
  | entry {entries sub : List (String × Node)} {name : String} {p : Place}
      (hmem : (name, .dir sub) ∈ entries) (hvisible : isHidden name = false) (h : Enters sub p) :
      Enters entries (name :: p)

/-- The system takes the path of every directory that a scan enters. -/
def Enterable (deep : Bool) (path : String) (entries : List (String × Node)) : Prop :=
  ∀ p, Enters entries p → deep = true ∨ p = [] → ¬ Refused (p.foldl Path.join path)

theorem Enterable.of_mem (h : Enterable true path entries) (hmem : (name, .dir sub) ∈ entries)
    (hvisible : isHidden name = false) : Enterable true (Path.join path name) sub :=
  fun p hp _ => h (name :: p) (.entry hmem hvisible hp) (.inl rfl)

/-- What is entered is a directory below the one scanned. -/
theorem Enters.mem_descendants (h : Enters entries p) (hp : p ≠ []) :
    ∃ sub, (p, .dir sub) ∈ (Node.dir entries).descendants := by
  induction h with
  | top => exact absurd rfl hp
  | @entry entries sub name p hmem _ h ih =>
    by_cases hbelow : p = []
    · exact ⟨sub, Node.mem_descendants_ofEntries.2 ⟨_, hmem, .inl ⟨hbelow, rfl⟩⟩⟩
    · obtain ⟨last, hlast⟩ := ih hbelow
      exact ⟨last, Node.mem_descendants_ofEntries.2 ⟨_, hmem, .inr hlast⟩⟩

theorem enterable_of_forall (hpath : ¬ Refused path)
    (h : ∀ e ∈ (Node.dir entries).descendants, ¬ Refused (e.1.foldl Path.join path)) :
    Enterable deep path entries := by
  intro p hp _
  by_cases hnil : p = []
  · rwa [hnil]
  · obtain ⟨sub, hmem⟩ := hp.mem_descendants hnil
    exact h _ hmem

/-- A scan of the directory alone enters no other. -/
theorem enterable_false (h : ¬ Refused path) : Enterable false path entries := by
  rintro p - (hdeep | rfl)
  · cases hdeep
  · exact h

theorem exists_of_bind_eq_ok {ε α β : Type} {x : Except ε α} {f : α → Except ε β} {b : β}
    (h : x >>= f = .ok b) : ∃ a, x = .ok a ∧ f a = .ok b := by
  cases x with
  | error e => cases h
  | ok a => exact ⟨a, rfl, h⟩

/-- A scan of entries that succeeds scanned every directory among them that it enters. -/
theorem scanDir_of_scanEntries
    {scanDir : List Ancestor → List (String × Node) → Except ScanCause (List String)}
    {paths : List String} (h : scanEntries s scanDir true here ancestors entries = .ok paths)
    (hmem : (name, .dir sub) ∈ entries) (hvisible : isHidden name = false) :
    ∃ below, scanDir (⟨here.place ++ [name], Path.join here.path name⟩ :: here :: ancestors) sub =
      .ok below := by
  induction entries generalizing paths with
  | nil => cases hmem
  | cons head rest ih =>
    obtain ⟨other, node⟩ := head
    rcases List.mem_cons.1 hmem with heq | hmem
    · cases heq
      rw [scanEntries] at h
      obtain ⟨found, hfollow, h⟩ := exists_of_bind_eq_ok h
      cases hfollow
      simp only [hvisible, Bool.not_false, Bool.and_self, if_true] at h
      obtain ⟨below, hbelow, -⟩ := exists_of_bind_eq_ok h
      exact ⟨below, hbelow⟩
    · rw [scanEntries] at h
      obtain ⟨⟨there, found⟩, -, h⟩ := exists_of_bind_eq_ok h
      -- whatever the entry is, the others are scanned after it
      have hothers : ∃ others, scanEntries s scanDir true here ancestors rest = .ok others := by
        dsimp only at h
        split at h
        · split at h <;>
            obtain ⟨found, -, h⟩ := exists_of_bind_eq_ok h <;>
            obtain ⟨others, hothers, -⟩ := exists_of_bind_eq_ok h <;>
            exact ⟨others, hothers⟩
        · obtain ⟨found, -, h⟩ := exists_of_bind_eq_ok h
          obtain ⟨others, hothers, -⟩ := exists_of_bind_eq_ok h
          exact ⟨others, hothers⟩
      obtain ⟨others, hothers⟩ := hothers
      exact ih hothers hmem

theorem enterable_of_scanLevels {paths : List String}
    (h : scanLevels s deep levels (here :: ancestors) entries = .ok paths) :
    Enterable deep here.path entries := by
  induction levels generalizing entries here ancestors paths with
  | zero => cases h
  | succ levels ih =>
    rw [scanLevels] at h
    split at h
    · cases h
    next hpath =>
    intro p hp hdepth
    cases hp with
    | top => exact hpath
    | entry hmem hvisible hp =>
      obtain rfl := hdepth.resolve_right nofun
      obtain ⟨below, hbelow⟩ := scanDir_of_scanEntries h hmem hvisible
      exact ih hbelow _ hp (.inl rfl)

/-! ## Scans -/

/-- What one entry contributes to a scan, where the scan of a directory gives its sources. -/
theorem scanEntries_cons
    {scanDir : List Ancestor → List (String × Node) → Except ScanCause (List String)}
    (hlink : LinksToFiles s (Path.join here.path name) node)
    (hdir : ∀ sub ancestors, node = .dir sub → deep = true → isHidden name = false →
      scanDir (⟨here.place ++ [name], Path.join here.path name⟩ :: ancestors) sub =
        .ok ((listed true node).map fun p => p.foldl Path.join (Path.join here.path name)))
    (hrest : scanEntries s scanDir deep here ancestors rest =
      .ok ((listed deep (.dir rest)).map fun p => p.foldl Path.join here.path)) :
    scanEntries s scanDir deep here ancestors ((name, node) :: rest) =
      .ok ((listed deep (.dir ((name, node) :: rest))).map fun p =>
        p.foldl Path.join here.path) := by
  rw [scanEntries, listed_dir_cons, List.map_append, hrest, listedEntry, isListed_singleton]
  cases node with
  | link target =>
    have hnone : listed true (.link target) = [] := rfl
    obtain ⟨there, content, executable, hfollow⟩ := followEntry_link
      (hlink [] target (Node.get?_nil _)) (here :: ancestors) (here.place ++ [name]) target
    rw [List.foldl_nil] at hfollow
    simp only [bind, Except.bind, hfollow, Node.isDir, Bool.not_false, Bool.true_and, hnone,
      List.map_nil, ite_self, List.append_nil]
    cases isSource name <;> rfl
  | file content executable =>
    have hnone : listed true (.file content executable) = [] := rfl
    simp only [followEntry, Node.isDir, Bool.not_false, Bool.true_and, hnone, List.map_nil,
      ite_self, List.append_nil]
    cases isSource name <;> rfl
  | dir sub =>
    simp only [followEntry, Node.isDir, Bool.not_true, Bool.false_and, Bool.false_eq_true, if_false,
      List.nil_append]
    cases hdeep : deep && !isHidden name with
    | false => rfl
    | true =>
      obtain ⟨htrue, hvisible⟩ := Bool.and_eq_true_iff.1 hdeep
      rw [Bool.not_eq_true'] at hvisible
      simp only [if_true, List.map_map]
      simp only [bind, Except.bind, hdir sub (here :: ancestors) rfl htrue hvisible]
      rfl

/-- A scan of a tree whose links lead to files gives the sources of the tree. -/
theorem scanLevels_eq (hv : (Node.dir entries).Valid)
    (hlinks : LinksToFiles s here.path (.dir entries))
    (henter : Enterable deep here.path entries) (hlevels : (Node.dir entries).height ≤ levels) :
    scanLevels s deep levels (here :: ancestors) entries =
      .ok ((listed deep (.dir entries)).map fun p => p.foldl Path.join here.path) := by
  induction levels generalizing entries here ancestors with
  | zero => exact absurd hlevels (by simp [Node.height])
  | succ levels ih =>
    have hbelow : ∀ e ∈ entries, LinksToFiles s (Path.join here.path e.1) e.2 ∧
        ∀ sub ancestors, e.2 = .dir sub → deep = true → isHidden e.1 = false →
          scanLevels s deep levels
            (⟨here.place ++ [e.1], Path.join here.path e.1⟩ :: ancestors) sub =
              .ok ((listed true e.2).map fun p => p.foldl Path.join (Path.join here.path e.1)) := by
      rintro ⟨name, node⟩ he
      refine ⟨hlinks.of_mem hv he, ?_⟩
      rintro sub ancestors rfl rfl hvisible
      have hheight : (Node.dir sub).height < (Node.dir entries).height := Node.height_lt_of_mem he
      exact ih (hv.of_mem he) (hlinks.of_mem hv he) (henter.of_mem he hvisible) (by omega)
    have hpath : ¬ Refused here.path := henter [] (.top entries) (.inr rfl)
    rw [scanLevels, if_neg hpath]
    -- one level is scanned entry by entry; the levels below it are known now
    clear hlevels hlinks hv henter hpath ih
    induction entries with
    | nil => rfl
    | cons head rest ih =>
      obtain ⟨hlink, hdir⟩ := hbelow head List.mem_cons_self
      exact scanEntries_cons hlink hdir (ih fun e he => hbelow e (List.mem_cons_of_mem _ he))

theorem height_le_levelBound (s : Store) : s.height ≤ levelBound s := by
  unfold levelBound
  have hle : 1 * (s.height + 1) ≤ (s.root.descendants.length + 2) * (s.height + 1) :=
    Nat.mul_le_mul_right _ (by omega)
  omega

/-- Where every link leads to a file, a scan gives the sources of the tree at its directory. -/
theorem scan_eq (hlinks : LinksToFiles s dir (.dir entries)) (henter : Enterable deep dir entries)
    (h : s.locate dir = .ok (place, .dir entries)) :
    scan s deep dir = .ok ((listed deep (.dir entries)).map fun p => p.foldl Path.join dir) := by
  have hget := get?_of_locate h
  rw [scan, h]
  exact scanLevels_eq (Node.Valid.get? s.valid_root hget) hlinks henter
    (Nat.le_trans (Node.height_le_of_get? hget) (height_le_levelBound s))

/-! ## Discovery -/

/-- The path that discovery gives of what is below a directory, by the names of the directory and
the place there. -/
def relativeName (names : List String) (p : Place) : String :=
  "/".intercalate ((names ++ p).map Text.shown)

/-- The path of a source relative to the build tree, by its place in the source directory. -/
def sourceName (p : Place) : String :=
  relativeName [Layout.sourceDir] p

/-- Discovery gives the names of its directory before those of the sources. -/
theorem discover_eq (hdir : Path.components dir = names.map .name)
    (hlinks : LinksToFiles s (Path.join base dir) (.dir entries))
    (henter : Enterable deep (Path.join base dir) entries)
    (h : s.locate (Path.join base dir) = .ok (place, .dir entries)) :
    discover base dir deep s =
      (.ok ((listed deep (.dir entries)).map (relativeName names)), s) := by
  have hv := Node.Valid.get? s.valid_root (get?_of_locate h)
  unfold discover
  rw [get_bind, scan_eq hlinks henter h]
  have hmap : ∀ p ∈ listed deep (.dir entries),
      relativePath base (p.foldl Path.join (Path.join base dir)) = relativeName names p := by
    intro p hp
    obtain ⟨e, he, rfl⟩ := List.mem_map.1 hp
    obtain ⟨-, hget⟩ := (Node.mem_descendants hv).1 (List.mem_filter.1 he).1
    rw [relativePath, relativeName, Path.namesBelow_of_components]
    rw [Path.components_foldl_join (hv.isEntryName_of_get? hget),
      Path.components_join_names hdir, List.append_assoc, List.map_append]
  simp only [pure_apply, List.map_map, Function.comp_def]
  rw [List.map_congr_left hmap]

theorem isEntryName_sourceDir : isEntryName Layout.sourceDir = true := by decide

theorem components_sourceDir : Path.components Layout.sourceDir = [Layout.sourceDir].map .name :=
  Path.components_name isEntryName_sourceDir

/-- Discovery in the source directory gives the sources of the tree there. -/
theorem discover_sourceDir_eq (hfree : (Node.dir entries).LinkFree)
    (henter : Enterable deep (Path.join base Layout.sourceDir) entries)
    (h : s.locate (Path.join base Layout.sourceDir) = .ok (place, .dir entries)) :
    discover base Layout.sourceDir deep s =
      (.ok ((listed deep (.dir entries)).map sourceName), s) :=
  discover_eq components_sourceDir (linksToFiles_of_linkFree hfree) henter h

/-- Discovery that succeeds found something at its directory, and entered what it could enter. -/
theorem enterable_of_discover {sources : List String}
    (h : discover base dir deep s = (.ok sources, t)) :
    t = s ∧ ∃ place node, s.locate (Path.join base dir) = .ok (place, node) ∧
      ∀ entries, node = .dir entries → Enterable deep (Path.join base dir) entries := by
  unfold discover at h
  rw [get_bind] at h
  cases hscan : scan s deep (Path.join base dir) with
  | error cause =>
    rw [hscan] at h
    cases h
  | ok paths =>
    rw [hscan] at h
    cases h
    refine ⟨rfl, ?_⟩
    unfold scan at hscan
    cases hlocate : s.locate (Path.join base dir) with
    | error e =>
      rw [hlocate] at hscan
      cases hscan
    | ok found =>
      obtain ⟨place, node⟩ := found
      refine ⟨place, node, rfl, ?_⟩
      rintro entries rfl
      rw [hlocate] at hscan
      exact enterable_of_scanLevels hscan

theorem keeps_discover (base dir : String) (deep : Bool) :
    Keeps Eq (discover base dir deep) := by
  apply Keeps.get_bind
  intro s
  split
  · exact Keeps.pure Eq.refl _
  · exact Keeps.throw Eq.refl _

/-! ## Libraries -/

/-- Whether an entry of the source directory is a library. -/
def isLibrary (e : String × Node) : Bool :=
  !isHidden e.1 && e.2.isDir

/-- The library that an entry of the source directory is. -/
def unitOf (e : String × Node) : LibraryUnit :=
  ⟨e.1, (listed true e.2).map fun p => sourceName (e.1 :: p)⟩

/-- The names of the libraries are text, and their paths are taken by the system. -/
def LibrariesFit (path : String) (entries : List (String × Node)) : Prop :=
  ∀ e ∈ entries, isLibrary e = true → Text.isUnicode e.1 = true ∧ Fits (Path.join path e.1)

/-- A path with the name of a directory leads to it if it fits, and one with that of another entry
to no directory. -/
theorem isDir_entry (h : s.locate dir = .ok (place, .dir entries)) (hmem : (name, node) ∈ entries)
    (hlink : ∀ target, node ≠ .link target)
    (hfits : node.isDir = true → Fits (Path.join dir name)) :
    s.isDir (Path.join dir name) = node.isDir := by
  have hv := Node.Valid.get? s.valid_root (get?_of_locate h)
  have hlookup := lookup_of_mem hv.nodup hmem
  by_cases hpath : Fits (Path.join dir name)
  · rw [isDir, locate_join h hpath hlookup hlink]
  · rw [eq_false_of_ne_true fun hdir => hpath (hfits hdir)]
    refine eq_false_of_ne_true fun hdir => hpath ?_
    obtain ⟨there, sub, hlocate⟩ := isDir_eq_true_iff.1 hdir
    exact fits_of_locate hlocate

theorem libraryNames_apply (h : s.locate dir = .ok (place, .dir entries)) :
    libraryNames dir s = (.ok (((entries.map (·.1)).filter fun name =>
      !isHidden name && s.isDir (Path.join dir name)).map Text.shown), s) := by
  have hlist : FileAction.list dir s = (.ok entries, s) :=
    FileAction.list_eq_ok.2 ⟨rfl, place, h⟩
  unfold libraryNames
  rw [bind_ok hlist, get_bind, pure_apply]

theorem libraryNames_eq (h : s.locate dir = .ok (place, .dir entries))
    (hfree : (Node.dir entries).LinkFree) (hfits : LibrariesFit dir entries) :
    libraryNames dir s = (.ok ((entries.filter isLibrary).map (·.1)), s) := by
  have hv := Node.Valid.get? s.valid_root (get?_of_locate h)
  have hkeep : ∀ e ∈ entries, ((fun name => !isHidden name && s.isDir (Path.join dir name)) ∘
      fun e : String × Node => e.1) e = isLibrary e := by
    rintro ⟨name, node⟩ he
    rw [Function.comp_apply, isLibrary]
    by_cases hhidden : isHidden name = true
    · simp [hhidden]
    · have hlibrary : node.isDir = true → isLibrary (name, node) = true := fun hdir => by
        simp [isLibrary, hhidden, hdir]
      have hlink : ∀ target, node ≠ .link target := fun target heq =>
        hfree.of_mem hv he [] target (by rw [heq, Node.get?_nil])
      rw [isDir_entry h he hlink fun hdir => (hfits _ he (hlibrary hdir)).2]
  rw [libraryNames_apply h, List.filter_map, List.filter_congr hkeep, List.map_map]
  have hshown : ∀ e ∈ entries.filter isLibrary, Text.shown e.1 = e.1 := fun e he =>
    Text.shown_of_isUnicode (hfits e (List.mem_filter.1 he).1 (List.mem_filter.1 he).2).1
  exact congrArg (fun names => (Except.ok names, s)) (List.map_congr_left hshown)

/-- The directory of a library by its path. -/
theorem join_unit (h : isEntryName name = true) (base : String) :
    Path.components ("src/" ++ name) = [Layout.sourceDir, name].map .name ∧
      Path.join base ("src/" ++ name) = Path.join (Path.join base Layout.sourceDir) name := by
  have hslash := Path.join_slash isEntryName_sourceDir
    (isAbsolute_eq_false (isStep_of_isEntryName h).2)
  refine ⟨?_, hslash base⟩
  have hjoin : "src/" ++ name = Path.join Layout.sourceDir name := by
    simpa [Path.join, Layout.sourceDir] using hslash ""
  rw [hjoin, Path.components_join h, components_sourceDir]
  rfl

theorem relativeName_unit (name : String) (p : Place) :
    relativeName [Layout.sourceDir, name] p = sourceName (name :: p) := rfl

/-- The libraries of a build tree are the directories in its source directory. -/
theorem discoverUnits_eq (hfree : (Node.dir entries).LinkFree)
    (henter : Enterable true (Path.join base Layout.sourceDir) entries)
    (hfits : LibrariesFit (Path.join base Layout.sourceDir) entries)
    (h : s.locate (Path.join base Layout.sourceDir) = .ok (place, .dir entries)) :
    discoverUnits base s = (.ok ((entries.filter isLibrary).map unitOf), s) := by
  have hv := Node.Valid.get? s.valid_root (get?_of_locate h)
  unfold discoverUnits
  refine (bind_ok (libraryNames_eq h hfree hfits)).trans (mapM_apply ?_)
  intro e he
  obtain ⟨hmem, hlibrary⟩ := List.mem_filter.1 he
  obtain ⟨name, node⟩ := e
  cases node with
  | file => simp [isLibrary, Node.isDir] at hlibrary
  | link => simp [isLibrary, Node.isDir] at hlibrary
  | dir sub =>
    obtain ⟨hdir, hjoin⟩ := join_unit (hv.isEntryName_of_mem hmem) base
    have hvisible : isHidden name = false := by simpa [isLibrary, Node.isDir] using hlibrary
    have hlocate :
        s.locate (Path.join base ("src/" ++ name)) = .ok (place ++ [name], .dir sub) := by
      rw [hjoin]
      exact locate_join h (hfits _ hmem hlibrary).2 (lookup_of_mem hv.nodup hmem)
        fun _ => Node.noConfusion
    have hsub : (Node.dir sub).LinkFree := hfree.of_mem hv hmem
    have hentersub : Enterable true (Path.join base ("src/" ++ name)) sub :=
      hjoin ▸ henter.of_mem hmem hvisible
    rw [bind_ok (discover_eq hdir (linksToFiles_of_linkFree hsub) hentersub hlocate)]
    rfl

/-- The layout of a build tree with the given entries in its source directory. -/
def layoutOf (entries : List (String × Node)) : Layout :=
  ⟨(listed false (.dir entries)).map sourceName, (entries.filter isLibrary).map unitOf⟩

/-! ## All sources of a layout -/

/-- The sources of the library that an entry of a directory is, if it is one. -/
def libraryEntry (e : String × Node) : List Place :=
  if isLibrary e then (listed true e.2).map (e.1 :: ·) else []

theorem listed_of_not_isDir (h : node.isDir = false) : listed true node = [] := by
  cases node with
  | dir => cases h
  | _ => rfl

theorem listedEntry_true (e : String × Node) :
    listedEntry true e.1 e.2 = listedEntry false e.1 e.2 ++ libraryEntry e := by
  obtain ⟨name, node⟩ := e
  simp only [listedEntry, isListed_singleton, libraryEntry, isLibrary, Bool.true_and,
    Bool.false_and, Bool.false_eq_true, if_false, List.append_nil]
  congr 1
  by_cases hdir : node.isDir = true
  · simp [hdir]
  · simp [hdir, listed_of_not_isDir (eq_false_of_ne_true hdir)]

/-- The sources at every depth are those of the program and those of the libraries. -/
theorem listed_perm (entries : List (String × Node)) :
    (listed false (.dir entries) ++ entries.flatMap libraryEntry).Perm
      (listed true (.dir entries)) := by
  rw [listed_dir, listed_dir]
  refine (List.flatMap_append_perm _ _ _).trans (.of_eq ?_)
  exact List.flatMap_congr fun e _ => (listedEntry_true e).symm

theorem flatMap_libraryEntry (entries : List (String × Node)) :
    entries.flatMap libraryEntry =
      (entries.filter isLibrary).flatMap fun e => (listed true e.2).map (e.1 :: ·) := by
  induction entries with
  | nil => rfl
  | cons e entries ih =>
    rw [List.flatMap_cons, ih, List.filter_cons, libraryEntry]
    split <;> rfl

theorem sources_layoutOf (entries : List (String × Node)) :
    (layoutOf entries).sources =
      (listed false (.dir entries) ++ entries.flatMap libraryEntry).map sourceName := by
  rw [Layout.sources, layoutOf, List.map_append, flatMap_libraryEntry, List.map_flatMap,
    List.flatMap_map]
  simp [unitOf, Function.comp_def]

/-- The name of a source tells how the names on its way are shown. -/
theorem map_shown_of_relativeName {q : Place} (hnames : ∀ name ∈ names, isEntryName name = true)
    (hp : ∀ name ∈ p, isEntryName name = true) (hq : ∀ name ∈ q, isEntryName name = true)
    (h : relativeName names p = relativeName names q) : p.map Text.shown = q.map Text.shown := by
  have hall : ∀ r : Place, (∀ name ∈ r, isEntryName name = true) →
      ∀ name ∈ (names ++ r).map Text.shown, isEntryName name = true := by
    intro r hr shown hshown
    obtain ⟨name, hname, rfl⟩ := List.mem_map.1 hshown
    exact isEntryName_shown (List.forall_mem_append.2 ⟨hnames, hr⟩ name hname)
  have hmap := Path.intercalate_injective (hall p hp) (hall q hq) h
  rw [List.map_append, List.map_append] at hmap
  exact List.append_cancel_left hmap

/-- The name of a source tells its place, if that is text. -/
theorem relativeName_injective {q : Place} (hnames : ∀ name ∈ names, isEntryName name = true)
    (hp : ∀ name ∈ p, isEntryName name = true) (hq : ∀ name ∈ q, isEntryName name = true)
    (hptext : IsText p) (hqtext : IsText q) (h : relativeName names p = relativeName names q) :
    p = q := by
  rw [← map_shown_of_isText hptext, ← map_shown_of_isText hqtext]
  exact map_shown_of_relativeName hnames hp hq h

theorem isEntryName_of_mem_sourceDir : ∀ name ∈ [Layout.sourceDir], isEntryName name = true := by
  decide

theorem sourceName_injective {q : Place} (hp : ∀ name ∈ p, isEntryName name = true)
    (hq : ∀ name ∈ q, isEntryName name = true) (hptext : IsText p) (hqtext : IsText q)
    (h : sourceName p = sourceName q) : p = q :=
  relativeName_injective isEntryName_of_mem_sourceDir hp hq hptext hqtext h

/-- Whether names are those of a source is seen when they are shown. -/
theorem namesSource_congr {q : Place} (h : p.map Text.shown = q.map Text.shown) :
    namesSource p = namesSource q := by
  have hshown : ∀ p : Place, namesSource p =
      ((p.map Text.shown).getLast?.any (['.', 'c'].isSuffixOf ·.toList) &&
        (p.map Text.shown).dropLast.all (!·.toList.head? == some '.')) := by
    intro p
    rw [namesSource_eq, List.getLast?_map, ← List.map_dropLast, List.all_map, Option.any_map]
    rfl
  rw [hshown, hshown, h]

theorem isEntryName_of_fileAt (h : (s.fileAt (place ++ p)).isSome) :
    ∀ name ∈ p, isEntryName name = true := by
  obtain ⟨⟨content, executable⟩, hfile⟩ := Option.isSome_iff_exists.1 h
  have hget := at?_eq_file_iff.1 (fileAt_eq_some_iff.1 hfile)
  exact fun name hname =>
    s.valid_root.isEntryName_of_get? hget name (List.mem_append_right _ hname)

theorem HasSource.isEntryName (h : HasSource s place p) : ∀ name ∈ p, isEntryName name = true :=
  isEntryName_of_fileAt h.1

theorem ne_nil_of_namesSource (h : namesSource p = true) : p ≠ [] := by
  rintro rfl
  cases h

/-- What holds of every place below a node holds of those of the sources there. -/
theorem HasSource.of_descendants {P : Place → Prop} (hp : HasSource s place p)
    (h : ∀ e ∈ (s.get? place).elim [] Node.descendants, P e.1) : P p := by
  obtain ⟨⟨content, executable⟩, hfile⟩ := Option.isSome_iff_exists.1 hp.1
  have hbelow := at?_eq_file_iff.1 (fileAt_eq_some_iff.1 hfile)
  rw [Store.get?_append] at hbelow
  obtain ⟨node, hnode, hget⟩ := Option.bind_eq_some_iff.1 hbelow
  rw [hnode] at h
  exact h (p, .file content executable)
    ((Node.mem_descendants (Node.Valid.get? s.valid_root hnode)).2
      ⟨ne_nil_of_namesSource hp.2, hget⟩)

theorem HasSource.exists_dir (h : HasSource s place (name :: p)) (hp : p ≠ [])
    (hget : s.get? place = some (.dir entries)) : ∃ sub, (name, .dir sub) ∈ entries := by
  obtain ⟨⟨content, executable⟩, hfile⟩ := Option.isSome_iff_exists.1 h.1
  have hbelow := at?_eq_file_iff.1 (fileAt_eq_some_iff.1 hfile)
  rw [List.append_cons] at hbelow
  obtain ⟨sub, hsub⟩ := Node.exists_dir_of_get?_append hp hbelow
  exact ⟨sub, mem_of_lookup ((get?_entry hget name).symm.trans hsub)⟩

theorem HasSource.visible (h : HasSource s place (name :: p)) (hp : p ≠ []) :
    isHidden name = false := by
  have hnames := h.2
  rw [namesSource_cons hp, Bool.and_eq_true, Bool.not_eq_true'] at hnames
  exact hnames.1

/-! ## Discovery that succeeded -/

/-- Libraries that are discovered belong to the visible directories among the sources: each of these
has one, whose sources are what discovery finds under the name as it is shown. -/
theorem exists_of_discoverUnits {units : List LibraryUnit}
    (h : discoverUnits base s = (.ok units, t)) :
    ∃ place entries, s.locate (Path.join base Layout.sourceDir) = .ok (place, .dir entries) ∧
      (∀ unit ∈ units, ∃ e ∈ entries, isHidden e.1 = false ∧ unit.name = Text.shown e.1 ∧
        ∃ u, discover base ("src/" ++ unit.name) true s = (.ok unit.sources, u)) ∧
      ∀ e ∈ entries, isHidden e.1 = false →
        s.isDir (Path.join (Path.join base Layout.sourceDir) e.1) = true →
          ∃ unit ∈ units, unit.name = Text.shown e.1 ∧
            ∃ u, discover base ("src/" ++ unit.name) true s = (.ok unit.sources, u) := by
  unfold discoverUnits at h
  obtain ⟨libraries, s', hlibraries, h⟩ := bind_eq_ok.1 h
  obtain ⟨entries, s'', hlist, -⟩ := bind_eq_ok.1 hlibraries
  obtain ⟨-, place, hlocate⟩ := FileAction.list_eq_ok.1 hlist
  rw [libraryNames_apply hlocate, Prod.mk.injEq, Except.ok.injEq] at hlibraries
  obtain ⟨rfl, rfl⟩ := hlibraries
  have hkeeps : ∀ name, Keeps Eq (do
      let sources ← discover base ("src/" ++ name) true
      return (⟨name, sources⟩ : LibraryUnit)) := fun name =>
    Keeps.bind Eq.trans (keeps_discover _ _ _) fun _ => Keeps.pure Eq.refl _
  obtain ⟨hleft, hright⟩ := mapM_eq_ok hkeeps h
  refine ⟨place, entries, hlocate, fun unit hunit => ?_, fun e he hvisible hdir => ?_⟩
  · obtain ⟨library, hlibrary, hrun⟩ := hright unit hunit
    obtain ⟨sources, u, hsources, hrun⟩ := bind_eq_ok.1 hrun
    cases hrun
    obtain ⟨name, hname, rfl⟩ := List.mem_map.1 hlibrary
    obtain ⟨hname, hkept⟩ := List.mem_filter.1 hname
    obtain ⟨e, he, rfl⟩ := List.mem_map.1 hname
    rw [Bool.and_eq_true, Bool.not_eq_true'] at hkept
    exact ⟨e, he, hkept.1, rfl, _, hsources⟩
  · have hname : e.1 ∈ (entries.map (·.1)).filter fun name =>
        !isHidden name && s.isDir (Path.join (Path.join base Layout.sourceDir) name) := by
      refine List.mem_filter.2 ⟨List.mem_map.2 ⟨e, he, rfl⟩, ?_⟩
      rw [hvisible, hdir]
      rfl
    obtain ⟨unit, hunit, hrun⟩ := hleft _ (List.mem_map.2 ⟨e.1, hname, rfl⟩)
    obtain ⟨sources, u, hsources, hrun⟩ := bind_eq_ok.1 hrun
    cases hrun
    exact ⟨_, hunit, rfl, _, hsources⟩

section Succeeded

variable (hfree : s.LinkFree)

include hfree

/-- Where no link stands, a discovery that succeeds gave the sources below its directory. -/
theorem mem_of_discover {sources : List String} (hdir : Path.components dir = names.map .name)
    (h : discover base dir deep s = (.ok sources, t)) :
    path ∈ sources ↔ ∃ p, (HasSource s (s.placeOf (Path.join base dir)) p ∧
      (deep = true ∨ p.length = 1)) ∧ relativeName names p = path := by
  obtain ⟨rfl, place, node, hlocate, henter⟩ := enterable_of_discover h
  obtain rfl := locate_place hfree hlocate
  have hget := get?_of_locate hlocate
  cases node with
  | link target => exact absurd hget (hfree.get?_ne _ _)
  | file content executable =>
    -- a scan of a file gives nothing, and nothing is below it
    have hempty : sources = [] := by
      rw [discover, get_bind, scan, hlocate] at h
      cases h
      rfl
    rw [hempty]
    refine iff_of_false List.not_mem_nil ?_
    rintro ⟨p, ⟨⟨hfile, hnames⟩, -⟩, -⟩
    obtain ⟨first, rest, rfl⟩ := List.exists_cons_of_ne_nil (ne_nil_of_namesSource hnames)
    obtain ⟨⟨content', executable'⟩, hfile⟩ := Option.isSome_iff_exists.1 hfile
    have hbelow := at?_eq_file_iff.1 (fileAt_eq_some_iff.1 hfile)
    rw [Store.get?_append, hget] at hbelow
    cases hbelow
  | dir entries =>
    have hbelow : (Node.dir entries).LinkFree := hfree.of_get? hget
    rw [discover_eq hdir (linksToFiles_of_linkFree hbelow) (henter entries rfl) hlocate,
      Prod.mk.injEq, Except.ok.injEq] at h
    rw [← h.1, List.mem_map]
    exact exists_congr fun p => and_congr_left' <|
      mem_listed_depth.trans (and_congr_left' (mem_listed_iff hbelow hget))

/-- Discovery in a visible directory among the sources finds what is there by its name. -/
theorem mem_unit_sources (hname : isEntryName name = true) (hvisible : isHidden name = false)
    {sources : List String} (h : discover base ("src/" ++ name) true s = (.ok sources, t)) :
    path ∈ sources ↔ ∃ p, p ≠ [] ∧
      HasSource s (s.placeOf (Path.join base Layout.sourceDir)) (name :: p) ∧
        sourceName (name :: p) = path := by
  obtain ⟨hdir, hjoin⟩ := join_unit hname base
  rw [mem_of_discover hfree hdir h, hjoin, placeOf_eq, placeIn_join hname, ← placeOf_eq]
  refine exists_congr fun p => ?_
  rw [relativeName_unit, ← and_assoc]
  refine and_congr_left' ?_
  simp only [true_or, and_true]
  unfold HasSource
  rw [← List.append_cons]
  constructor
  · rintro ⟨hfile, hnames⟩
    have hne := ne_nil_of_namesSource hnames
    exact ⟨hne, hfile, by rw [namesSource_cons hne, hvisible, hnames]; rfl⟩
  · rintro ⟨hne, hfile, hnames⟩
    rw [namesSource_cons hne, Bool.and_eq_true] at hnames
    exact ⟨hfile, hnames.2⟩

/-- Where no link stands, libraries that are discovered have the sources that are in directories of
the source directory, if the names of these are text and their paths fit. -/
theorem mem_of_discoverUnits {units : List LibraryUnit}
    (hfits : ∀ name p, p ≠ [] →
      HasSource s (s.placeOf (Path.join base Layout.sourceDir)) (name :: p) →
        Text.isUnicode name = true ∧ Fits (Path.join (Path.join base Layout.sourceDir) name))
    (h : discoverUnits base s = (.ok units, t)) :
    (∃ unit ∈ units, path ∈ unit.sources) ↔ ∃ name p, p ≠ [] ∧
      HasSource s (s.placeOf (Path.join base Layout.sourceDir)) (name :: p) ∧
        sourceName (name :: p) = path := by
  obtain ⟨place, entries, hlocate, hunits, hlibraries⟩ := exists_of_discoverUnits h
  obtain rfl := locate_place hfree hlocate
  have hget : s.get? (s.placeOf (Path.join base Layout.sourceDir)) = some (.dir entries) :=
    get?_of_locate hlocate
  have hv := Node.Valid.get? s.valid_root hget
  have hentry : ∀ {name node}, (name, node) ∈ entries → ∀ target, node ≠ .link target := by
    rintro name _ hmem target rfl
    refine hfree.get?_ne (s.placeOf (Path.join base Layout.sourceDir) ++ [name]) target ?_
    rw [get?_entry hget, lookup_of_mem hv.nodup hmem]
  constructor
  · rintro ⟨unit, hunit, hpath⟩
    obtain ⟨e, he, hvisible, hshown, u, hsources⟩ := hunits unit hunit
    have hname := isEntryName_shown (hv.isEntryName_of_mem he)
    rw [← isHidden_shown, ← hshown] at hvisible
    rw [← hshown] at hname
    exact ⟨_, (mem_unit_sources hfree hname hvisible hsources).1 hpath⟩
  · rintro ⟨name, p, hne, hsource, rfl⟩
    obtain ⟨hunicode, hpath⟩ := hfits name p hne hsource
    have hname := hsource.isEntryName name List.mem_cons_self
    have hvisible := hsource.visible hne
    -- the directory of the library is an entry, and its path leads to it
    obtain ⟨sub, hsub⟩ := hsource.exists_dir hne hget
    have hdir := isDir_entry hlocate hsub (hentry hsub) fun _ => hpath
    obtain ⟨unit, hunit, hshown, u, hsources⟩ := hlibraries (name, .dir sub) hsub hvisible hdir
    rw [Text.shown_of_isUnicode hunicode] at hshown
    rw [hshown] at hsources
    exact ⟨_, hunit, (mem_unit_sources hfree hname hvisible hsources).2 ⟨p, hne, hsource, rfl⟩⟩

end Succeeded

end Sources

end Autotree
