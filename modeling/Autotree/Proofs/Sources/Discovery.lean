import Mathlib.Logic.Relation
import Autotree.Proofs.Sources.Partition

/-!
# Discovery at any directory

Discovery in a directory of files and directories gives each source there once, in the order in
which a walk of the listings comes to it, by a path that leads to it (`Finds`), where paths fit and
names are text (`sources_not_found` has a name and a path that show why).  Nothing else counts: what
stands in hidden directories, and files that are no sources, may come, change and go
(`listed_eq_of_unseen`).  All of it follows from the places that are listed being some of those
below the directory, in their order (`pairwise_descendants`).
-/

namespace Autotree

namespace Node

variable {node : Node} {p q : Place} {name : String} {entries rest : List (String × Node)}

/-- A place comes before another in a walk of the listings of a tree: a directory comes before what
is below it, and what an entry has comes before what a later one has. -/
inductive Precedes : Node → Place → Place → Prop where
  | above {node : Node} (name : String) (p : Place) : Precedes node [] (name :: p)
  | apart {entries : List (String × Node)} {name later : String} (p q : Place)
      (h : [name, later].Sublist (entries.map (·.1))) :
      Precedes (.dir entries) (name :: p) (later :: q)
  | within {entries : List (String × Node)} {name : String} {node : Node} {p q : Place}
      (hmem : (name, node) ∈ entries) (h : Precedes node p q) :
      Precedes (.dir entries) (name :: p) (name :: q)

theorem Precedes.cons (e : String × Node) (h : Precedes (.dir entries) p q) :
    Precedes (.dir (e :: entries)) p q := by
  cases h with
  | above name p => exact .above name p
  | apart p q h => exact .apart p q (h.cons e.1)
  | within hmem h => exact .within (List.mem_cons_of_mem e hmem) h

theorem pairwise_places_cons
    (hnode : (node.descendants.map (·.1)).Pairwise (Precedes node))
    (hrest : ((descendants.ofEntries rest).map (·.1)).Pairwise (Precedes (.dir rest))) :
    ((descendants.ofEntries ((name, node) :: rest)).map (·.1)).Pairwise
      (Precedes (.dir ((name, node) :: rest))) := by
  rw [descendants.ofEntries, List.map_append, List.pairwise_append]
  refine ⟨?_, hrest.imp (Precedes.cons _), ?_⟩
  · rw [List.map_cons, List.pairwise_cons]
    constructor
    · intro q hq
      obtain ⟨⟨q, n⟩, hbelow, rfl⟩ := List.mem_map.1 hq
      obtain ⟨⟨q, n⟩, hbelow, heq⟩ := List.mem_map.1 hbelow
      cases heq
      have hne := Sources.ne_nil_of_mem_descendants hbelow
      obtain ⟨first, q, rfl⟩ := List.exists_cons_of_ne_nil hne
      exact .within List.mem_cons_self (.above first q)
    · rw [List.map_map, List.pairwise_map]
      exact (List.pairwise_map.1 hnode).imp (.within List.mem_cons_self)
  · -- what the entry has begins with its name, what the others have with a later one
    intro p hp q hq
    have hp : ∃ below, p = name :: below := by
      obtain ⟨e, he, rfl⟩ := List.mem_map.1 hp
      rcases List.mem_cons.1 he with rfl | he
      · exact ⟨[], rfl⟩
      · obtain ⟨e, -, rfl⟩ := List.mem_map.1 he
        exact ⟨e.1, rfl⟩
    obtain ⟨p, rfl⟩ := hp
    obtain ⟨⟨q, n⟩, hmem, rfl⟩ := List.mem_map.1 hq
    obtain ⟨later, q, rfl⟩ := List.exists_cons_of_ne_nil (ne_nil_of_mem_ofEntries hmem)
    have hlater : later ∈ rest.map (·.1) := mem_names_of_mem_places (List.mem_map.2 ⟨_, hmem, rfl⟩)
    exact .apart p q ((List.singleton_sublist.2 hlater).cons_cons name)

/-- The places below a node are listed in the order of a walk. -/
theorem pairwise_descendants (hv : node.Valid) :
    (node.descendants.map (·.1)).Pairwise (Precedes node) := by
  induction hv with
  | file => exact .nil
  | link => exact .nil
  | dir nodup names below ih =>
    rename_i entries
    rw [descendants]
    clear nodup names below
    induction entries with
    | nil => exact .nil
    | cons head rest ihrest =>
      exact pairwise_places_cons (ih head List.mem_cons_self)
        (ihrest fun e he => ih e (List.mem_cons_of_mem _ he))

end Node

namespace Sources

open Store

variable {s t : Store} {base dir : String} {place p q : Place} {deep : Bool}
  {entries entries' : List (String × Node)} {names : List String} {e : String × Node}

/-! ## What does not count -/

/-- Whether no scan enters or reports an entry: a directory whose name begins with a dot, or what is
no directory and has a name that does not end in `.c`. -/
def isUnseen (e : String × Node) : Bool :=
  if e.2.isDir then e.1.toList.head? == some '.' else !(['.', 'c'].isSuffixOf e.1.toList)

theorem isUnseen_eq (e : String × Node) :
    isUnseen e = if e.2.isDir then isHidden e.1 else !isSource e.1 := by
  rw [isUnseen, isHidden_eq, isSource_eq]

/-- Unseen entries of one directory are added, changed or removed: a file that is no source, or a
hidden directory with all that is in it. -/
inductive UnseenEdit : List (String × Node) → List (String × Node) → Prop where
  | here (before old new after : List (String × Node)) (hold : ∀ e ∈ old, isUnseen e = true)
      (hnew : ∀ e ∈ new, isUnseen e = true) :
      UnseenEdit (before ++ old ++ after) (before ++ new ++ after)
  | within (before after : List (String × Node)) (name : String)
      {entries entries' : List (String × Node)} (h : UnseenEdit entries entries') :
      UnseenEdit (before ++ (name, .dir entries) :: after)
        (before ++ (name, .dir entries') :: after)

theorem listedEntry_of_isUnseen (h : isUnseen e = true) : listedEntry deep e.1 e.2 = [] := by
  rw [isUnseen_eq] at h
  rw [listedEntry, isListed_singleton]
  split at h
  · next hdir => simp [hdir, h]
  · next hdir =>
    rw [Bool.not_eq_true'] at h
    simp [h, listed_of_not_isDir (eq_false_of_ne_true hdir)]

theorem flatMap_listedEntry_of_isUnseen (h : ∀ e ∈ entries, isUnseen e = true) :
    (entries.flatMap fun e => listedEntry deep e.1 e.2) = [] :=
  List.flatMap_eq_nil_iff.2 fun e he => listedEntry_of_isUnseen (h e he)

/-- An unseen change does not change what a scan gives. -/
theorem UnseenEdit.listed_eq (h : UnseenEdit entries entries') (deep : Bool) :
    listed deep (.dir entries) = listed deep (.dir entries') := by
  induction h generalizing deep with
  | here before old new after hold hnew =>
    simp only [listed_dir, List.flatMap_append, flatMap_listedEntry_of_isUnseen hold,
      flatMap_listedEntry_of_isUnseen hnew]
  | within before after name h ih =>
    simp only [listed_dir, List.flatMap_append, List.flatMap_cons]
    rw [listedEntry, listedEntry, isListed_singleton, isListed_singleton, ih]
    rfl

/-- An unseen change does not change what a scan enters. -/
theorem UnseenEdit.enters (h : UnseenEdit entries entries') (hp : Enters entries' p) :
    Enters entries p := by
  induction h generalizing p with
  | here before old new after hold hnew =>
    cases hp with
    | top => exact .top _
    | @entry _ sub name p hmem hvisible hp =>
      refine .entry ?_ hvisible hp
      rcases List.mem_append.1 hmem with hmem | hafter
      · rcases List.mem_append.1 hmem with hbefore | hmem
        · exact List.mem_append_left _ (List.mem_append_left _ hbefore)
        · have hhidden : isHidden name = true := (isUnseen_eq _).symm.trans (hnew _ hmem)
          rw [hvisible] at hhidden
          cases hhidden
      · exact List.mem_append_right _ hafter
  | within before after name h ih =>
    cases hp with
    | top => exact .top _
    | entry hmem hvisible hp =>
      rcases List.mem_append.1 hmem with hbefore | hmem
      · exact .entry (List.mem_append_left _ hbefore) hvisible hp
      · rcases List.mem_cons.1 hmem with heq | hafter
        · cases heq
          exact .entry (List.mem_append_right _ List.mem_cons_self) hvisible (ih hp)
        · exact .entry (List.mem_append_right _ (List.mem_cons_of_mem _ hafter)) hvisible hp

theorem enterable_of_unseen {path : String} (h : Relation.ReflTransGen UnseenEdit entries entries')
    (henter : Enterable deep path entries) : Enterable deep path entries' := by
  induction h with
  | refl => exact henter
  | tail _ hedit ih => exact fun p hp hdepth => ih p (hedit.enters hp) hdepth

theorem listed_eq_of_unseen (h : Relation.ReflTransGen UnseenEdit entries entries') :
    listed deep (.dir entries) = listed deep (.dir entries') := by
  induction h with
  | refl => rfl
  | tail _ hedit ih => exact ih.trans (hedit.listed_eq deep)

/-! ## What is found -/

/-- The path of a place in a directory, by the names of both. -/
def pathOf (names : List String) (p : Place) : String :=
  "/".intercalate (names ++ p)

theorem relativeName_eq_pathOf (hnames : IsText names) (hp : IsText p) :
    relativeName names p = pathOf names p := by
  rw [relativeName, pathOf, List.map_append, map_shown_of_isText hnames, map_shown_of_isText hp]

theorem pathOf_injective (hnames : ∀ name ∈ names, isEntryName name = true)
    (hp : ∀ name ∈ p, isEntryName name = true) (hq : ∀ name ∈ q, isEntryName name = true)
    (h : pathOf names p = pathOf names q) : p = q := by
  have hall : ∀ r : Place, (∀ name ∈ r, isEntryName name = true) →
      ∀ name ∈ names ++ r, isEntryName name = true := fun r hr =>
    List.forall_mem_append.2 ⟨hnames, hr⟩
  exact List.append_cancel_left (Path.intercalate_injective (hall p hp) (hall q hq) h)

/-- No base is empty from which a directory is reached. -/
theorem foldl_join_ne_empty (hdir : Path.components dir = names.map .name)
    (h : s.locate (Path.join base dir) = .ok (place, .dir entries)) :
    names.foldl Path.join base ≠ "" := by
  have hnames := Path.isEntryName_of_names hdir
  cases hsplit : names.reverse with
  | nil =>
    obtain rfl := List.reverse_eq_nil_iff.1 hsplit
    obtain rfl := Path.eq_empty_of_components hdir
    rintro rfl
    exact not_refused_of_locate h (.inl rfl)
  | cons last front =>
    rw [List.reverse_eq_cons_iff] at hsplit
    rw [hsplit, List.foldl_append, List.foldl_cons, List.foldl_nil]
    have hlast := hnames last (by rw [hsplit]; simp)
    exact join_ne_empty (isStep_of_isEntryName hlast).1

/-- The path of a source, joined to the base, leads to the source, if it fits. -/
theorem locate_pathOf (hdir : Path.components dir = names.map .name)
    (h : s.locate (Path.join base dir) = .ok (place, .dir entries)) (hp : HasSource s place p)
    (hfits : Fits (Path.join base (pathOf names p))) :
    ∃ content executable, s.locate (Path.join base (pathOf names p)) =
      .ok (place ++ p, .file content executable) := by
  obtain ⟨⟨content, executable⟩, hfile⟩ := Option.isSome_iff_exists.1 hp.1
  have hget := at?_eq_file_iff.1 (fileAt_eq_some_iff.1 hfile)
  rw [Store.get?_append, get?_of_locate h, Option.bind_some] at hget
  have hall : ∀ name ∈ names ++ p, isEntryName name = true :=
    List.forall_mem_append.2 ⟨Path.isEntryName_of_names hdir, hp.isEntryName⟩
  have hne := ne_nil_of_namesSource hp.2
  have hjoin :
      Path.join base (pathOf names p) = p.foldl Path.join (names.foldl Path.join base) := by
    rw [pathOf, Path.join_intercalate hall (List.append_ne_nil_of_right_ne_nil _ hne),
      List.foldl_append]
  rw [hjoin] at hfits ⊢
  have htaken := (hfits.of_foldl_join hp.isEntryName (foldl_join_ne_empty hdir h)).taken
  exact ⟨content, executable,
    locate_foldl_join (locate_names hdir htaken h) (.inr hfits) hget fun _ => Node.noConfusion⟩

/-- The sources that discovery is to find in a directory, by their places there. -/
structure Finds (s : Store) (base : String) (names : List String) (place : Place)
    (entries : List (String × Node)) (deep : Bool) (found : List Place) : Prop where
  /-- No path is given twice. -/
  nodup : (found.map (pathOf names)).Nodup
  /-- The sources found are the files whose names are those of sources, with no hidden directory on
  the way, and directly in the directory if the scan is not deep. -/
  mem_iff : ∀ p, p ∈ found ↔ HasSource s place p ∧ (deep = true ∨ p.length = 1)
  ordered : found.Pairwise (Node.Precedes (.dir entries))
  located : ∀ p ∈ found, ∃ content executable,
    s.locate (Path.join base (pathOf names p)) = .ok (place ++ p, .file content executable)

theorem mem_listed_iff_of_depth (hfree : (Node.dir entries).LinkFree)
    (h : s.get? place = some (.dir entries)) :
    p ∈ listed deep (.dir entries) ↔ HasSource s place p ∧ (deep = true ∨ p.length = 1) :=
  mem_listed_depth.trans (and_congr_left' (mem_listed_iff hfree h))

theorem finds_listed (hdir : Path.components dir = names.map .name)
    (h : s.locate (Path.join base dir) = .ok (place, .dir entries))
    (hfree : (Node.dir entries).LinkFree)
    (hfits : ∀ p, HasSource s place p → deep = true ∨ p.length = 1 →
      Fits (Path.join base (pathOf names p))) :
    Finds s base names place entries deep (listed deep (.dir entries)) := by
  have hget := get?_of_locate h
  have hv := Node.Valid.get? s.valid_root hget
  refine ⟨?_, fun p => mem_listed_iff_of_depth hfree hget, ?_, ?_⟩
  · refine List.Nodup.map_on ?_ (nodup_listed hv deep)
    intro p hp q hq
    exact pathOf_injective (Path.isEntryName_of_names hdir) (isEntryName_of_mem_listed hv hp)
      (isEntryName_of_mem_listed hv hq)
  · exact (Node.pairwise_descendants hv).sublist ((List.filter_sublist).map _)
  · intro p hp
    obtain ⟨hsource, hdepth⟩ := (mem_listed_iff_of_depth hfree hget).1 hp
    exact locate_pathOf hdir h hsource (hfits p hsource hdepth)

/-- Discovery below a path of names, where the directory there has no links, finds the sources, and
finds the same ones after changes that are not seen, if the system takes the paths of the
directories and the sources, and the names of the sources are text. -/
theorem discover_finds (hdir : Path.components dir = names.map .name)
    (h : s.locate (Path.join base dir) = .ok (place, .dir entries))
    (hfree : (Node.dir entries).LinkFree) (deep : Bool)
    (henter : Enterable deep (Path.join base dir) entries) (hnames : IsText names)
    (hsources : ∀ p, HasSource s place p → deep = true ∨ p.length = 1 →
      IsText p ∧ Fits (Path.join base (pathOf names p))) :
    ∃ found, discover base dir deep s = (.ok (found.map (pathOf names)), s) ∧
      Finds s base names place entries deep found ∧
      ∀ t place' entries', Relation.ReflTransGen UnseenEdit entries entries' →
        t.locate (Path.join base dir) = .ok (place', .dir entries') →
        (Node.dir entries').LinkFree →
        discover base dir deep t = (.ok (found.map (pathOf names)), t) := by
  have hplain : (listed deep (.dir entries)).map (relativeName names) =
      (listed deep (.dir entries)).map (pathOf names) := by
    refine List.map_congr_left fun p hp => ?_
    obtain ⟨hsource, hdepth⟩ := (mem_listed_iff_of_depth hfree (get?_of_locate h)).1 hp
    exact relativeName_eq_pathOf hnames (hsources p hsource hdepth).1
  refine ⟨listed deep (.dir entries), ?_,
    finds_listed hdir h hfree fun p hp hdepth => (hsources p hp hdepth).2, ?_⟩
  · rw [discover_eq hdir (linksToFiles_of_linkFree hfree) henter h, hplain]
  · intro t place' entries' hedits h' hfree'
    rw [discover_eq hdir (linksToFiles_of_linkFree hfree') (enterable_of_unseen hedits henter) h',
      ← listed_eq_of_unseen hedits, hplain]

/-- The sample build tree with a file less and, in a hidden directory, a source more. -/
def editedStore : Store :=
  (sampleStore.erase ["work", "src", "notes.txt"]).putFile ["work", "src", ".git", "new.c"] .empty
    false

/-- Its sources. -/
def editedSources : List (String × Node) :=
  sampleSources.take 2 ++ (".git", .dir [("hook.c", .file .empty false),
    ("new.c", .file .empty false)]) :: (sampleSources.drop 3).take 2

theorem unseenEdits_sample : Relation.ReflTransGen UnseenEdit sampleSources editedSources := by
  have hremoved : UnseenEdit sampleSources (sampleSources.take 5) :=
    .here (sampleSources.take 5) (sampleSources.drop 5) [] [] (by decide) (by decide)
  have hadded : UnseenEdit (sampleSources.take 5) editedSources :=
    .here (sampleSources.take 2) ((sampleSources.drop 2).take 1)
      [(".git", .dir [("hook.c", .file .empty false), ("new.c", .file .empty false)])]
      ((sampleSources.drop 3).take 2) (by decide) (by decide)
  exact .tail (.single hremoved) hadded

theorem editedSources_located :
    editedStore.locate (Path.join "./link" "src/") = .ok (["work", "src"], .dir editedSources) := by
  rfl

theorem linkFree_editedSources : (Node.dir editedSources).LinkFree :=
  linkFree_of_descendants editedSources_located (by decide)

theorem sampleSources_located_link :
    sampleStore.locate (Path.join "./link" "src/") = .ok (["work", "src"], .dir sampleSources) := by
  rfl

theorem enterable_sampleSources_link :
    Enterable true (Path.join "./link" "src/") sampleSources :=
  enterable_of_forall (by decide) (by decide +kernel)

theorem sources_fit_sample : ∀ p, HasSource sampleStore ["work", "src"] p → true = true ∨
    p.length = 1 → IsText p ∧ Fits (Path.join "./link" (pathOf ["src"] p)) := by
  have hlisted : ∀ p ∈ listed true (.dir sampleSources),
      IsText p ∧ Fits (Path.join "./link" (pathOf ["src"] p)) := by decide +kernel
  exact fun p hp _ => hlisted p ((mem_listed_iff linkFree_sampleSources
    (get?_of_locate sampleSources_located_link)).2 hp)

theorem sample_discover_finds :
    Path.components "src/" = ["src"].map .name ∧
      sampleStore.locate (Path.join "./link" "src/") =
        .ok (["work", "src"], .dir sampleSources) ∧
      (Node.dir sampleSources).LinkFree ∧
      Enterable true (Path.join "./link" "src/") sampleSources ∧ IsText ["src"] ∧
      (∀ p, HasSource sampleStore ["work", "src"] p → true = true ∨ p.length = 1 →
        IsText p ∧ Fits (Path.join "./link" (pathOf ["src"] p))) ∧
      ∃ found, found.map (pathOf ["src"]) = ["src/foo.c/a.c", "src/net/proto/frame.c",
          "src/net/sock.c", "src/main.c", "src/.gen.c"] ∧
        Finds sampleStore "./link" ["src"] ["work", "src"] sampleSources true found ∧
        discover "./link" "src/" true editedStore =
          (.ok (found.map (pathOf ["src"])), editedStore) := by
  have hdir : Path.components "src/" = ["src"].map .name := by decide
  have htext : IsText ["src"] := by decide
  obtain ⟨found, hdiscover, hfinds, hkept⟩ :=
    discover_finds hdir sampleSources_located_link linkFree_sampleSources true
      enterable_sampleSources_link htext sources_fit_sample
  refine ⟨hdir, sampleSources_located_link, linkFree_sampleSources, enterable_sampleSources_link,
    htext, sources_fit_sample, found, ?_, hfinds,
    hkept editedStore _ _ unseenEdits_sample editedSources_located linkFree_editedSources⟩
  have hvalue : discover "./link" "src/" true sampleStore = (.ok ["src/foo.c/a.c",
      "src/net/proto/frame.c", "src/net/sock.c", "src/main.c", "src/.gen.c"], sampleStore) := by rfl
  rw [hvalue] at hdiscover
  exact (Except.ok.inj (Prod.mk.inj hdiscover).1).symm

/-! ## Names that are no text, and paths that are too long -/

/-- A source whose name has a byte that is no text. -/
def straySourceStore : Store :=
  (Store.empty.putDir ["src"]).putFile ["src", "a\x00\u00e9.c"] .empty false

def straySources : List (String × Node) :=
  [("a\x00\u00e9.c", .file .empty false)]

theorem straySources_located :
    straySourceStore.locate "./src" = .ok (["src"], .dir straySources) := by
  rfl

/-- Discovery gives a path that is not that of the file where its name is no text, though all paths
fit, and fails where a path is too long, though all names are text. -/
theorem sources_not_found :
    (¬ ∀ (s : Store) (base dir : String) (names : List String) (place : Place)
      (entries : List (String × Node)) (deep : Bool), Path.components dir = names.map .name →
      s.locate (Path.join base dir) = .ok (place, .dir entries) → (Node.dir entries).LinkFree →
      (∀ e ∈ (Node.dir entries).descendants, Fits (e.1.foldl Path.join (Path.join base dir))) →
      ∃ found, discover base dir deep s = (.ok (found.map (pathOf names)), s) ∧
        Finds s base names place entries deep found) ∧
    ¬ ∀ (s : Store) (base dir : String) (names : List String) (place : Place)
      (entries : List (String × Node)) (deep : Bool), Path.components dir = names.map .name →
      s.locate (Path.join base dir) = .ok (place, .dir entries) → (Node.dir entries).LinkFree →
      IsText names → (∀ e ∈ (Node.dir entries).descendants, IsText e.1) →
      ∃ found, discover base dir deep s = (.ok (found.map (pathOf names)), s) ∧
        Finds s base names place entries deep found := by
  constructor
  · intro h
    obtain ⟨found, hdiscover, hfinds⟩ := h straySourceStore "." "src" ["src"] ["src"] straySources
      false (by decide) straySources_located
      (linkFree_of_descendants straySources_located (by decide)) (by decide +kernel)
    have hsource : HasSource straySourceStore ["src"] ["a\x00\u00e9.c"] := by
      unfold HasSource
      decide +kernel
    have hmem := List.mem_map_of_mem (f := pathOf ["src"])
      ((hfinds.mem_iff _).2 ⟨hsource, .inr rfl⟩)
    have hvalue : discover "." "src" false straySourceStore =
        (.ok ["src/a\ufffd.c"], straySourceStore) := by rfl
    rw [hvalue] at hdiscover
    rw [← Except.ok.inj (Prod.mk.inj hdiscover).1] at hmem
    exact absurd hmem (by decide +kernel)
  · intro h
    obtain ⟨found, hdiscover, -⟩ := h libraryStore (dotted 2045) Layout.sourceDir
      [Layout.sourceDir] ["src"] libraryEntries true components_sourceDir libraryEntries_located
      (linkFree_of_descendants libraryEntries_located (by decide)) (by decide) (by decide +kernel)
    obtain ⟨-, place, node, hlocate, henter⟩ := enterable_of_discover hdiscover
    rw [libraryEntries_located] at hlocate
    cases hlocate
    exact not_enterable_libraryEntries (henter _ rfl)

end Sources

end Autotree
