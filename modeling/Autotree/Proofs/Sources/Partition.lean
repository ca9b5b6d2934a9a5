import Mathlib.Data.List.Pairwise
import Mathlib.Logic.ExistsUnique
import Autotree.Proofs.Sources

/-!
# The program and the libraries

The program takes the sources directly in the source directory, and each directory there that is
not hidden is a library of the sources below it.  Three scans find these: one of the directory
itself, one for its directories, and one below each of them.  Together they find every source once
that a scan at every depth finds, and nothing else (`discover_shares`), where paths fit and names
are text: the scan below a library starts from its name as it is shown, so one whose name is no text
is not found again (`libraries_not_shared`).
-/

namespace Autotree.Sources

open Store

variable {s : Store} {base : String} {place p : Place} {entries : List (String × Node)}
  {deep : Bool} {node : Node} {unit : LibraryUnit} {path name : String} {names : List String}

/-- The files below a source directory that are sources of a project are shared out: each of them
to the program or to one library, and to only one of them. -/
structure SharesOut (s : Store) (place : Place) (main : List String) (units : List LibraryUnit)
    (all : List String) : Prop where
  perm : (main ++ units.flatMap LibraryUnit.sources).Perm all
  nodup : all.Nodup
  /-- A source is one of the program or of one library. -/
  owner : ∀ path ∈ all, (path ∈ main ∧ ∀ unit ∈ units, path ∉ unit.sources) ∨
    path ∉ main ∧ ∃! unit, unit ∈ units ∧ path ∈ unit.sources
  /-- The sources of a library are below its directory. -/
  below : ∀ unit ∈ units, ∀ path ∈ unit.sources, ∃ rest, path = "src/" ++ unit.name ++ "/" ++ rest
  /-- Every path is that of a file. -/
  file : ∀ path ∈ all, ∃ p, (s.fileAt (place ++ p)).isSome ∧ path = sourceName p
  /-- A file is shared out if its name ends in `.c` and that of no directory on the way to it begins
  with a dot. -/
  mem_iff : ∀ p, (s.fileAt (place ++ p)).isSome →
    (sourceName p ∈ all ↔ (∃ name ∈ p.getLast?, ['.', 'c'] <:+ name.toList) ∧
      ∀ name ∈ p.dropLast, name.toList.head? ≠ some '.')

theorem nodup_listed (hv : node.Valid) (deep : Bool) : (listed deep node).Nodup :=
  (Node.nodup_descendants hv).sublist ((List.filter_sublist).map _)

theorem isEntryName_of_mem_listed (hv : node.Valid) (h : p ∈ listed deep node) :
    ∀ name ∈ p, isEntryName name = true := by
  obtain ⟨⟨p, n⟩, he, rfl⟩ := List.mem_map.1 h
  obtain ⟨-, hget⟩ := (Node.mem_descendants hv).1 (List.mem_filter.1 he).1
  exact hv.isEntryName_of_get? hget

theorem relativeName_injOn_listed (hv : (Node.dir entries).Valid)
    (hnames : ∀ name ∈ names, isEntryName name = true)
    (htext : ∀ p ∈ listed deep (.dir entries), IsText p) :
    ∀ p ∈ listed deep (.dir entries), ∀ q ∈ listed deep (.dir entries),
      relativeName names p = relativeName names q → p = q := fun p hp q hq =>
  relativeName_injective hnames (isEntryName_of_mem_listed hv hp) (isEntryName_of_mem_listed hv hq)
    (htext p hp) (htext q hq)

/-- No two sources have the same path, if the names on the ways to them are text. -/
theorem nodup_relativeNames (hv : (Node.dir entries).Valid)
    (hnames : ∀ name ∈ names, isEntryName name = true)
    (htext : ∀ p ∈ listed deep (.dir entries), IsText p) :
    ((listed deep (.dir entries)).map (relativeName names)).Nodup :=
  List.Nodup.map_on (fun p hp q hq => relativeName_injOn_listed hv hnames htext p hp q hq)
    (nodup_listed hv deep)

theorem mem_sources_unitOf {e : String × Node} :
    path ∈ (unitOf e).sources ↔ ∃ p ∈ listed true e.2, sourceName (e.1 :: p) = path :=
  List.mem_map

theorem sourceName_cons (hname : Text.isUnicode name = true) (hp : p ≠ []) :
    sourceName (name :: p) = "src/" ++ name ++ "/" ++ "/".intercalate (p.map Text.shown) := by
  obtain ⟨next, p, rfl⟩ := List.exists_cons_of_ne_nil hp
  have hsrc : Text.shown Layout.sourceDir = Layout.sourceDir := Text.shown_of_isUnicode (by decide)
  rw [sourceName, relativeName, List.singleton_append, List.map_cons, List.map_cons, List.map_cons,
    String.intercalate_cons_cons, String.intercalate_cons_cons, hsrc,
    Text.shown_of_isUnicode hname]
  simp [Layout.sourceDir, String.append_assoc]

theorem below_of_mem (hfits : LibrariesFit base entries)
    (hunit : unit ∈ (layoutOf entries).units) (hpath : path ∈ unit.sources) :
    ∃ rest, path = "src/" ++ unit.name ++ "/" ++ rest := by
  obtain ⟨e, he, rfl⟩ := List.mem_map.1 hunit
  obtain ⟨hmem, hlibrary⟩ := List.mem_filter.1 he
  obtain ⟨p, hp, rfl⟩ := mem_sources_unitOf.1 hpath
  obtain ⟨d, hd, rfl⟩ := List.mem_map.1 hp
  have hne : d.1 ≠ [] := ne_nil_of_mem_descendants (List.mem_filter.1 hd).1
  exact ⟨_, sourceName_cons (hfits e hmem hlibrary).1 hne⟩

/-- What a list holds once is in one of two parts of it. -/
theorem owner_of_nodup {main : List String} {units : List LibraryUnit}
    (h : (main ++ units.flatMap LibraryUnit.sources).Nodup)
    (hpath : path ∈ main ++ units.flatMap LibraryUnit.sources) :
    (path ∈ main ∧ ∀ unit ∈ units, path ∉ unit.sources) ∨
      path ∉ main ∧ ∃! unit, unit ∈ units ∧ path ∈ unit.sources := by
  obtain ⟨-, hunits, hapart⟩ := List.nodup_append.1 h
  by_cases hmain : path ∈ main
  · refine .inl ⟨hmain, fun unit hunit hsource => ?_⟩
    exact hapart path hmain path (List.mem_flatMap.2 ⟨unit, hunit, hsource⟩) rfl
  · obtain ⟨unit, hunit, hsource⟩ :=
      List.mem_flatMap.1 ((List.mem_append.1 hpath).resolve_left hmain)
    refine .inr ⟨hmain, unit, ⟨hunit, hsource⟩, ?_⟩
    rintro other ⟨hother, hsame⟩
    by_contra hne
    have hsymm : Std.Symm (Function.onFun List.Disjoint LibraryUnit.sources) :=
      ⟨fun _ _ h _ hleft hright => h hright hleft⟩
    exact (List.nodup_flatMap.1 hunits).2.forall hother hunit hne hsame hsource

theorem sharesOut_layoutOf (hfree : (Node.dir entries).LinkFree)
    (hfits : LibrariesFit base entries) (h : s.get? place = some (.dir entries))
    (htext : ∀ p, HasSource s place p → IsText p) :
    SharesOut s place (layoutOf entries).mainSources (layoutOf entries).units
      ((listed true (.dir entries)).map sourceName) := by
  have hv := Node.Valid.get? s.valid_root h
  have hperm : (layoutOf entries).sources.Perm ((listed true (.dir entries)).map sourceName) :=
    sources_layoutOf entries ▸ (listed_perm entries).map sourceName
  have hnodup : ((listed true (.dir entries)).map sourceName).Nodup :=
    nodup_relativeNames hv isEntryName_of_mem_sourceDir fun p hp =>
      htext p ((mem_listed_iff hfree h).1 hp)
  refine ⟨hperm, hnodup, ?_, ?_, ?_, ?_⟩
  · intro path hpath
    exact owner_of_nodup (hperm.nodup_iff.2 hnodup) (hperm.mem_iff.2 hpath)
  · intro unit hunit path hpath
    exact below_of_mem hfits hunit hpath
  · intro path hpath
    obtain ⟨p, hp, rfl⟩ := List.mem_map.1 hpath
    exact ⟨p, ((mem_listed_iff hfree h).1 hp).1, rfl⟩
  · intro p hfile
    have hsource : sourceName p ∈ (listed true (.dir entries)).map sourceName ↔
        namesSource p = true := by
      rw [List.mem_map]
      constructor
      · rintro ⟨q, hq, heq⟩
        -- what the name tells of the place decides whether it is that of a source
        have hshown := map_shown_of_relativeName isEntryName_of_mem_sourceDir
          (isEntryName_of_mem_listed hv hq) (isEntryName_of_fileAt hfile) heq
        rw [← namesSource_congr hshown]
        exact ((mem_listed_iff hfree h).1 hq).2
      · intro hnames
        exact ⟨p, (mem_listed_iff hfree h).2 ⟨hfile, hnames⟩, rfl⟩
    exact hsource.trans namesSource_iff

/-- The program and the libraries of a build tree share out the sources that a scan at every depth
finds: where no link stands at or below its source directory, the paths of the directories fit, and
the names of the libraries and of the sources are text, all three scans succeed. -/
theorem discover_shares
    (h : s.locate (Path.join base Layout.sourceDir) = .ok (place, .dir entries))
    (hfree : (Node.dir entries).LinkFree)
    (henter : Enterable true (Path.join base Layout.sourceDir) entries)
    (hfits : LibrariesFit (Path.join base Layout.sourceDir) entries)
    (htext : ∀ p, HasSource s place p → IsText p) :
    ∃ main units all, discover base Layout.sourceDir false s = (.ok main, s) ∧
      discoverUnits base s = (.ok units, s) ∧ discover base Layout.sourceDir true s = (.ok all, s) ∧
      SharesOut s place main units all :=
  ⟨_, _, _, discover_sourceDir_eq hfree (enterable_false (not_refused_of_locate h)) h,
    discoverUnits_eq hfree henter hfits h, discover_sourceDir_eq hfree henter h,
    sharesOut_layoutOf hfree hfits (get?_of_locate h) htext⟩

/-- A build tree with these sources, and a link to it from outside. -/
def sampleStore : Store :=
  let dirs := [["work"], ["work", "src"], ["work", "src", "foo.c"], ["work", "src", "net"],
    ["work", "src", "net", ".cache"], ["work", "src", "net", "proto"], ["work", "src", ".git"]]
  let files := [["main.c"], [".gen.c"], ["notes.txt"], ["foo.c", "a.c"], ["net", "sock.c"],
    ["net", ".cache", "old.c"], ["net", "proto", "frame.c"], [".git", "hook.c"]]
  let made := dirs.foldl Store.putDir Store.empty
  let filled := files.foldl (fun s p => s.putFile (["work", "src"] ++ p) .empty false) made
  filled.putLink ["link"] "work"

/-- Its sources: a directory is named like a source, and some files and directories are hidden. -/
def sampleSources : List (String × Node) :=
  [("foo.c", .dir [("a.c", .file .empty false)]),
    ("net", .dir [(".cache", .dir [("old.c", .file .empty false)]),
      ("proto", .dir [("frame.c", .file .empty false)]), ("sock.c", .file .empty false)]),
    (".git", .dir [("hook.c", .file .empty false)]),
    ("main.c", .file .empty false), (".gen.c", .file .empty false),
    ("notes.txt", .file .empty false)]

theorem sampleSources_located :
    sampleStore.locate (Path.join "link" Layout.sourceDir) =
      .ok (["work", "src"], .dir sampleSources) := by
  rfl

theorem linkFree_of_descendants (h : s.locate path = .ok (place, .dir entries))
    (hlinks : ∀ e ∈ (Node.dir entries).descendants, e.2.isLink = false) :
    (Node.dir entries).LinkFree :=
  (Node.linkFree_dir_iff (Node.Valid.get? s.valid_root (get?_of_locate h))).2 hlinks

theorem linkFree_sampleSources : (Node.dir sampleSources).LinkFree :=
  linkFree_of_descendants sampleSources_located (by decide)

theorem enterable_sampleSources :
    Enterable true (Path.join "link" Layout.sourceDir) sampleSources :=
  enterable_of_forall (by decide) (by decide +kernel)

theorem librariesFit_sampleSources :
    LibrariesFit (Path.join "link" Layout.sourceDir) sampleSources := by
  unfold LibrariesFit
  decide +kernel

theorem isText_sampleSources : ∀ p, HasSource sampleStore ["work", "src"] p → IsText p := by
  have hlisted : ∀ p ∈ listed true (.dir sampleSources), IsText p := by decide +kernel
  exact fun p hp => hlisted p ((mem_listed_iff linkFree_sampleSources
    (get?_of_locate sampleSources_located)).2 hp)

theorem sample_discover_shares :
    sampleStore.locate (Path.join "link" Layout.sourceDir) =
        .ok (["work", "src"], .dir sampleSources) ∧
      (Node.dir sampleSources).LinkFree ∧
      Enterable true (Path.join "link" Layout.sourceDir) sampleSources ∧
      LibrariesFit (Path.join "link" Layout.sourceDir) sampleSources ∧
      (∀ p, HasSource sampleStore ["work", "src"] p → IsText p) ∧
      SharesOut sampleStore ["work", "src"] ["src/main.c", "src/.gen.c"]
        [⟨"foo.c", ["src/foo.c/a.c"]⟩, ⟨"net", ["src/net/proto/frame.c", "src/net/sock.c"]⟩]
        ["src/foo.c/a.c", "src/net/proto/frame.c", "src/net/sock.c", "src/main.c",
          "src/.gen.c"] := by
  refine ⟨sampleSources_located, linkFree_sampleSources, enterable_sampleSources,
    librariesFit_sampleSources, isText_sampleSources, ?_⟩
  obtain ⟨main, units, all, hmain, hunits, hall, hshares⟩ :=
    discover_shares sampleSources_located linkFree_sampleSources enterable_sampleSources
      librariesFit_sampleSources isText_sampleSources
  cases hmain
  cases hunits
  cases hall
  exact hshares

/-! ## Names that are no text, and paths that are too long -/

/-- A way of dots, which leads nowhere but may be long. -/
def dotted (n : Nat) : String :=
  "/".intercalate (List.replicate (n + 1) ".")

theorem dotted_succ (n : Nat) : dotted (n + 1) = "." ++ "/" ++ dotted n := by
  rw [dotted, List.replicate_succ,
    String.intercalate_cons_of_ne_nil (by rw [List.replicate_succ]; exact List.cons_ne_nil _ _)]
  rfl

theorem byteSize_dotted (n : Nat) : Text.byteSize (dotted n) = 2 * n + 1 := by
  induction n with
  | zero => rfl
  | succ n ih =>
    have hdot : Text.byteSize "." = 1 := rfl
    rw [dotted_succ, Text.byteSize_append_slash, ih, hdot]
    omega

theorem steps_dotted (n : Nat) : steps (dotted n) = List.replicate (n + 1) "." := by
  have hdot : ∀ piece ∈ List.replicate (n + 1) ".", '/' ∉ piece.toList := fun piece hpiece => by
    rw [List.eq_of_mem_replicate hpiece]
    decide
  rw [steps, dotted, pieces_intercalate (by simp) hdot]
  exact List.filter_eq_self.2 fun piece hpiece => by
    rw [List.eq_of_mem_replicate hpiece]
    decide

theorem isAbsolute_dotted (n : Nat) : Path.isAbsolute (dotted n) = false := by
  cases n with
  | zero => decide
  | succ n =>
    rw [dotted_succ, String.append_assoc, isAbsolute_append (by decide)]
    decide

/-- Dots before a name change nothing, if the path is not too long. -/
theorem locate_join_dotted {name : String} (hname : isEntryName name = true) (n : Nat)
    (hsize : 2 * n + Text.byteSize name + 2 < pathLimit)
    (h : s.locate name = .ok (place, .dir entries)) :
    s.locate (Path.join (dotted n) name) = .ok (place, .dir entries) := by
  have hstep := isStep_of_isEntryName hname
  have hrelative := isAbsolute_eq_false hstep.2
  have hdots : dotted n ≠ "" := by
    intro heq
    have hsteps := steps_dotted n
    rw [heq] at hsteps
    cases hsteps
  refine locate_congr_dots h ?_ ?_ ?_
  · obtain ⟨m, hjoin, -, hm⟩ := Text.exists_byteSize_join hdots hrelative
    rintro (hempty | hlong)
    · exact join_ne_empty hstep.1 hempty
    · rw [byteSize_dotted] at hm
      omega
  · rw [startOf_join_name hstep, startOf, startOf, isAbsolute_dotted, hrelative]
  · rw [steps_join_name hstep, steps_dotted, steps_of_isStep hstep, dotless_append]
    simp [dotless]

/-- A source directory with a library whose name ends in a byte that is no text. -/
def strayStore : Store :=
  let made := (Store.empty.putDir ["src"]).putDir ["src", "u\x00\u00e9"]
  made.putFile ["src", "u\x00\u00e9", "x.c"] .empty false

def strayEntries : List (String × Node) :=
  [("u\x00\u00e9", .dir [("x.c", .file .empty false)])]

theorem strayEntries_located : strayStore.locate "./src" = .ok (["src"], .dir strayEntries) := by
  rfl

/-- A source directory with a library that has a name like any other. -/
def libraryStore : Store :=
  let made := (Store.empty.putDir ["src"]).putDir ["src", "library"]
  made.putFile ["src", "library", "x.c"] .empty false

def libraryEntries : List (String × Node) :=
  [("library", .dir [("x.c", .file .empty false)])]

theorem libraryEntries_located :
    libraryStore.locate (Path.join (dotted 2045) Layout.sourceDir) =
      .ok (["src"], .dir libraryEntries) :=
  locate_join_dotted isEntryName_sourceDir 2045 (by decide) (by rfl)

theorem not_enterable_libraryEntries :
    ¬ Enterable true (Path.join (dotted 2045) Layout.sourceDir) libraryEntries := by
  intro h
  have hname : isEntryName "library" = true := by decide
  have hrelative := isAbsolute_eq_false (isStep_of_isEntryName hname).2
  refine h ["library"]
    (.entry List.mem_cons_self (by decide +kernel) (.top _)) (.inl rfl) (.inr ?_)
  have hne : Path.join (dotted 2045) Layout.sourceDir ≠ "" := join_ne_empty (by decide)
  obtain ⟨n, hjoin, hn, -⟩ := Text.exists_byteSize_join hne hrelative
  have hbase := Text.byteSize_le_join (by decide : Path.isAbsolute Layout.sourceDir = false)
    (dotted 2045)
  have hsize : Text.byteSize "library" = 7 := rfl
  rw [byteSize_dotted] at hbase
  rw [List.foldl_cons, List.foldl_nil, hjoin, hsize, pathLimit]
  omega

/-- The scans fail where the name of a library is no text, though all paths fit, and where a path is
too long, though all names are text. -/
theorem libraries_not_shared :
    (¬ ∀ (s : Store) (base : String) (place : Place) (entries : List (String × Node)),
      s.locate (Path.join base Layout.sourceDir) = .ok (place, .dir entries) →
      (Node.dir entries).LinkFree →
      (∀ e ∈ (Node.dir entries).descendants,
        Fits (e.1.foldl Path.join (Path.join base Layout.sourceDir))) →
      ∃ main units all, discover base Layout.sourceDir false s = (.ok main, s) ∧
        discoverUnits base s = (.ok units, s) ∧
        discover base Layout.sourceDir true s = (.ok all, s) ∧ SharesOut s place main units all) ∧
    ¬ ∀ (s : Store) (base : String) (place : Place) (entries : List (String × Node)),
      s.locate (Path.join base Layout.sourceDir) = .ok (place, .dir entries) →
      (Node.dir entries).LinkFree → (∀ e ∈ (Node.dir entries).descendants, IsText e.1) →
      ∃ main units all, discover base Layout.sourceDir false s = (.ok main, s) ∧
        discoverUnits base s = (.ok units, s) ∧
        discover base Layout.sourceDir true s = (.ok all, s) ∧
        SharesOut s place main units all := by
  constructor
  · intro h
    obtain ⟨main, units, all, -, hunits, -⟩ := h strayStore "." ["src"] strayEntries
      strayEntries_located (linkFree_of_descendants strayEntries_located (by decide))
      (by decide +kernel)
    have hfails : (discoverUnits "." strayStore).1.isOk = false := by decide +kernel
    rw [hunits] at hfails
    cases hfails
  · intro h
    obtain ⟨main, units, all, -, -, hall, -⟩ := h libraryStore (dotted 2045) ["src"] libraryEntries
      libraryEntries_located (linkFree_of_descendants libraryEntries_located (by decide +kernel))
      (by decide +kernel)
    obtain ⟨-, place, node, hlocate, henter⟩ := enterable_of_discover hall
    rw [libraryEntries_located] at hlocate
    cases hlocate
    exact not_enterable_libraryEntries (henter _ rfl)

end Autotree.Sources
