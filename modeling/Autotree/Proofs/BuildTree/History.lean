import Autotree.Proofs.BuildTree.Configuration
import Autotree.Proofs.BuildTree.Descriptors

/-!
# Generating again and again

Between two runs the sources of a project are edited, and each run copies them over those of its
build tree.  Nothing is ever removed there, and the layout is read off the build tree: so a run
lists every source that the project had when the tree was generated, at any time
(`sources_accumulate`).  It lists those of the project alone exactly when none of the earlier ones
is gone.
-/

namespace Autotree

namespace Store

variable {s : Store} {dir : Place} {name : String}

/-- A change of the store at one place and below it that adds no link. -/
structure EditedAt (place : Place) (s t : Store) : Prop where
  cwd_eq : t.cwd = s.cwd
  linkFree : t.LinkFree
  at?_eq : ∀ q, ¬ place <+: q → t.at? q = s.at? q

/-- Removing an entry of a directory edits the directory. -/
theorem editedAt_erase (hdir : s.at? dir = some .dir) (hname : isEntryName name = true)
    (hbelow : s.at? (dir ++ [name]) ≠ some .dir) (hfree : s.LinkFree) :
    EditedAt dir s (s.erase (dir ++ [name])) := by
  have hchange : Confined (fun q => q = dir ++ [name]) (fun _ => False) s
      (s.erase (dir ++ [name])) := erase_confined hdir hname hbelow rfl
  refine ⟨cwd_erase _, hchange.linkFree hfree, ?_⟩
  intro q hq
  rw [at?_erase hdir hname hbelow, if_neg]
  rintro rfl
  exact hq (List.prefix_append _ _)

end Store

namespace BuildTree

open Autotree.Action FileAction Machine Stateful Store

variable {m : Manifest} {host : Host} {prepared : Prepared} {g : Generation} {σ τ : Machine}
  {s t : Store} {p : Place} {runs : List (Generation × Store)}

/-! ## The sources of a project and of its tree -/

/-- The sources that a project has. -/
def InProject (m : Manifest) (s : Store) (p : Place) : Prop :=
  Sources.HasSource s (s.placeOf (Path.join m.root Layout.sourceDir)) p

/-- The sources that its build tree has. -/
def InTree (m : Manifest) (s : Store) (p : Place) : Prop :=
  Sources.HasSource s (s.placeOf (Path.join m.buildDir Layout.sourceDir)) p

/-- The build tree and the sources of the project are apart. -/
def Separate (m : Manifest) (s : Store) : Prop :=
  Apart (s.placeOf (Path.join m.root Layout.sourceDir)) (s.placeOf m.buildDir)

theorem hasSource_congr {place : Place} (h : t.fileAt (place ++ p) = s.fileAt (place ++ p)) :
    Sources.HasSource t place p ↔ Sources.HasSource s place p := by
  unfold Sources.HasSource
  rw [h]

theorem Separate.congr (h : Separate m s) (hcwd : t.cwd = s.cwd) : Separate m t := by
  unfold Separate at h ⊢
  rwa [placeOf_eq, placeOf_eq, hcwd]

/-- The sources of the tree are apart from those of the project. -/
theorem Separate.apart (h : Separate m s) :
    Apart (s.placeOf (Path.join m.root Layout.sourceDir))
      (s.placeOf (Path.join m.buildDir Layout.sourceDir)) := by
  have hbelow := Apart.append h [] [Layout.sourceDir]
  rw [List.append_nil, placeOf_eq s m.buildDir, ← placeIn_join Sources.isEntryName_sourceDir]
    at hbelow
  exact hbelow

theorem inProject_congr (hcwd : t.cwd = s.cwd)
    (h : t.fileAt (s.placeOf (Path.join m.root Layout.sourceDir) ++ p) =
      s.fileAt (s.placeOf (Path.join m.root Layout.sourceDir) ++ p)) :
    InProject m t p ↔ InProject m s p := by
  unfold InProject
  rw [placeOf_eq t, hcwd]
  exact hasSource_congr h

theorem inTree_congr (hcwd : t.cwd = s.cwd)
    (h : t.fileAt (s.placeOf (Path.join m.buildDir Layout.sourceDir) ++ p) =
      s.fileAt (s.placeOf (Path.join m.buildDir Layout.sourceDir) ++ p)) :
    InTree m t p ↔ InTree m s p := by
  unfold InTree
  rw [placeOf_eq t, hcwd]
  exact hasSource_congr h

/-! ## One run -/

/-- What a run that succeeds makes of the sources. -/
structure Regenerates (m : Manifest) (g : Generation) (s t : Store) : Prop where
  cwd_eq : t.cwd = s.cwd
  linkFree : t.LinkFree
  inProject_iff : ∀ p, InProject m t p ↔ InProject m s p
  inTree_iff : ∀ p, InTree m t p ↔ InProject m s p ∨ InTree m s p
  mem_sources_iff : (∀ p, InTree m t p → Listable m.buildDir p) →
    ∀ text, text ∈ g.layout.sources ↔ ∃ p, Sources.sourceName p = text ∧ InTree m t p
  makefile : t.at? (t.placeOf (Path.join m.buildDir Layout.makeFile)) =
    some (.file (Descriptor.makefile g.project m.build g.defines g.layout).toUTF8 false)

theorem regenerates_of_write (hfree : σ.store.LinkFree) (hapart : Separate m σ.store)
    (h : write m prepared σ = (.ok g, τ)) : Regenerates m g σ.store τ.store := by
  obtain ⟨υ, ω, hcopy, hlayout, hcopied, hlater⟩ := confined_of_write hfree h
  have hover := overlaid_of_copySources hfree hapart.apart hcopy
  have hwrites := writes_of_ok hfree h
  have hcwd := hlater.cwd_eq.trans hcopied.cwd_eq
  have hfree' := hcopied.linkFree hfree
  -- the sources of the project are not below the build tree
  have hproject : ∀ p, InProject m τ.store p ↔ InProject m σ.store p := fun p => by
    have hnot : ¬ placeIn σ.store.cwd m.buildDir <+:
        σ.store.placeOf (Path.join m.root Layout.sourceDir) ++ p := by
      have happend := hapart.not_prefix_append p []
      rwa [List.append_nil, placeOf_eq σ.store m.buildDir] at happend
    refine inProject_congr hcwd ?_
    rw [hlater.fileAt_eq fun hin => hnot hin.below, hcopied.fileAt_eq fun hin => hnot hin.below]
  -- and those of the tree stay once they were copied
  have htree : ∀ p, InTree m τ.store p ↔ InTree m υ.store p := fun p => by
    refine inTree_congr hlater.cwd_eq (hlater.fileAt_eq ?_)
    rw [placeOf_eq, hcopied.cwd_eq, placeIn_join Sources.isEntryName_sourceDir, List.append_assoc]
    exact not_inEntries (by decide) _ p
  have hcopies : ∀ p, InTree m υ.store p ↔ InProject m σ.store p ∨ InTree m σ.store p := fun p => by
    unfold InTree InProject Sources.HasSource
    rw [placeOf_eq υ.store, hcopied.cwd_eq, ← placeOf_eq σ.store, hover p, Option.isSome_or,
      Bool.or_eq_true, or_and_right]
  have hends := hlater.linkFree hfree'
  refine ⟨hcwd, hends, hproject, fun p => (htree p).trans (hcopies p), ?_, ?_⟩
  · intro hlistable text
    rw [sources_of_discoverLayout hfree' (fun p hp => hlistable p ((htree p).2 hp)) hlayout]
    exact exists_congr fun p => by rw [htree p, and_comm]; rfl
  · rw [placeOf_eq, hcwd, hwrites.project_eq, hwrites.defines_eq]
    exact hwrites.makefile

/-- A run with a host that leaves the files alone. -/
theorem regenerates_of_generate (hhost : host.LeavesFiles) (hfree : σ.store.LinkFree)
    (hapart : Separate m σ.store) (h : generate m host σ = (.ok g, τ)) :
    Regenerates m g σ.store τ.store := by
  obtain ⟨prepared, ρ, hprepare, hwrite⟩ := bind_eq_ok.1 h
  have hstore := store_of_prepare hhost hprepare
  rw [← hstore] at hfree hapart ⊢
  exact regenerates_of_write hfree hapart hwrite

/-! ## Histories -/

/-- Edits of the sources of a project between runs that succeed.  A history tells what each run
gave, and the store as it left it. -/
inductive History (m : Manifest) (σ : Machine) : List (Generation × Store) → Machine → Prop where
  | start : History m σ [] σ
  | edit {runs : List (Generation × Store)} {τ : Machine} {s : Store} (before : History m σ runs τ)
      (edited : EditedAt (τ.store.placeOf (Path.join m.root Layout.sourceDir)) τ.store s) :
      History m σ runs { τ with store := s }
  | generate {runs : List (Generation × Store)} {host : Host} {τ υ : Machine} {g : Generation}
      (before : History m σ runs τ) (hostLeavesFiles : host.LeavesFiles)
      (succeeded : generate m host τ = (.ok g, υ)) : History m σ (runs ++ [(g, υ.store)]) υ

/-- The sources of a project at the end of some run. -/
def InSomeRun (m : Manifest) (runs : List (Generation × Store)) (p : Place) : Prop :=
  ∃ run ∈ runs, InProject m run.2 p

theorem inSomeRun_append {run : Generation × Store} :
    InSomeRun m (runs ++ [run]) p ↔ InSomeRun m runs p ∨ InProject m run.2 p := by
  unfold InSomeRun
  simp only [List.mem_append, List.mem_singleton, or_and_right, exists_or, exists_eq_left]

/-- An edit of the project does not reach the build tree. -/
theorem inTree_of_editedAt (hapart : Separate m s)
    (h : EditedAt (s.placeOf (Path.join m.root Layout.sourceDir)) s t) :
    InTree m t p ↔ InTree m s p := by
  refine inTree_congr h.cwd_eq (fileAt_of_at?_eq (h.at?_eq _ ?_))
  have hnot := hapart.apart.symm.not_prefix_append p []
  rwa [List.append_nil] at hnot

/-- What a history keeps: no link stands, and the build tree has the sources that it began with and
those of the project at every run. -/
structure Accumulated (m : Manifest) (σ : Machine) (runs : List (Generation × Store))
    (τ : Machine) : Prop where
  cwd_eq : τ.store.cwd = σ.store.cwd
  linkFree : τ.store.LinkFree
  inTree_iff : ∀ p, InTree m τ.store p ↔ InTree m σ.store p ∨ InSomeRun m runs p

theorem accumulated_of_history (hfree : σ.store.LinkFree) (hapart : Separate m σ.store)
    (h : History m σ runs τ) : Accumulated m σ runs τ := by
  induction h with
  | start => exact ⟨rfl, hfree, fun p => by simp [InSomeRun]⟩
  | @edit runs τ s _ hedited ih =>
    refine ⟨hedited.cwd_eq.trans ih.cwd_eq, hedited.linkFree, ?_⟩
    intro p
    exact (inTree_of_editedAt (hapart.congr ih.cwd_eq) hedited).trans (ih.inTree_iff p)
  | @generate runs host τ υ g _ hhost hrun ih =>
    have hregenerates :=
      regenerates_of_generate hhost ih.linkFree (hapart.congr ih.cwd_eq) hrun
    refine ⟨hregenerates.cwd_eq.trans ih.cwd_eq, hregenerates.linkFree, ?_⟩
    intro p
    rw [hregenerates.inTree_iff, ih.inTree_iff, inSomeRun_append, hregenerates.inProject_iff,
      or_comm, or_assoc]

/-- The last run of a history is one of its steps. -/
theorem exists_run_of_history {run : Generation × Store}
    (h : History m σ (runs ++ [run]) τ) :
    ∃ host ρ υ, History m σ runs ρ ∧ host.LeavesFiles ∧ generate m host ρ = (.ok run.1, υ) ∧
      υ.store = run.2 := by
  generalize hall : runs ++ [run] = all at h
  induction h with
  | start => exact absurd hall (by simp)
  | edit _ _ ih => exact ih hall
  | @generate runs' host ρ υ g before hhost hrun _ =>
    obtain ⟨rfl, hlast⟩ := List.append_inj' hall rfl
    obtain rfl := List.singleton_inj.1 hlast
    exact ⟨host, ρ, υ, before, hhost, hrun, rfl⟩

/-- After every run of a history, `Makefile.am` is written for a layout that lists the sources which
the tree began with and all that the project had at a run so far, if each of them can be listed.
The layout lists those of the project alone exactly when each of the earlier ones is still there. -/
theorem sources_accumulate (m : Manifest) (σ τ : Machine) (runs : List (Generation × Store))
    (g : Generation) (t : Store) (hfree : σ.store.LinkFree) (hapart : Separate m σ.store)
    (h : History m σ (runs ++ [(g, t)]) τ)
    (hlistable : ∀ p, InProject m t p ∨ InTree m σ.store p ∨ InSomeRun m runs p →
      Listable m.buildDir p) :
    t.at? (t.placeOf (Path.join m.buildDir Layout.makeFile)) =
        some (.file (Descriptor.makefile g.project m.build g.defines g.layout).toUTF8 false) ∧
      (∀ text, text ∈ g.layout.sources ↔ ∃ p, Sources.sourceName p = text ∧
        (InProject m t p ∨ InTree m σ.store p ∨ InSomeRun m runs p)) ∧
      ((∀ text, text ∈ g.layout.sources ↔ ∃ p, Sources.sourceName p = text ∧ InProject m t p) ↔
        ∀ p, InTree m σ.store p ∨ InSomeRun m runs p → InProject m t p) := by
  obtain ⟨host, ρ, υ, before, hhost, hrun, rfl⟩ := exists_run_of_history h
  have hbefore := accumulated_of_history hfree hapart before
  have hregenerates :=
    regenerates_of_generate hhost hbefore.linkFree (hapart.congr hbefore.cwd_eq) hrun
  have htree : ∀ p, InTree m υ.store p ↔
      InProject m υ.store p ∨ InTree m σ.store p ∨ InSomeRun m runs p := fun p => by
    rw [hregenerates.inTree_iff, hregenerates.inProject_iff, hbefore.inTree_iff]
  have hlisted : ∀ text, text ∈ g.layout.sources ↔ ∃ p, Sources.sourceName p = text ∧
      (InProject m υ.store p ∨ InTree m σ.store p ∨ InSomeRun m runs p) := fun text => by
    rw [hregenerates.mem_sources_iff fun p hp => hlistable p ((htree p).1 hp)]
    exact exists_congr fun p => and_congr_right fun _ => htree p
  refine ⟨hregenerates.makefile, hlisted, ?_, ?_⟩
  · intro hexact p hp
    obtain ⟨q, hname, hq⟩ := (hexact _).1 ((hlisted _).2 ⟨p, rfl, .inr hp⟩)
    have hnames : ∀ name ∈ p, isEntryName name = true := by
      rcases hp with hp | ⟨run, -, hp⟩
      · exact Sources.HasSource.isEntryName hp
      · exact Sources.HasSource.isEntryName hp
    rwa [← Sources.sourceName_injective (Sources.HasSource.isEntryName hq) hnames
      (hlistable q (.inl hq)).1 (hlistable p (.inr hp)).1 hname]
  · intro hkept text
    rw [hlisted]
    refine exists_congr fun p => and_congr_right fun _ => ?_
    exact ⟨fun h => h.elim id (hkept p), .inl⟩

/-! ## A source that was removed -/

/-- The small project with a second source. -/
def twoSources : Machine where
  store := smallStore.putFile ["p", "src", "old.c"] "int old;\n".toUTF8 false

/-- What generating gives as long as the build tree has both sources. -/
def bothGeneration : Generation :=
  { smallGeneration with layout := ⟨["src/main.c", "src/old.c"], []⟩ }

/-- The machine after a first run. -/
def onceGenerated : Machine :=
  (generate smallManifest readyHost twoSources).2

/-- Then the second source is removed from the project. -/
def sourceRemoved : Machine :=
  { onceGenerated with store := onceGenerated.store.erase ["p", "src", "old.c"] }

/-- And the tree is generated again. -/
def twiceGenerated : Machine :=
  (generate smallManifest readyHost sourceRemoved).2

theorem leavesFiles_readyHost : readyHost.LeavesFiles := fun _ _ => rfl

theorem generate_twoSources :
    generate smallManifest readyHost twoSources = (.ok bothGeneration, onceGenerated) := by
  have hok : (generate smallManifest readyHost twoSources).1 = .ok bothGeneration := by
    decide +kernel
  rw [← hok]
  exact (Prod.eta _).symm

theorem generate_sourceRemoved :
    generate smallManifest readyHost sourceRemoved = (.ok bothGeneration, twiceGenerated) := by
  have hok : (generate smallManifest readyHost sourceRemoved).1 = .ok bothGeneration := by
    decide +kernel
  rw [← hok]
  exact (Prod.eta _).symm

theorem editedAt_sourceRemoved :
    EditedAt (onceGenerated.store.placeOf (Path.join smallManifest.root Layout.sourceDir))
      onceGenerated.store sourceRemoved.store := by
  have hplace : onceGenerated.store.placeOf (Path.join smallManifest.root Layout.sourceDir) =
      ["p", "src"] := by decide +kernel
  have hdir : onceGenerated.store.at? ["p", "src"] = some .dir := by decide +kernel
  have hbelow : onceGenerated.store.at? (["p", "src"] ++ ["old.c"]) ≠ some .dir := by
    decide +kernel
  have hfree : onceGenerated.store.LinkFree := by decide +kernel
  rw [hplace]
  exact editedAt_erase hdir (by decide) hbelow hfree

theorem history_twiceGenerated : History smallManifest twoSources
    ([(bothGeneration, onceGenerated.store)] ++ [(bothGeneration, twiceGenerated.store)])
    twiceGenerated :=
  .generate (.edit (.generate .start leavesFiles_readyHost generate_twoSources)
    editedAt_sourceRemoved) leavesFiles_readyHost generate_sourceRemoved

theorem linkFree_twoSources : twoSources.store.LinkFree := by decide +kernel

theorem separate_twoSources : Separate smallManifest twoSources.store := by
  unfold Separate Apart
  decide +kernel

/-- The sources of the project and of its tree, at any time. -/
theorem listable_twiceGenerated (p : Place) (h : InProject smallManifest twiceGenerated.store p ∨
    InTree smallManifest twoSources.store p ∨
      InSomeRun smallManifest [(bothGeneration, onceGenerated.store)] p) :
    Listable smallManifest.buildDir p := by
  rcases h with h | h | ⟨run, hrun, h⟩
  · exact h.of_descendants (by decide +kernel)
  · exact h.of_descendants (by decide +kernel)
  · obtain rfl := List.mem_singleton.1 hrun
    exact h.of_descendants (by decide +kernel)

theorem small_sources_accumulate :
    twoSources.store.LinkFree ∧ Separate smallManifest twoSources.store ∧
      (∀ p, InProject smallManifest twiceGenerated.store p ∨
        InTree smallManifest twoSources.store p ∨
          InSomeRun smallManifest [(bothGeneration, onceGenerated.store)] p →
        Listable smallManifest.buildDir p) ∧
      ∃ p, Sources.sourceName p = "src/old.c" ∧
        (InProject smallManifest twiceGenerated.store p ∨
          InTree smallManifest twoSources.store p ∨
          InSomeRun smallManifest [(bothGeneration, onceGenerated.store)] p) := by
  obtain ⟨-, hlisted, -⟩ := sources_accumulate smallManifest twoSources twiceGenerated _
    bothGeneration _ linkFree_twoSources separate_twoSources history_twiceGenerated
    listable_twiceGenerated
  exact ⟨linkFree_twoSources, separate_twoSources, listable_twiceGenerated,
    (hlisted "src/old.c").1 (by decide)⟩

/-- A source that was removed from the project stays listed. -/
theorem removed_source_stays_listed :
    ¬ ∀ (m : Manifest) (σ τ : Machine) (runs : List (Generation × Store)) (g : Generation)
      (t : Store), σ.store.LinkFree → Separate m σ.store → History m σ (runs ++ [(g, t)]) τ →
        (∀ p, InProject m t p ∨ InTree m σ.store p ∨ InSomeRun m runs p →
          Listable m.buildDir p) →
        ∀ text, text ∈ g.layout.sources ↔
          ∃ p, Sources.sourceName p = text ∧ InProject m t p := by
  intro h
  obtain ⟨p, hname, hp⟩ := (h smallManifest twoSources twiceGenerated _ bothGeneration _
    linkFree_twoSources separate_twoSources history_twiceGenerated listable_twiceGenerated
    "src/old.c").1 (by decide)
  have hnames : ∀ name ∈ ["old.c"], isEntryName name = true := by decide
  have hsame : Sources.sourceName p = Sources.sourceName ["old.c"] := by
    rw [hname]
    decide
  obtain rfl := Sources.sourceName_injective (Sources.HasSource.isEntryName hp) hnames
    (listable_twiceGenerated p (.inl hp)).1 (by decide) hsame
  have hgone : (twiceGenerated.store.fileAt
      (twiceGenerated.store.placeOf (Path.join smallManifest.root Layout.sourceDir) ++
        ["old.c"])).isSome = false := by decide +kernel
  rw [hp.1] at hgone
  cases hgone

end BuildTree

end Autotree
