import Autotree.Proofs.BuildTree.Mirror

/-!
# The descriptors of a failed and of a finished write

Copies never reach the descriptors of a build tree, and each descriptor is replaced in one step.
So after a failure each of them is what it was (`Kept`), except that `configure.ac` is new when
writing `Makefile.am` is what failed (`FailsAtMakefile`); and after a success both are new
(`write_leaves_whole_descriptors`).  Only a build tree whose own path leads through the name of a
descriptor can find a directory made there (`makefile_made_on_way`).
-/

namespace Autotree.BuildTree

open Autotree.Action FileAction Machine Stateful Store

variable {m : Manifest} {prepared : Prepared} {g : Generation} {σ τ υ : Machine}
  {s t u : Store} {e : Failure} {layout : Layout} {names : List String} {name dir text : String}

/-! ## The ends of a write -/

/-- The directories of a build tree that are copied to. -/
def copiedNames : List String :=
  mirroredNames ++ [Layout.macroDir]

/-- A write whose failure is that of writing `Makefile.am`: the steps before it succeed. -/
def FailsAtMakefile (m : Manifest) (prepared : Prepared) (e : Failure) (σ τ : Machine) : Prop :=
  ∃ σ₁ σ₂ σ₃ layout text s, copySources m.root m.buildDir σ = (.ok (), σ₁) ∧
    discoverLayout m.buildDir σ₁ = (.ok layout, σ₂) ∧
    Descriptor.configure prepared.project m.build.libs = .ok text ∧
    installMacros m.macroDir m.buildDir σ₂ = (.ok (), σ₃) ∧
    writeAtomic (Path.join m.buildDir Layout.configureFile) text σ₃.store = (.ok (), s) ∧
    writeAtomic (Path.join m.buildDir Layout.makeFile)
      (Descriptor.makefile prepared.project m.build prepared.defines layout) s = (.error e, τ.store)

/-- A write that fails does so before the descriptors, or when it replaces one of them. -/
theorem write_eq_error (cwd : Place) (h : write m prepared σ = (.error e, τ)) :
    Within copiedNames cwd m.buildDir σ τ ∨
    ∃ υ text, Within copiedNames cwd m.buildDir σ υ ∧
      Descriptor.configure prepared.project m.build.libs = .ok text ∧
      (writeAtomic (Path.join m.buildDir Layout.configureFile) text υ.store =
          (.error e, τ.store) ∨
        ∃ s makefile,
          writeAtomic (Path.join m.buildDir Layout.configureFile) text υ.store = (.ok (), s) ∧
          writeAtomic (Path.join m.buildDir Layout.makeFile) makefile s = (.error e, τ.store) ∧
          FailsAtMakefile m prepared e σ τ) := by
  have hcopied : Within copiedNames cwd m.buildDir σ (copySources m.root m.buildDir σ).2 :=
    (keeps_copySources m.root m.buildDir σ).mono (List.subset_append_left _ _)
  rcases bind_eq_error.1 h with h | ⟨_, σ₁, hcopy, hrest⟩
  · rw [h] at hcopied
    exact .inl hcopied
  rw [hcopy] at hcopied
  have hlayout := hcopied.trans (.of_store_eq (keeps_discoverLayout m.buildDir σ₁))
  rcases bind_eq_error.1 hrest with h | ⟨layout, σ₂, hdiscover, hrest⟩
  · rw [h] at hlayout
    exact .inl hlayout
  rw [hdiscover] at hlayout
  rcases bind_eq_error.1 hrest with h | ⟨text, σ₃, hconfigure, hrest⟩
  · rw [ofExcept_apply, Prod.mk.injEq] at h
    rw [h.2] at hlayout
    exact .inl hlayout
  obtain ⟨htext, hsame⟩ := ofExcept_eq_ok hconfigure
  rw [← hsame] at hlayout hdiscover
  have hmacros : Within copiedNames cwd m.buildDir σ (installMacros m.macroDir m.buildDir σ₃).2 :=
    hlayout.trans ((keeps_installMacros m.macroDir m.buildDir σ₃).mono
      (List.subset_append_right _ _))
  rcases bind_eq_error.1 hrest with h | ⟨_, σ₄, hinstall, hrest⟩
  · rw [h] at hmacros
    exact .inl hmacros
  rw [hinstall] at hmacros
  refine .inr ⟨σ₄, text, hmacros, htext, ?_⟩
  rcases bind_eq_error.1 hrest with h | ⟨_, σ₅, hfirst, hrest⟩
  · exact .inl (onStore_eq h).1
  rcases bind_eq_error.1 hrest with h | ⟨_, σ₆, hsecond, hrest⟩
  · have hconfigured := (onStore_eq hfirst).1
    have hmakefile := (onStore_eq h).1
    exact .inr ⟨_, _, hconfigured, hmakefile, σ₁, _, σ₄, layout, text, _, hcopy, hdiscover, htext,
      hinstall, hconfigured, hmakefile⟩
  -- what comes after the descriptors does not fail
  cases hrest

/-! ## What stays -/

/-- The same things stand at a place and below it, but for directories that were made on the way
to the build tree. -/
def Kept (dir : String) (s t : Store) (place : Place) : Prop :=
  ∀ q, t.at? (place ++ q) = s.at? (place ++ q) ∨
    OnWay s.cwd dir (place ++ q) ∧ Made s t (place ++ q)

/-- Changes in other entries of a build tree keep one. -/
theorem kept_of_confined (h : Confined (InEntries names (placeIn s.cwd dir)) (OnWay s.cwd dir) s t)
    (hname : name ∉ names) : Kept dir s t (placeIn s.cwd dir ++ [name]) := by
  intro q
  rw [List.append_assoc]
  rcases h.at?_or (placeIn s.cwd dir ++ name :: q) with heq | hin | hmade
  · exact .inl heq
  · exact absurd hin (not_inEntries hname _ q)
  · exact .inr hmade

theorem Kept.congr {place : Place} (h : Kept dir s t place) (hat : ∀ q, u.at? q = t.at? q) :
    Kept dir s u place := by
  intro q
  unfold Made
  rw [hat]
  exact h q

/-- How a write ends that fails: `Makefile.am` is kept, and `configure.ac` is kept as well, or new
as a whole when writing `Makefile.am` is what failed. -/
structure LeavesWhole (m : Manifest) (prepared : Prepared) (e : Failure) (σ τ : Machine) :
    Prop where
  makefile : Kept m.buildDir σ.store τ.store
    (σ.store.placeOf (Path.join m.buildDir Layout.makeFile))
  configure : Kept m.buildDir σ.store τ.store
      (σ.store.placeOf (Path.join m.buildDir Layout.configureFile)) ∨
    FailsAtMakefile m prepared e σ τ ∧
      ∃ text, Descriptor.configure prepared.project m.build.libs = .ok text ∧
        τ.store.at? (σ.store.placeOf (Path.join m.buildDir Layout.configureFile)) =
          some (.file text.toUTF8 false)

/-- How a write ends that succeeds: both descriptors hold their texts, for the layout that was found
in the copied tree. -/
structure Writes (m : Manifest) (prepared : Prepared) (σ : Machine) (g : Generation)
    (τ : Machine) : Prop where
  project_eq : g.project = prepared.project
  defines_eq : g.defines = prepared.defines
  dir_eq : g.dir = m.buildDir
  layout : ∃ υ ω, copySources m.root m.buildDir σ = (.ok (), υ) ∧
    discoverLayout m.buildDir υ = (.ok g.layout, ω)
  configure : ∃ text, Descriptor.configure prepared.project m.build.libs = .ok text ∧
    τ.store.at? (σ.store.placeOf (Path.join m.buildDir Layout.configureFile)) =
      some (.file text.toUTF8 false)
  makefile : τ.store.at? (σ.store.placeOf (Path.join m.buildDir Layout.makeFile)) =
    some (.file
      (Descriptor.makefile prepared.project m.build prepared.defines g.layout).toUTF8 false)

theorem isEntryName_configureFile : isEntryName Layout.configureFile = true := by decide

theorem isEntryName_makeFile : isEntryName Layout.makeFile = true := by decide

/-- Directories on the way of a build tree are among the changes of a write. -/
theorem confined_of_onlyWay {T : Place → Prop} {cwd : Place} (h : OnlyWay dir s t)
    (hcwd : s.cwd = cwd) : Confined T (OnWay cwd dir) s t := by
  subst hcwd
  exact h.mono (fun _ => False.elim) fun _ => .inl

/-- Replacing a descriptor changes its entry only. -/
theorem confined_of_replaced {cwd : Place} (hname : isEntryName name = true) (hmem : name ∈ names)
    (hfree : s.LinkFree) (hcwd : s.cwd = cwd)
    (h : writeAtomic (Path.join dir name) text s = (.ok (), t)) :
    Confined (InEntries names (placeIn cwd dir)) (OnWay cwd dir) s t := by
  obtain ⟨u, hway, hreplaced⟩ := writeAtomic_join_replaced hname hfree h
  refine (confined_of_onlyWay hway hcwd).trans (hreplaced.confined ?_)
  rw [placeOf_eq, hcwd]
  exact ⟨name, hmem, List.prefix_refl _⟩

theorem leavesWhole_of_error (hfree : σ.store.LinkFree)
    (h : write m prepared σ = (.error e, τ)) :
    LeavesWhole m prepared e σ τ := by
  have hconfigure := placeIn_join isEntryName_configureFile σ.store.cwd m.buildDir
  have hmake := placeIn_join isEntryName_makeFile σ.store.cwd m.buildDir
  rcases write_eq_error σ.store.cwd h with hwithin | ⟨υ, text, hwithin, htext, hend⟩
  · have hchange := hwithin hfree rfl
    refine ⟨?_, .inl ?_⟩
    · rw [placeOf_eq, hmake]
      exact kept_of_confined hchange (by decide)
    · rw [placeOf_eq, hconfigure]
      exact kept_of_confined hchange (by decide)
  have hchange := hwithin hfree rfl
  have hfree' := hchange.linkFree hfree
  rcases hend with hfirst | ⟨s, makefile, hfirst, hsecond, hfails⟩
  · -- neither descriptor was replaced
    obtain ⟨u, hway, hat⟩ := writeAtomic_join_error isEntryName_configureFile hfree' hfirst
    have hall := hchange.trans (confined_of_onlyWay hway hchange.cwd_eq)
    refine ⟨?_, .inl ?_⟩
    · rw [placeOf_eq, hmake]
      exact (kept_of_confined hall (by decide)).congr hat
    · rw [placeOf_eq, hconfigure]
      exact (kept_of_confined hall (by decide)).congr hat
  · -- the first one was
    obtain ⟨v, hway, hreplaced⟩ :=
      writeAtomic_join_replaced isEntryName_configureFile hfree' hfirst
    have hsub : copiedNames ⊆ Layout.configureFile :: copiedNames := List.subset_cons_self _ _
    have hmem : Layout.configureFile ∈ Layout.configureFile :: copiedNames := List.mem_cons_self
    have hchange' :=
      confined_of_replaced isEntryName_configureFile hmem hfree' hchange.cwd_eq hfirst
    have hall := (hchange.mono (fun _ hq => hq.mono hsub) fun _ => .inl).trans hchange'
    obtain ⟨u, hway', hat⟩ :=
      writeAtomic_join_error isEntryName_makeFile (hall.linkFree hfree) hsecond
    have hend := hall.trans (confined_of_onlyWay hway' hall.cwd_eq)
    refine ⟨?_, .inr ?_⟩
    · rw [placeOf_eq, hmake]
      exact (kept_of_confined hend (by decide)).congr hat
    · refine ⟨hfails, text, htext, ?_⟩
      rw [hat, placeOf_eq, hconfigure]
      refine Confined.at?_eq_some hway' id ?_
      rw [hreplaced.at?_eq, placeOf_eq, hchange.cwd_eq, if_pos rfl]

/-- The entries of a build tree that change once its layout is known. -/
def laterNames : List String :=
  [Layout.macroDir, Layout.configureFile, Layout.makeFile]

/-- A write that succeeds copies the sources, finds the layout, changes other entries and replaces
the descriptors. -/
theorem changes_of_write (hfree : σ.store.LinkFree) (h : write m prepared σ = (.ok g, τ)) :
    ∃ υ ω s t text, copySources m.root m.buildDir σ = (.ok (), υ) ∧
      discoverLayout m.buildDir υ = (.ok g.layout, ω) ∧
      Confined (InEntries mirroredNames (placeIn σ.store.cwd m.buildDir))
        (OnWay σ.store.cwd m.buildDir) σ.store υ.store ∧
      Confined (InEntries laterNames (placeIn σ.store.cwd m.buildDir))
        (OnWay σ.store.cwd m.buildDir) υ.store s ∧
      Descriptor.configure prepared.project m.build.libs = .ok text ∧
      writeAtomic (Path.join m.buildDir Layout.configureFile) text s = (.ok (), t) ∧
      writeAtomic (Path.join m.buildDir Layout.makeFile)
        (Descriptor.makefile prepared.project m.build prepared.defines g.layout) t =
          (.ok (), τ.store) := by
  obtain ⟨σ₁, σ₂, σ₃, s, text, hcopy, hlayout, htext, hmacros, hfirst, hsecond, -⟩ := write_eq_ok h
  have hcopied := keeps_copySources m.root m.buildDir σ hfree rfl
  rw [hcopy] at hcopied
  have hsame := keeps_discoverLayout m.buildDir σ₁
  rw [hlayout] at hsame
  have hinstalled : Within [Layout.macroDir] σ.store.cwd m.buildDir σ₂
      (installMacros m.macroDir m.buildDir σ₂).2 := keeps_installMacros m.macroDir m.buildDir σ₂
  rw [hmacros] at hinstalled
  have hlater : Within laterNames σ.store.cwd m.buildDir σ₁ σ₃ :=
    (Within.of_store_eq hsame).trans (hinstalled.mono (by decide))
  exact ⟨σ₁, σ₂, σ₃.store, s, text, hcopy, hlayout, hcopied,
    hlater (hcopied.linkFree hfree) hcopied.cwd_eq, htext, hfirst, hsecond⟩

/-- Once the layout is known, a write that succeeds changes other entries only. -/
theorem confined_of_write (hfree : σ.store.LinkFree) (h : write m prepared σ = (.ok g, τ)) :
    ∃ υ ω, copySources m.root m.buildDir σ = (.ok (), υ) ∧
      discoverLayout m.buildDir υ = (.ok g.layout, ω) ∧
      Confined (InEntries mirroredNames (placeIn σ.store.cwd m.buildDir))
        (OnWay σ.store.cwd m.buildDir) σ.store υ.store ∧
      Confined (InEntries laterNames (placeIn σ.store.cwd m.buildDir))
        (OnWay σ.store.cwd m.buildDir) υ.store τ.store := by
  obtain ⟨υ, ω, s, t, text, hcopy, hlayout, hcopied, hlater, -, hfirst, hsecond⟩ :=
    changes_of_write hfree h
  have hfree₁ := hlater.linkFree (hcopied.linkFree hfree)
  have hcwd₁ := hlater.cwd_eq.trans hcopied.cwd_eq
  have hconfigure : Layout.configureFile ∈ laterNames := by decide
  have hmake : Layout.makeFile ∈ laterNames := by decide
  have hchange := confined_of_replaced isEntryName_configureFile hconfigure hfree₁ hcwd₁ hfirst
  have hchange' := confined_of_replaced isEntryName_makeFile hmake (hchange.linkFree hfree₁)
    (hchange.cwd_eq.trans hcwd₁) hsecond
  exact ⟨υ, ω, hcopy, hlayout, hcopied, (hlater.trans hchange).trans hchange'⟩

theorem writes_of_ok (hfree : σ.store.LinkFree) (h : write m prepared σ = (.ok g, τ)) :
    Writes m prepared σ g τ := by
  obtain ⟨hproject, hdefines, hdir, -⟩ := descriptors_of_write h
  obtain ⟨υ, ω, s, t, text, hcopy, hlayout, hcopied, hlater, htext, hfirst, hsecond⟩ :=
    changes_of_write hfree h
  have hbefore := hlater.cwd_eq.trans hcopied.cwd_eq
  have hfree' := hlater.linkFree (hcopied.linkFree hfree)
  obtain ⟨u, hway, hconfigure⟩ :=
    writeAtomic_join_replaced isEntryName_configureFile hfree' hfirst
  have hcwd := hconfigure.cwd_eq.trans hway.cwd_eq
  have hchange := confined_of_replaced isEntryName_configureFile
    (List.mem_singleton_self Layout.configureFile) hfree' rfl hfirst
  obtain ⟨v, -, hmake⟩ :=
    writeAtomic_join_replaced isEntryName_makeFile (hchange.linkFree hfree') hsecond
  have hchange' := confined_of_replaced isEntryName_makeFile
    (List.mem_singleton_self Layout.makeFile) (hchange.linkFree hfree') (hcwd.trans hbefore) hsecond
  refine ⟨hproject, hdefines, hdir, ⟨υ, ω, hcopy, hlayout⟩, ⟨text, htext, ?_⟩, ?_⟩
  · rw [placeOf_eq, placeIn_join isEntryName_configureFile]
    refine hchange'.at?_eq_some (not_inEntries (by decide) _ []) ?_
    rw [hconfigure.at?_eq, placeOf_eq, hbefore, if_pos rfl]
  · rw [placeOf_eq, placeIn_join isEntryName_makeFile, hmake.at?_eq, placeOf_eq, hcwd, hbefore,
      if_pos rfl]

/-- Where no link stands, a write that succeeds leaves both descriptors with their texts for the
layout it found, one that fails leaves `Makefile.am` alone and `configure.ac` old or new as a whole,
and without sources nothing is changed. -/
theorem write_leaves_whole_descriptors (m : Manifest) (prepared : Prepared) (σ : Machine)
    (hfree : σ.store.LinkFree) :
    (∀ g τ, write m prepared σ = (.ok g, τ) → Writes m prepared σ g τ) ∧
    (∀ e τ, write m prepared σ = (.error e, τ) → LeavesWhole m prepared e σ τ) ∧
    (σ.store.isDir (Path.join m.root Layout.sourceDir) = false →
      write m prepared σ = (.error (.sourceNotFound (Path.join m.root Layout.sourceDir)), σ)) := by
  refine ⟨fun g τ => writes_of_ok hfree, fun e τ => leavesWhole_of_error hfree, fun hsource => ?_⟩
  refine bind_error ?_
  rw [copySources_apply, hsource]
  rfl

/-- The small project, prepared. -/
def smallPrepared : Prepared where
  project := smallGeneration.project
  defines := smallGeneration.defines

/-- The small project with a build tree on the way to which the name of `Makefile.am` is. -/
def waywardManifest : Manifest :=
  { smallManifest with build := { buildDir := "build/Makefile.am/.." } }

/-- The machine with the small project and an empty build directory. -/
def builtMachine : Machine where
  store := smallStore.putDir ["p", "build"]

/-- The failure to move a file over the directory that was made on the way. -/
def waywardFailure : Failure :=
  .file "failed to write file: /p/build/Makefile.am/../Makefile.am" (.persist .isDirectory)

theorem wayward_write : write waywardManifest smallPrepared builtMachine =
    (.error waywardFailure, (write waywardManifest smallPrepared builtMachine).2) := by
  have herror : (write waywardManifest smallPrepared builtMachine).1 = .error waywardFailure := by
    decide +kernel
  rw [← herror]
  exact (Prod.eta _).symm

theorem small_write : write smallManifest smallPrepared smallMachine =
    (.ok smallGeneration, (write smallManifest smallPrepared smallMachine).2) := by
  have hok : (write smallManifest smallPrepared smallMachine).1 = .ok smallGeneration := by
    decide +kernel
  rw [← hok]
  exact (Prod.eta _).symm

theorem small_writes_leave_whole_descriptors :
    (smallMachine.store.LinkFree ∧ Writes smallManifest smallPrepared smallMachine smallGeneration
      (write smallManifest smallPrepared smallMachine).2) ∧
    builtMachine.store.LinkFree ∧ LeavesWhole waywardManifest smallPrepared waywardFailure
      builtMachine (write waywardManifest smallPrepared builtMachine).2 := by
  have hsmall : smallMachine.store.LinkFree := by decide +kernel
  have hbuilt : builtMachine.store.LinkFree := by decide +kernel
  obtain ⟨hwrites, -, -⟩ :=
    write_leaves_whole_descriptors smallManifest smallPrepared smallMachine hsmall
  obtain ⟨-, hleaves, -⟩ :=
    write_leaves_whole_descriptors waywardManifest smallPrepared builtMachine hbuilt
  exact ⟨⟨hsmall, hwrites _ _ small_write⟩, hbuilt, hleaves _ _ wayward_write⟩

/-- A write that fails may make a directory where `Makefile.am` was missing: the way to the build
tree does. -/
theorem makefile_made_on_way :
    ¬ ∀ (m : Manifest) (prepared : Prepared) (σ τ : Machine) (e : Failure),
      σ.store.LinkFree → write m prepared σ = (.error e, τ) →
        τ.store.at? (σ.store.placeOf (Path.join m.buildDir Layout.makeFile)) =
          σ.store.at? (σ.store.placeOf (Path.join m.buildDir Layout.makeFile)) := by
  intro h
  have hbuilt : builtMachine.store.LinkFree := by decide +kernel
  have hsame := h waywardManifest smallPrepared builtMachine _ waywardFailure hbuilt wayward_write
  have hplace : builtMachine.store.placeOf (Path.join waywardManifest.buildDir Layout.makeFile) =
      ["p", "build", "Makefile.am"] := by decide +kernel
  rw [hplace] at hsame
  have hbefore : builtMachine.store.at? ["p", "build", "Makefile.am"] = none := by decide +kernel
  have hafter : (write waywardManifest smallPrepared builtMachine).2.store.at?
      ["p", "build", "Makefile.am"] = some .dir := by decide +kernel
  rw [hbefore, hafter] at hsame
  cases hsame

end Autotree.BuildTree
