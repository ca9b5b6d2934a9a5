import Autotree.Proofs.BuildTree.RoundTrip
import Autotree.Proofs.Store.Leads

/-!
# What generating does to the files of a project

Generating changes no file but those that the paths into the build tree lead to, those below the
copied directories and the two descriptors, whatever links there are.  Nothing keeps these apart
from the files of the project: a directory whose copy is itself is left with empty files
(`generate_keeps_files`), as the sources are when the build tree is the project's own directory
(`generate_changes_sources`).
-/

namespace Autotree.BuildTree

open Autotree.Action FileAction Machine Stateful Store

variable {m : Manifest} {prepared : Prepared} {g : Generation} {host : Host} {σ τ : Machine}
  {s t u : Store} {q : Place} {name : String}

/-! ## The files that are written -/

/-- The places that a build tree is written to: those that the paths below its copied directories
lead to, and the descriptors in the directory that its own path leads to. -/
def WritesTo (m : Manifest) (s : Store) (q : Place) : Prop :=
  (∃ name ∈ copiedNames, s.LeadsBelow (Path.join m.buildDir name) q) ∨
  ∃ name ∈ [Layout.configureFile, Layout.makeFile], ∃ dir,
    s.LeadsTo (startOf m.buildDir s.cwd) (steps m.buildDir) dir ∧ q = dir ++ [name]

/-- Where no link stands, these are in entries of the build tree. -/
theorem WritesTo.inEntries (h : WritesTo m s q) (hfree : s.LinkFree) :
    InEntries writtenNames (s.placeOf m.buildDir) q := by
  rcases h with ⟨name, hmem, names, hnames, hleads⟩ | ⟨name, hmem, dir, hleads, rfl⟩
  · have hproper : ∀ name ∈ copiedNames, isEntryName name = true := by decide
    refine ⟨name, List.mem_append_left _ hmem, ?_⟩
    rw [placeOf_eq, ← placeIn_join (hproper name hmem), hleads.eq_follow hfree, follow_append]
    exact prefix_follow (fun hup => absurd (hnames _ hup) (by decide)) _
  · refine ⟨name, List.mem_append_right _ hmem, ?_⟩
    rw [hleads.eq_follow hfree]
    exact List.prefix_refl _

/-- All other files, if they are spared so far, are spared. -/
def Sparing (m : Manifest) (s : Store) (σ τ : Machine) : Prop :=
  StaysSparing (WritesTo m s) s σ.store τ.store

theorem Sparing.trans {υ : Machine} (h : Sparing m s σ τ) (h' : Sparing m s τ υ) :
    Sparing m s σ υ :=
  StaysSparing.trans h h'

theorem Sparing.of_store_eq (h : τ.store = σ.store) : Sparing m s σ τ := by
  unfold Sparing
  rw [h]
  exact .refl _

theorem sparing_onStore {α : Type} {action : FileAction α}
    (h : Keeps (StaysSparing (WritesTo m s) s) action) : Keeps (Sparing m s) (onStore action) :=
  fun σ => h σ.store

theorem sparing_log (level : Level) (text : String) : Keeps (Sparing m s) (log level text) :=
  fun _ => .of_store_eq rfl

theorem sparing_copyTree (hmem : name ∈ copiedNames) (source : String) :
    Keeps (Sparing m s) (onStore (copyTree source (Path.join m.buildDir name))) :=
  sparing_onStore (stays_copyTree _ _ fun _ hq => .inl ⟨name, hmem, hq⟩)

theorem sparing_mirror : Keeps (Sparing m s) (mirror m.root m.buildDir) := by
  refine Keeps.bind Sparing.trans (sparing_copyTree (by decide) _) fun _ => ?_
  apply Keeps.get_bind
  intro τ
  split
  · exact sparing_copyTree (by decide) _
  · exact sparing_log _ _

theorem sparing_copySources : Keeps (Sparing m s) (copySources m.root m.buildDir) := by
  intro σ
  rw [copySources_apply]
  split
  · exact sparing_mirror σ
  · exact .of_store_eq rfl

theorem sparing_installMacros : Keeps (Sparing m s) (installMacros m.macroDir m.buildDir) := by
  refine Keeps.bind Sparing.trans (sparing_onStore (stays_ensureDir _)) fun _ => ?_
  refine Keeps.get_bind fun τ => ?_
  split
  · exact sparing_copyTree (by decide) _
  · exact sparing_log _ _

/-- All other files, if they are spared so far, are as they were. -/
def KeepsFiles (m : Manifest) (s : Store) (σ τ : Machine) : Prop :=
  Spares (WritesTo m s) s σ.store → ∀ q, ¬ WritesTo m s q → τ.store.fileAt q = s.fileAt q

theorem Sparing.keepsFiles (h : Sparing m s σ τ) : KeepsFiles m s σ τ :=
  fun hspares _ hq => (h hspares).fileAt_eq hq

theorem keepsFiles_bind {α β : Type} {x : Action α} {f : α → Action β}
    (hx : Keeps (Sparing m s) x) (hf : ∀ a, Keeps (KeepsFiles m s) (f a)) :
    Keeps (KeepsFiles m s) (x >>= f) :=
  fun σ => Keeps.bind_from Sparing.keepsFiles (fun h h' => h' ∘ h) (hx σ) hf

/-- Both descriptors are replaced in the same directory. -/
theorem parentOf_join (dir : String) :
    parentOf (Path.join dir Layout.configureFile) = parentOf (Path.join dir Layout.makeFile) := by
  rw [parentOf, parentOf, parent?_join isEntryName_configureFile isEntryName_makeFile]

/-- Writing the descriptors changes two files at most, both in the directory that the path of the
build tree leads to. -/
theorem keepsFiles_writeDescriptors (m : Manifest) (configure makefile : String) (g : Generation) :
    Keeps (KeepsFiles m s) (writeDescriptors m configure makefile g) := by
  intro σ hspares q hq
  unfold writeDescriptors
  have hwritten {dir name} (hmem : name ∈ [Layout.configureFile, Layout.makeFile])
      (hdir : s.LeadsTo (startOf m.buildDir s.cwd) (steps m.buildDir) dir) : q ≠ dir ++ [name] :=
    fun heq => hq (.inr ⟨name, hmem, dir, hdir, heq⟩)
  have hfirst := onStore_apply
    (writeAtomic (Path.join m.buildDir Layout.configureFile) configure) σ
  rcases hwrite : writeAtomic (Path.join m.buildDir Layout.configureFile) configure σ.store with
    ⟨e | _, t⟩
  · rw [hwrite] at hfirst
    rw [bind_error hfirst]
    exact (fileAt_of_writeAtomic_error hwrite q).trans (hspares.fileAt_eq hq)
  · rw [hwrite] at hfirst
    rw [bind_ok hfirst]
    obtain ⟨v, dir, entries, hmade, hlocate, hreplaced, hkept⟩ :=
      writeAtomic_join_changes isEntryName_configureFile hwrite
    have hleads := leadsTo_of_parentOf isEntryName_configureFile
      (hspares.trans (.of_confined hmade)).sameLinks hlocate
    rw [hmade.cwd_eq, hspares.cwd_eq] at hleads
    have hfiles : t.fileAt q = s.fileAt q :=
      (hkept q (hwritten (by decide) hleads)).trans (hspares.fileAt_eq hq)
    have hsecond := onStore_apply
      (writeAtomic (Path.join m.buildDir Layout.makeFile) makefile) { σ with store := t }
    rcases hwrite' : writeAtomic (Path.join m.buildDir Layout.makeFile) makefile t with ⟨e | _, u⟩
    · rw [hwrite'] at hsecond
      rw [bind_error hsecond]
      exact (fileAt_of_writeAtomic_error hwrite' q).trans hfiles
    · rw [hwrite'] at hsecond
      rw [bind_ok hsecond]
      obtain ⟨v', dir', entries', hmade', hlocate', -, hkept'⟩ :=
        writeAtomic_join_changes isEntryName_makeFile hwrite'
      -- the first file may have taken the place of a link, but the way to the directory is the same
      have hagree : WaysAgree v v' := (hreplaced.yields.trans hmade'.yields).waysAgree
      have hsame : dir' = dir := by
        rw [← parentOf_join] at hlocate'
        exact locateBase_unique hagree (hmade'.cwd_eq.trans hreplaced.cwd_eq) hlocate
          (List.append_nil _).symm nofun rfl hlocate'
      subst hsame
      exact (hkept' q (hwritten (by decide) hleads)).trans hfiles

theorem keepsFiles_write (m : Manifest) (prepared : Prepared) :
    Keeps (KeepsFiles m s) (write m prepared) := by
  refine keepsFiles_bind sparing_copySources fun _ => ?_
  refine keepsFiles_bind (fun σ => .of_store_eq (keeps_discoverLayout _ σ)) fun layout => ?_
  refine keepsFiles_bind (fun σ => ?_) fun configure => ?_
  · rw [ofExcept_apply]
    exact .of_store_eq rfl
  · refine keepsFiles_bind sparing_installMacros fun _ => ?_
    exact keepsFiles_writeDescriptors m _ _ _

theorem fileAt_of_generate (hhost : host.LeavesFiles) (m : Manifest) (σ : Machine)
    (hq : ¬ WritesTo m σ.store q) :
    (generate m host σ).2.store.fileAt q = σ.store.fileAt q := by
  rcases generate_store_or_write m hhost σ with hsame | ⟨prepared, τ, hstore, hwrite⟩
  · rw [hsame]
  · have hspares : Spares (WritesTo m σ.store) σ.store τ.store := by
      rw [hstore]
      exact .refl _
    rw [hwrite]
    exact keepsFiles_write m prepared τ hspares q hq

/-! ## Copies onto themselves -/

/-- The directories that are copied, each with the entry of the build tree that it is copied to. -/
def copiesOf (m : Manifest) : List (String × String) :=
  [(Path.join m.root Layout.sourceDir, Layout.sourceDir),
    (Path.join m.root Layout.includeDir, Layout.includeDir), (m.macroDir, Layout.macroDir)]

theorem fileAt_of_within {names : List String} {cwd : Place} {dir : String}
    (h : Within names cwd dir σ τ) (hfree : σ.store.LinkFree) (hcwd : σ.store.cwd = cwd)
    (hname : name ∉ names) (q : Place) :
    τ.store.fileAt (placeIn cwd dir ++ name :: q) = σ.store.fileAt (placeIn cwd dir ++ name :: q) :=
  (h hfree hcwd).fileAt_eq (not_inEntries hname _ q)

/-- A copy is made from a store that has its files as they were at first, and nothing is written
to it afterwards. -/
def CopiedOnce (m : Manifest) (source name : String) (s t : Store) : Prop :=
  ∃ u v, u.LinkFree ∧ u.cwd = s.cwd ∧
    copyTree source (Path.join m.buildDir name) u = (.ok (), v) ∧
    (∀ q, u.fileAt (s.placeOf m.buildDir ++ name :: q) =
      s.fileAt (s.placeOf m.buildDir ++ name :: q)) ∧
    ∀ q, t.fileAt (s.placeOf m.buildDir ++ name :: q) =
      v.fileAt (s.placeOf m.buildDir ++ name :: q)

theorem macros_of_finish (hfree : σ.store.LinkFree) (hdir : σ.store.isDir m.macroDir = true)
    (h : finish m prepared σ = (.ok g, τ)) :
    CopiedOnce m m.macroDir Layout.macroDir σ.store τ.store := by
  obtain ⟨layout, σ₁, hlayout, h⟩ := bind_eq_ok.1 h
  obtain ⟨configure, σ₂, hconfigure, h⟩ := bind_eq_ok.1 h
  obtain ⟨⟨⟩, σ₃, hmacros, hdescriptors⟩ := bind_eq_ok.1 h
  obtain ⟨⟨⟩, υ, hensure, hcopy⟩ := bind_eq_ok.1 hmacros
  obtain ⟨-, rfl⟩ := ofExcept_eq_ok hconfigure
  have hsame : σ₂.store = σ.store := (keeps_discoverLayout _).run hlayout
  obtain ⟨hensure, -⟩ := onStore_eq hensure
  rw [hsame] at hensure
  have hmade : Confined (fun _ => False)
      (σ.store.OnWayOf (Path.join m.buildDir Layout.macroDir)) σ.store υ.store := by
    simpa only [hensure] using ensureDir_confined (Path.join m.buildDir Layout.macroDir) σ.store
  have hspares : Spares (fun _ => False) σ.store υ.store := .of_confined hmade
  rw [get_bind, if_pos (hspares.isDir hdir)] at hcopy
  obtain ⟨hcopy, -⟩ := onStore_eq hcopy
  -- making the directory adds no file, and the descriptors are not below it
  have hinstalled : Within [Layout.macroDir] σ.store.cwd m.buildDir σ₂ σ₃ :=
    (keeps_installMacros m.macroDir m.buildDir).run hmacros
  rw [Within, hsame] at hinstalled
  have hchange := hinstalled hfree rfl
  have hlast : Within [Layout.configureFile, Layout.makeFile] σ.store.cwd m.buildDir σ₃ τ :=
    (keeps_writeDescriptors m _ _ _).run hdescriptors
  exact ⟨υ.store, σ₃.store, hmade.linkFree hfree, hmade.cwd_eq, hcopy,
    fun _ => hspares.fileAt_eq id,
    fileAt_of_within hlast (hchange.linkFree hfree) hchange.cwd_eq (by decide)⟩

/-- Each copy is made from a store that has its files as they were at first, and nothing is
written to it afterwards. -/
theorem copiedOnce_of_write (hfree : σ.store.LinkFree) (h : write m prepared σ = (.ok g, τ))
    {source : String} (hmem : (source, name) ∈ copiesOf m)
    (hdir : σ.store.isDir source = true) : CopiedOnce m source name σ.store τ.store := by
  rw [write_eq] at h
  obtain ⟨⟨⟩, σ₂, hcopy, hfinish⟩ := bind_eq_ok.1 h
  have hspares₂ : Spares (WritesTo m σ.store) σ.store σ₂.store :=
    sparing_copySources.run hcopy (.refl _)
  rw [copySources_apply] at hcopy
  split at hcopy
  · rw [mirror_eq] at hcopy
    obtain ⟨⟨⟩, σ₁, hsources, hheaders⟩ := bind_eq_ok.1 hcopy
    have hfirst : Within [Layout.sourceDir] σ.store.cwd m.buildDir σ σ₁ :=
      (keeps_copyTree_within (by decide) (by decide) _).run hsources
    have hsecond : Within [Layout.includeDir] σ.store.cwd m.buildDir σ₁ σ₂ :=
      (keeps_mirrorHeaders m.root m.buildDir).run hheaders
    have hlast : Within laterNames σ.store.cwd m.buildDir σ₂ τ :=
      (keeps_finish m prepared).run hfinish
    have hchange₁ := hfirst hfree rfl
    have hfree₁ := hchange₁.linkFree hfree
    have hchange₂ := hsecond hfree₁ hchange₁.cwd_eq
    have hfree₂ := hchange₂.linkFree hfree₁
    have hcwd₂ := hchange₂.cwd_eq.trans hchange₁.cwd_eq
    have hspares₁ : Spares (WritesTo m σ.store) σ.store σ₁.store :=
      (sparing_copyTree (by decide) _).run hsources (.refl _)
    simp only [copiesOf, List.mem_cons, Prod.mk.injEq, List.not_mem_nil, or_false] at hmem
    rcases hmem with ⟨rfl, rfl⟩ | ⟨rfl, rfl⟩ | ⟨rfl, rfl⟩
    · refine ⟨σ.store, σ₁.store, hfree, rfl, (onStore_eq hsources).1, fun _ => rfl, fun q => ?_⟩
      exact (fileAt_of_within hlast hfree₂ hcwd₂ (by decide) q).trans
        (fileAt_of_within hsecond hfree₁ hchange₁.cwd_eq (by decide) q)
    · unfold mirrorHeaders at hheaders
      rw [get_bind, if_pos (hspares₁.isDir hdir)] at hheaders
      exact ⟨σ₁.store, σ₂.store, hfree₁, hchange₁.cwd_eq, (onStore_eq hheaders).1,
        fileAt_of_within hfirst hfree rfl (by decide),
        fileAt_of_within hlast hfree₂ hcwd₂ (by decide)⟩
    · obtain ⟨u, v, hfreeᵤ, hcwdᵤ, hmacros, hbefore, hafter⟩ :=
        macros_of_finish hfree₂ (hspares₂.isDir hdir) hfinish
      rw [placeOf_eq, hcwd₂, ← placeOf_eq] at hbefore hafter
      refine ⟨u, v, hfreeᵤ, hcwdᵤ.trans hcwd₂, hmacros, fun q => ?_, hafter⟩
      rw [hbefore q, placeOf_eq, fileAt_of_within hsecond hfree₁ hchange₁.cwd_eq (by decide),
        fileAt_of_within hfirst hfree rfl (by decide)]
  · cases hcopy

/-- A directory that is copied onto itself is left with the files that it had, all of them
empty. -/
theorem emptied_of_generate (hhost : host.LeavesFiles) (hfree : σ.store.LinkFree)
    (h : generate m host σ = (.ok g, τ)) {source : String} (hmem : (source, name) ∈ copiesOf m)
    (hdir : σ.store.isDir source = true)
    (hsame : σ.store.placeOf source = σ.store.placeOf (Path.join m.buildDir name)) (q : Place) :
    τ.store.fileAt (σ.store.placeOf source ++ q) =
      (σ.store.fileAt (σ.store.placeOf source ++ q)).map emptied := by
  obtain ⟨prepared, υ, hprepare, hwrite⟩ := bind_eq_ok.1 h
  have hstore : υ.store = σ.store := store_of_prepare hhost hprepare
  have hname : isEntryName name = true := by
    simp only [copiesOf, List.mem_cons, Prod.mk.injEq, List.not_mem_nil, or_false] at hmem
    rcases hmem with ⟨-, rfl⟩ | ⟨-, rfl⟩ | ⟨-, rfl⟩ <;> decide
  rw [← hstore] at hfree hdir
  obtain ⟨u, v, hfree', hcwd, hcopy, hbefore, hafter⟩ :=
    copiedOnce_of_write hfree hwrite hmem hdir
  rw [hstore] at hcwd hbefore hafter
  have hplace : ∀ path, u.placeOf path = σ.store.placeOf path := fun path => by
    rw [placeOf_eq, hcwd, ← placeOf_eq]
  have hentry : σ.store.placeOf source ++ q = σ.store.placeOf m.buildDir ++ name :: q := by
    rw [hsame, placeOf_eq, placeIn_join hname, List.append_assoc]
    rfl
  have hself : u.placeOf (Path.join m.buildDir name) ++ q =
      σ.store.placeOf m.buildDir ++ name :: q := by
    rw [hplace, ← hsame, hentry]
  have hcopied := fileAt_of_copyTree_self hfree' (by rw [hplace, hplace, hsame]) hcopy q
  rw [hself] at hcopied
  rw [hentry, hafter, hcopied, hbefore]

/-- Generating, whether it succeeds or fails, changes no file but those that the paths into the
build tree lead to.  These may be files of the project: without links, a directory whose copy is
itself has only empty files after a run that succeeds. -/
theorem generate_keeps_files (m : Manifest) (host : Host) (σ : Machine)
    (hhost : host.LeavesFiles) :
    (∀ q, ¬ WritesTo m σ.store q →
      (generate m host σ).2.store.fileAt q = σ.store.fileAt q) ∧
    (∀ g, (generate m host σ).1 = .ok g → σ.store.LinkFree →
      ∀ source name, (source, name) ∈ copiesOf m → σ.store.isDir source = true →
        σ.store.placeOf source = σ.store.placeOf (Path.join m.buildDir name) →
        ∀ q, (generate m host σ).2.store.fileAt (σ.store.placeOf source ++ q) =
          (σ.store.fileAt (σ.store.placeOf source ++ q)).map emptied) := by
  refine ⟨fun q => fileAt_of_generate hhost m σ, ?_⟩
  intro g hresult hfree source name hmem hdir hsame q
  have hrun : generate m host σ = (.ok g, (generate m host σ).2) := by
    rw [← hresult]
    exact (Prod.eta _).symm
  exact emptied_of_generate hhost hfree hrun hmem hdir hsame q

theorem generate_empties_small_sources :
    readyHost.LeavesFiles ∧
    (generate smallManifest readyHost smallMachine).2.store.fileAt ["p", "src", "main.c"] =
      some ("int main;\n".toUTF8, false) ∧
    (generate inPlaceManifest readyHost smallMachine).2.store.fileAt ["p", "src", "main.c"] =
      some (.empty, false) := by
  have hfree : smallStore.LinkFree := by decide +kernel
  have hfile : smallStore.fileAt ["p", "src", "main.c"] = some ("int main;\n".toUTF8, false) :=
    fileAt_eq_some_iff.2 (by decide +kernel)
  have hkept : ¬ WritesTo smallManifest smallStore ["p", "src", "main.c"] := by
    intro hwrites
    have hbelow := (hwrites.inEntries hfree).below
    revert hbelow
    decide +kernel
  obtain ⟨hkeeps, -⟩ :=
    generate_keeps_files smallManifest readyHost smallMachine leavesFiles_readyHost
  obtain ⟨-, hempties⟩ :=
    generate_keeps_files inPlaceManifest readyHost smallMachine leavesFiles_readyHost
  refine ⟨leavesFiles_readyHost, (hkeeps _ hkept).trans hfile, ?_⟩
  have hcopied := hempties { smallGeneration with dir := "/p/." } (by decide +kernel) hfree
    "/p/src" Layout.sourceDir (by decide +kernel) (by decide +kernel) (by decide +kernel) ["main.c"]
  have hplace : smallStore.placeOf "/p/src" ++ ["main.c"] = ["p", "src", "main.c"] := by
    decide +kernel
  have hstore : smallMachine.store = smallStore := rfl
  rw [hstore, hplace, hfile] at hcopied
  exact hcopied

/-- What a project is generated from: its inputs, and what its macro directory holds. -/
def IsRead (m : Manifest) (s : Store) (place : Place) : Prop :=
  IsInput m s place ∨
    ∃ top node, s.locate m.macroDir = .ok (top, node) ∧ top <+: place ∧ place ≠ top

/-- A build directory that is the directory of the project empties the sources. -/
theorem generate_changes_sources :
    ¬ ∀ (m : Manifest) (host : Host) (σ : Machine) (place : Place) (item : Item),
      host.LeavesFiles → IsRead m σ.store place → σ.store.at? place = some item →
        (generate m host σ).2.store.at? place = some item := by
  intro h
  have hkept := h inPlaceManifest readyHost smallMachine _ (.file "int main;\n".toUTF8 false)
    leavesFiles_readyHost (.inl isInput_inPlace) (by decide +kernel)
  revert hkept
  decide +kernel

end Autotree.BuildTree
