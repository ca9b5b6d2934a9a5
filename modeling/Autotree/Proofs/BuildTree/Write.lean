import Autotree.BuildTree
import Autotree.Proofs.Machine
import Autotree.Proofs.Store.Replace
import Mathlib.Control.Monad.Basic

/-!
# Writing a build tree

Whatever goes wrong while a build tree is written is a failure of files, and only log lines are
left of it on the trace (`write_worksOnFiles`).  A tree that was written has both
descriptors, with the texts for the layout found in it (`descriptors_of_write`); this holds in
every store, links included.
-/

namespace Autotree

/-- A failure of an operation on files. -/
def Failure.OfFiles : Failure → Prop
  | scan _ _ => True
  | file _ _ => True
  | sourceNotFound _ => True
  | _ => False

/-! ## Failures of file actions -/

namespace FileAction

open Stateful

theorem ofOutcome_failsWith (context : String) (run : Store → Except Errno Unit × Store) :
    FailsWith Failure.OfFiles (ofOutcome context run) := by
  intro s e t h
  rw [ofOutcome_apply, Prod.mk.injEq] at h
  obtain ⟨h, -⟩ := h
  cases hrun : (run s).1 with
  | error e' =>
    rw [hrun] at h
    cases h
    trivial
  | ok _ =>
    rw [hrun] at h
    cases h

theorem query_failsWith {α : Type} (context : String) (ask : Store → Except Errno α) :
    FailsWith Failure.OfFiles (query context ask) := by
  intro s e t h
  unfold query at h
  split at h
  · cases h
  · cases h
    trivial

theorem makeDirs_failsWith (path : String) : FailsWith Failure.OfFiles (makeDirs path) :=
  ofOutcome_failsWith _ _

theorem ensureDir_failsWith (path : String) : FailsWith Failure.OfFiles (ensureDir path) := by
  apply FailsWith.get_bind
  intro s
  split
  · exact FailsWith.pure _
  · exact makeDirs_failsWith path

theorem list_failsWith (path : String) : FailsWith Failure.OfFiles (list path) :=
  query_failsWith _ _

theorem persist_failsWith (temporary : Place) (path : String) :
    FailsWith Failure.OfFiles (persist temporary path) := by
  intro s e t h
  rw [persist_apply] at h
  split at h
  · cases h
  · cases h
    trivial

theorem replaceBy_failsWith (temporary : Place) (path text : String) :
    FailsWith Failure.OfFiles (replaceBy temporary path text) := by
  intro s e t h
  rcases replaceBy_cases temporary path text s with ⟨written, cause, hrun⟩ | hrun
  · rw [hrun] at h
    cases h
    trivial
  · exact persist_failsWith _ _ _ _ _ (hrun.symm.trans h)

theorem writeAtomic_failsWith (path text : String) :
    FailsWith Failure.OfFiles (writeAtomic path text) := by
  refine FailsWith.bind (ensureDir_failsWith _) fun _ => FailsWith.get_bind fun s => ?_
  split
  · exact FailsWith.throw trivial
  · exact FailsWith.throw trivial
  · dsimp only
    split
    · exact FailsWith.throw trivial
    · exact replaceBy_failsWith _ _ _
  · exact FailsWith.throw trivial

theorem copyFile_failsWith (source target : String) :
    FailsWith Failure.OfFiles (copyFile source target) := by
  refine FailsWith.get_bind fun s => ?_
  split
  · intro s e t h
    cases h
  · exact FailsWith.throw trivial
  · exact FailsWith.throw trivial

theorem copyEntries_failsWith {copyDir : String → String → FileAction Unit}
    (hcopy : ∀ source target, FailsWith Failure.OfFiles (copyDir source target))
    (source target : String) (entries : List (String × Node)) :
    FailsWith Failure.OfFiles (copyEntries copyDir source target entries) := by
  induction entries with
  | nil => exact FailsWith.pure _
  | cons entry rest ih =>
    obtain ⟨name, node⟩ := entry
    rw [copyEntries]
    split
    · exact FailsWith.bind (hcopy _ _) fun _ => ih
    · exact FailsWith.bind (copyFile_failsWith _ _) fun _ => ih

theorem copyLevels_failsWith (levels : Nat) (source target : String) :
    FailsWith Failure.OfFiles (copyLevels levels source target) := by
  induction levels generalizing source target with
  | zero => exact FailsWith.throw trivial
  | succ levels ih =>
    rw [copyLevels]
    refine FailsWith.bind (makeDirs_failsWith _) fun _ => ?_
    exact FailsWith.bind (list_failsWith _) fun entries => copyEntries_failsWith ih _ _ _

theorem copyTree_failsWith (source target : String) :
    FailsWith Failure.OfFiles (copyTree source target) :=
  FailsWith.get_bind fun s => copyLevels_failsWith (s.height + Store.pathLimit) source target

end FileAction

namespace Sources

open Stateful

theorem discover_failsWith (base dir : String) (deep : Bool) :
    FailsWith Failure.OfFiles (discover base dir deep) := by
  apply FailsWith.get_bind
  intro s
  split
  · exact FailsWith.pure _
  · exact FailsWith.throw trivial

theorem discoverUnits_failsWith (base : String) :
    FailsWith Failure.OfFiles (discoverUnits base) := by
  refine FailsWith.bind ?_ fun names => FailsWith.mapM fun name => ?_
  · exact FailsWith.bind (FileAction.list_failsWith _) fun entries =>
      FailsWith.get_bind fun s => FailsWith.pure _
  · exact FailsWith.bind (discover_failsWith _ _ _) fun sources => FailsWith.pure _

end Sources

namespace BuildTree

open Autotree.Action Machine Stateful

variable {m : Manifest} {prepared : Prepared} {g : Generation} {σ τ : Machine} {text : String}

/-! ## Work on files -/

/-- The action works on files: notes aside it leaves nothing on the trace, and every failure of it
is one of files. -/
structure WorksOnFiles {α : Type} (x : Action α) : Prop where
  keeps : Keeps (Grown Event.IsNote) x
  failsWith : FailsWith Failure.OfFiles x

namespace WorksOnFiles

variable {α β : Type} {x : Action α} {f : α → Action β}

theorem bind (hx : WorksOnFiles x) (hf : ∀ a, WorksOnFiles (f a)) : WorksOnFiles (x >>= f) :=
  ⟨Keeps.bind Grown.trans hx.keeps fun a => (hf a).keeps,
    FailsWith.bind hx.failsWith fun a => (hf a).failsWith⟩

theorem get_bind {f : Machine → Action β} (hf : ∀ σ, WorksOnFiles (f σ)) :
    WorksOnFiles (get >>= f) :=
  ⟨Keeps.get_bind fun σ => (hf σ).keeps, FailsWith.get_bind fun σ => (hf σ).failsWith⟩

theorem pure (a : α) : WorksOnFiles (pure a : Action α) :=
  ⟨Keeps.pure Grown.refl a, FailsWith.pure a⟩

theorem throw {e : Failure} (he : e.OfFiles) : WorksOnFiles (throw e : Action α) :=
  ⟨Keeps.throw Grown.refl e, FailsWith.throw he⟩

theorem forM {l : List β} {f : β → Action PUnit} (hf : ∀ b, WorksOnFiles (f b)) :
    WorksOnFiles (l.forM f) :=
  ⟨Keeps.forM Grown.refl Grown.trans fun b _ => (hf b).keeps,
    FailsWith.forM fun b => (hf b).failsWith⟩

theorem log (level : Level) (text : String) : WorksOnFiles (log level text) :=
  ⟨fun σ => (keeps_log level text σ).grown, fun _ _ _ h => nomatch h⟩

theorem onStore {action : FileAction α} (h : FailsWith Failure.OfFiles action) :
    WorksOnFiles (onStore action) :=
  ⟨fun _ => ⟨[], (List.append_nil _).symm, nofun⟩, failsWith_onStore h⟩

end WorksOnFiles

/-- Copying the sources, which are there, and the headers, if there are any. -/
def mirror (root dir : String) : Action Unit := do
  onStore (FileAction.copyTree (Path.join root Layout.sourceDir) (Path.join dir Layout.sourceDir))
  if (← get).store.isDir (Path.join root Layout.includeDir) then
    onStore
      (FileAction.copyTree (Path.join root Layout.includeDir) (Path.join dir Layout.includeDir))
  else
    log .debug ("no " ++ Layout.includeDir ++ "/ directory to mirror")

theorem copySources_apply (root dir : String) (σ : Machine) :
    copySources root dir σ =
      if σ.store.isDir (Path.join root Layout.sourceDir) then mirror root dir σ
      else (.error (.sourceNotFound (Path.join root Layout.sourceDir)), σ) := by
  unfold copySources
  rw [get_bind]
  cases σ.store.isDir (Path.join root Layout.sourceDir) <;> rfl

theorem mirror_worksOnFiles (root dir : String) : WorksOnFiles (mirror root dir) := by
  refine WorksOnFiles.bind (WorksOnFiles.onStore (FileAction.copyTree_failsWith _ _)) fun _ => ?_
  apply WorksOnFiles.get_bind
  intro τ
  split
  · exact WorksOnFiles.onStore (FileAction.copyTree_failsWith _ _)
  · exact WorksOnFiles.log _ _

theorem copySources_worksOnFiles (root dir : String) : WorksOnFiles (copySources root dir) := by
  have hmirror := mirror_worksOnFiles root dir
  refine ⟨?_, ?_⟩
  · intro σ
    rw [copySources_apply]
    split
    · exact hmirror.keeps σ
    · exact .refl σ
  · intro σ e τ h
    rw [copySources_apply] at h
    split at h
    · exact hmirror.failsWith σ e τ h
    · cases h
      trivial

/-- Giving a layout, with what is logged of it. -/
def noteLayout (layout : Layout) : Action Layout := do
  if layout.mainSources.isEmpty then
    log .warn ("no .c files directly under " ++ Layout.sourceDir ++ "/")
  layout.units.forM fun unit =>
    log .debug
      ("library " ++ unit.name ++ ": " ++ toString unit.sources.length ++ " source(s)")
  return layout

theorem discoverLayout_eq (dir : String) :
    discoverLayout dir = (do
      let mainSources ← onStore (Sources.discover dir Layout.sourceDir false)
      let units ← onStore (Sources.discoverUnits dir)
      noteLayout ⟨mainSources, units⟩) := by
  rfl

theorem reads_noteLayout (layout : Layout) :
    Reads Event.IsNote (fun _ => .ok layout) (noteLayout layout) := by
  have hunits : Reads Event.IsNote (fun _ => .ok layout) (do
      layout.units.forM fun unit =>
        log .debug
          ("library " ++ unit.name ++ ": " ++ toString unit.sources.length ++ " source(s)")
      return layout) :=
    Reads.andThen (Reads.forM fun _ _ => Reads.log _ _) (Reads.pure layout)
  unfold noteLayout
  split
  · exact Reads.andThen (Reads.log _ _) hunits
  · exact hunits

theorem discoverLayout_worksOnFiles (dir : String) : WorksOnFiles (discoverLayout dir) := by
  rw [discoverLayout_eq]
  refine WorksOnFiles.bind (WorksOnFiles.onStore (Sources.discover_failsWith _ _ _)) fun sources =>
    ?_
  refine WorksOnFiles.bind (WorksOnFiles.onStore (Sources.discoverUnits_failsWith _)) fun units =>
    ?_
  have hnote := reads_noteLayout ⟨sources, units⟩
  refine ⟨fun σ => (hnote σ).2.grown, ?_⟩
  intro σ e τ h
  have hresult := (hnote σ).1
  rw [h] at hresult
  cases hresult

theorem installMacros_worksOnFiles (macros dir : String) :
    WorksOnFiles (installMacros macros dir) := by
  refine WorksOnFiles.bind (WorksOnFiles.onStore (FileAction.ensureDir_failsWith _)) fun _ => ?_
  apply WorksOnFiles.get_bind
  intro σ
  split
  · exact WorksOnFiles.onStore (FileAction.copyTree_failsWith _ _)
  · exact WorksOnFiles.log _ _

theorem writeFile_worksOnFiles (path text : String) :
    WorksOnFiles (onStore (FileAction.writeAtomic path text)) :=
  WorksOnFiles.onStore (FileAction.writeAtomic_failsWith path text)

/-- Once the text of `configure.ac` is known, writing a build tree is work on files. -/
theorem write_worksOnFiles (h : Descriptor.configure prepared.project m.build.libs = .ok text) :
    WorksOnFiles (write m prepared) := by
  refine WorksOnFiles.bind (copySources_worksOnFiles _ _) fun _ => ?_
  apply WorksOnFiles.bind (discoverLayout_worksOnFiles _)
  intro layout
  rw [h]
  refine WorksOnFiles.bind (WorksOnFiles.pure _) fun _ => ?_
  refine WorksOnFiles.bind (installMacros_worksOnFiles _ _) fun _ => ?_
  refine WorksOnFiles.bind (writeFile_worksOnFiles _ _) fun _ => ?_
  refine WorksOnFiles.bind (writeFile_worksOnFiles _ _) fun _ => ?_
  exact WorksOnFiles.bind (WorksOnFiles.log _ _) fun _ => WorksOnFiles.pure _

/-! ## Trees that were written -/

/-- The steps of writing a build tree to its end. -/
theorem write_eq_ok (h : write m prepared σ = (.ok g, τ)) :
    ∃ σ₁ σ₂ σ₃ s text, copySources m.root m.buildDir σ = (.ok (), σ₁) ∧
      discoverLayout m.buildDir σ₁ = (.ok g.layout, σ₂) ∧
      Descriptor.configure prepared.project m.build.libs = .ok text ∧
      installMacros m.macroDir m.buildDir σ₂ = (.ok (), σ₃) ∧
      FileAction.writeAtomic (Path.join m.buildDir Layout.configureFile) text σ₃.store =
        (.ok (), s) ∧
      FileAction.writeAtomic (Path.join m.buildDir Layout.makeFile)
        (Descriptor.makefile prepared.project m.build prepared.defines g.layout) s =
          (.ok (), τ.store) ∧
      g = ⟨prepared.project, prepared.defines, g.layout, m.buildDir⟩ := by
  obtain ⟨_, σ₁, hcopy, h⟩ := bind_eq_ok.1 h
  obtain ⟨layout, σ₂, hdiscover, h⟩ := bind_eq_ok.1 h
  obtain ⟨text, σ₂', hconfigure, h⟩ := bind_eq_ok.1 h
  obtain ⟨_, σ₃, hmacros, h⟩ := bind_eq_ok.1 h
  obtain ⟨_, σ₄, hfirst, h⟩ := bind_eq_ok.1 h
  obtain ⟨_, σ₅, hsecond, h⟩ := bind_eq_ok.1 h
  obtain ⟨_, σ₆, hlog, h⟩ := bind_eq_ok.1 h
  cases h
  cases hlog
  obtain ⟨htext, rfl⟩ := ofExcept_eq_ok hconfigure
  obtain ⟨hwrite, -⟩ := onStore_eq hfirst
  obtain ⟨hwrite', -⟩ := onStore_eq hsecond
  exact ⟨σ₁, _, σ₃, σ₄.store, text, hcopy, hdiscover, htext, hmacros, hwrite, hwrite', rfl⟩

/-! ## The descriptors of a tree -/

/-- A directory has an entry of a given name with a given text; the directory is the one that a
path leads to, if it leads to any. -/
def Holds (s : Store) (dir name text : String) : Prop :=
  ∃ place, s.at? (place ++ [name]) = some (.file text.toUTF8 false) ∧
    ∀ there entries, s.locate dir = .ok (there, .dir entries) → there = place

section Holds

open Store FileAction

variable {s t u v : Store} {dir name other : String}

/-- A file that was replaced in its directory is held by it, whatever files came after it. -/
theorem Holds.of_writeAtomic (hname : isEntryName name = true)
    (h : writeAtomic (Path.join dir name) text s = (.ok (), t)) (hyields : Yields t v)
    (hcwd : v.cwd = t.cwd)
    (hkept : ∀ place, t.at? (place ++ [name]) = some (.file text.toUTF8 false) →
      v.at? (place ++ [name]) = some (.file text.toUTF8 false)) :
    Holds v dir name text := by
  obtain ⟨u, place, entries, dots, -, hlocate, hsteps, hdots, hstart, hreplaced⟩ :=
    writeAtomic_join_ok hname h
  have htext := hkept place (by rw [hreplaced.at?_eq, if_pos rfl])
  refine ⟨place, htext, ?_⟩
  intro there entries' hthere
  exact locateBase_unique (hreplaced.yields.trans hyields).waysAgree
    (hcwd.trans hreplaced.cwd_eq) hlocate hsteps hdots (hstart u.cwd) (locateBase_of_locate hthere)

/-- Replacing a file of one name keeps the files of another, and the ways to them. -/
theorem writeAtomic_join_keeps (hname : isEntryName name = true) (hne : other ≠ name)
    (h : writeAtomic (Path.join dir name) text s = (.ok (), t)) :
    Yields s t ∧ t.cwd = s.cwd ∧ ∀ place item, s.at? (place ++ [other]) = some item →
      t.at? (place ++ [other]) = some item := by
  obtain ⟨u, place, entries, dots, hensure, -, -, -, -, hreplaced⟩ := writeAtomic_join_ok hname h
  have hmade : Confined (fun _ => False) (s.OnWayOf (parentOf (Path.join dir name))) s
      (ensureDir (parentOf (Path.join dir name)) s).2 := ensureDir_confined _ s
  rw [hensure] at hmade
  refine ⟨hmade.yields.trans hreplaced.yields, hreplaced.cwd_eq.trans hmade.cwd_eq,
    fun place' item hitem => ?_⟩
  rw [hreplaced.at?_eq, if_neg]
  · exact hmade.at?_eq_some id hitem
  · intro heq
    obtain ⟨-, hnames⟩ := List.append_inj' heq rfl
    exact hne (List.singleton_inj.1 hnames)

/-- A tree that was written has both descriptors, with the texts for its layout. -/
theorem descriptors_of_write (h : write m prepared σ = (.ok g, τ)) :
    g.project = prepared.project ∧ g.defines = prepared.defines ∧ g.dir = m.buildDir ∧
    ∃ text, Descriptor.configure prepared.project m.build.libs = .ok text ∧
      Holds τ.store m.buildDir Layout.configureFile text ∧
      Holds τ.store m.buildDir Layout.makeFile
        (Descriptor.makefile prepared.project m.build prepared.defines g.layout) := by
  obtain ⟨σ₁, σ₂, σ₃, s, text, -, -, htext, -, hfirst, hsecond, hg⟩ := write_eq_ok h
  have hconfigure : isEntryName Layout.configureFile = true := by decide
  have hmake : isEntryName Layout.makeFile = true := by decide
  obtain ⟨hyields, hcwd, hkept⟩ := writeAtomic_join_keeps hmake
    (show Layout.configureFile ≠ Layout.makeFile by decide) hsecond
  refine ⟨by rw [hg], by rw [hg], by rw [hg], text, htext, ?_, ?_⟩
  · exact Holds.of_writeAtomic hconfigure hfirst hyields hcwd fun place => hkept place _
  · exact Holds.of_writeAtomic hmake hsecond (fun _ => .inl rfl) rfl fun _ => id

end Holds

/-! ## A small project -/

/-- A store with the directory of a project that has one source. -/
def smallStore : Store :=
  ((Store.empty.putDir ["p"]).putDir ["p", "src"]).putFile ["p", "src", "main.c"]
    "int main;\n".toUTF8 false

/-- A machine with that store on which nothing has happened. -/
def smallMachine : Machine where
  store := smallStore

/-- A manifest without settings. -/
def smallManifest : Manifest where
  project := {}
  build := {}
  schema := ⟨[], by decide⟩
  root := "/p"

/-- A host that has every tool. -/
def readyHost : Host where
  platform := "Linux"
  findTool := fun _ name => some ("/usr/bin/" ++ name)
  version := fun s _ => ⟨some "autoconf 2.71\n", s⟩

/-- What generating the small project gives. -/
def smallGeneration : Generation where
  project :=
    { name := "p", version := "0.0", platform := "Linux"
      tools := Host.noteVersion "autoconf" "2.71"
        (Host.baselineTools.map fun name => (name, { path := "/usr/bin/" ++ name })) }
  defines := []
  layout := ⟨["src/main.c"], []⟩
  dir := "/p/build"

example : (generate smallManifest readyHost smallMachine).1 = .ok smallGeneration := by
  decide +kernel

end BuildTree

end Autotree
