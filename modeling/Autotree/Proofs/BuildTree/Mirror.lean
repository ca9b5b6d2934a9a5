import Autotree.Proofs.BuildTree.Write
import Autotree.Proofs.Sources

/-!
# What copying the project does to the store

Before the descriptors are written, a build tree changes below its source, header and macro
directories only, apart from the directories that are missing on its way; discovery changes nothing
(`keeps_copySources`, `keeps_discoverLayout`, `keeps_installMacros`).  When the sources were copied,
those of the build tree are those of the project and those that were there
(`overlaid_of_copySources`), and the layout discovered lists exactly them
(`sources_of_discoverLayout`).
-/

namespace Autotree.BuildTree

open Autotree.Action Machine Stateful Store

variable {σ τ υ : Machine} {s t : Store} {cwd p q : Place} {root dir name : String}
  {names others : List String}
  {layout : Layout}

/-! ## Where copies go -/

/-- What is below the entries of a directory that have one of the given names, or is one of
them. -/
def InEntries (names : List String) (tree q : Place) : Prop :=
  ∃ name ∈ names, tree ++ [name] <+: q

/-- The change of the store is one within some entries of the build tree. -/
def Within (names : List String) (cwd : Place) (dir : String) (σ τ : Machine) : Prop :=
  Bounded cwd (InEntries names (placeIn cwd dir)) (OnWay cwd dir) σ.store τ.store

theorem InEntries.mono (h : InEntries names q p) (hnames : names ⊆ others) :
    InEntries others q p := by
  obtain ⟨name, hname, hpre⟩ := h
  exact ⟨name, hnames hname, hpre⟩

/-- What is below an entry of one name is not below those of others. -/
theorem not_inEntries (h : name ∉ names) (tree q : Place) :
    ¬ InEntries names tree (tree ++ name :: q) := by
  rintro ⟨other, hother, hpre⟩
  rw [List.prefix_append_right_inj] at hpre
  exact h ((List.cons_prefix_cons.1 hpre).1 ▸ hother)

/-- What is in the entries of a directory is below it. -/
theorem InEntries.below (h : InEntries names q p) : q <+: p := by
  obtain ⟨name, -, hpre⟩ := h
  exact (List.prefix_append q [name]).trans hpre

namespace Within

theorem refl (σ : Machine) : Within names cwd dir σ σ :=
  Bounded.refl σ.store

theorem trans (h : Within names cwd dir σ τ) (h' : Within names cwd dir τ υ) :
    Within names cwd dir σ υ :=
  Bounded.trans h h'

theorem mono (h : Within names cwd dir σ τ) (hnames : names ⊆ others) :
    Within others cwd dir σ τ :=
  Bounded.mono h (fun _ hq => hq.mono hnames) fun _ => .inl

theorem of_store_eq (h : τ.store = σ.store) : Within names cwd dir σ τ := by
  unfold Within
  rw [h]
  exact .refl _

end Within

theorem keeps_onStore_within {α : Type} {action : FileAction α}
    (h : Keeps (Bounded cwd (InEntries names (placeIn cwd dir)) (OnWay cwd dir)) action) :
    Keeps (Within names cwd dir) (onStore action) :=
  fun σ => h σ.store

theorem keeps_log_within (level : Level) (text : String) :
    Keeps (Within names cwd dir) (log level text) :=
  fun _ => .of_store_eq rfl

section Entry

variable (hname : isEntryName name = true) (hmem : name ∈ names)

include hname hmem

theorem onWay_join_inEntries (h : OnWay cwd (Path.join dir name) q) :
    OnWay cwd dir q ∨ InEntries names (placeIn cwd dir) q := by
  rcases onWay_join hname h with h | rfl
  · exact .inl h
  · exact .inr ⟨name, hmem, List.prefix_refl _⟩

/-- Changes of an entry of the build tree are changes within that entry. -/
theorem bounded_of_join
    (h : Bounded cwd (Under (placeIn cwd (Path.join dir name)))
      (OnWay cwd (Path.join dir name)) s t) :
    Bounded cwd (InEntries names (placeIn cwd dir)) (OnWay cwd dir) s t := by
  have hplace := placeIn_join hname cwd dir
  refine h.mono (fun q hq => ?_) fun q hq => onWay_join_inEntries hname hmem hq
  obtain ⟨below, rest, rfl⟩ := hq
  exact ⟨name, hmem, hplace ▸ List.prefix_append _ _⟩

theorem keeps_copyTree_within (source : String) :
    Keeps (Within names cwd dir)
      (onStore (FileAction.copyTree source (Path.join dir name))) :=
  keeps_onStore_within fun s =>
    bounded_of_join hname hmem (FileAction.keeps_copyTree source _ s)

theorem keeps_ensureDir_within :
    Keeps (Within names cwd dir) (onStore (FileAction.ensureDir (Path.join dir name))) := by
  apply keeps_onStore_within
  intro s hfree hcwd
  have hmade : Confined (InEntries names (placeIn cwd dir)) (s.OnWayOf (Path.join dir name)) s
      (FileAction.ensureDir (Path.join dir name) s).2 := FileAction.ensureDir_confined _ s
  refine hmade.mono (fun _ => id) fun q hq => onWay_join_inEntries hname hmem ?_
  rw [← hcwd]
  exact hq hfree

end Entry

/-- The directories that sources and headers are copied to. -/
def mirroredNames : List String :=
  [Layout.sourceDir, Layout.includeDir]

/-- Copying the headers, if there are any. -/
def mirrorHeaders (root dir : String) : Action Unit := do
  if (← get).store.isDir (Path.join root Layout.includeDir) then
    onStore
      (FileAction.copyTree (Path.join root Layout.includeDir) (Path.join dir Layout.includeDir))
  else
    log .debug ("no " ++ Layout.includeDir ++ "/ directory to mirror")

theorem mirror_eq (root dir : String) :
    mirror root dir =
      (onStore (FileAction.copyTree (Path.join root Layout.sourceDir)
        (Path.join dir Layout.sourceDir)) >>= fun _ => mirrorHeaders root dir) := rfl

theorem keeps_mirrorHeaders (root dir : String) :
    Keeps (Within [Layout.includeDir] cwd dir) (mirrorHeaders root dir) := by
  apply Keeps.get_bind
  intro σ
  split
  · exact keeps_copyTree_within (by decide) (by decide) _
  · exact keeps_log_within _ _

theorem keeps_mirror (root dir : String) :
    Keeps (Within mirroredNames cwd dir) (mirror root dir) := by
  rw [mirror_eq]
  exact Keeps.bind Within.trans (keeps_copyTree_within (by decide) (by decide) _)
    fun _ σ => (keeps_mirrorHeaders root dir σ).mono (by decide)

theorem keeps_copySources (root dir : String) :
    Keeps (Within mirroredNames cwd dir) (copySources root dir) := by
  intro σ
  rw [copySources_apply]
  split
  · exact keeps_mirror root dir σ
  · exact .refl σ

theorem keeps_installMacros (macros dir : String) :
    Keeps (Within [Layout.macroDir] cwd dir) (installMacros macros dir) := by
  refine Keeps.bind Within.trans (keeps_ensureDir_within (by decide) (by decide)) fun _ => ?_
  apply Keeps.get_bind
  intro σ
  split
  · exact keeps_copyTree_within (by decide) (by decide) _
  · exact keeps_log_within _ _

/-! ## What copies of sources leave -/

theorem mirror_eq_ok (h : mirror root dir σ = (.ok (), τ)) :
    ∃ s, FileAction.copyTree (Path.join root Layout.sourceDir) (Path.join dir Layout.sourceDir)
        σ.store = (.ok (), s) ∧
      (s.isDir (Path.join root Layout.includeDir) = false ∧ τ.store = s ∨
        FileAction.copyTree (Path.join root Layout.includeDir) (Path.join dir Layout.includeDir) s =
          (.ok (), τ.store)) := by
  obtain ⟨⟨⟩, σ₁, hfirst, h⟩ := bind_eq_ok.1 h
  obtain ⟨hfirst, -⟩ := onStore_eq hfirst
  rw [get_bind] at h
  refine ⟨σ₁.store, hfirst, ?_⟩
  split at h
  · exact .inr (onStore_eq h).1
  · next hdir =>
    cases h
    exact .inl ⟨Bool.not_eq_true _ ▸ hdir, rfl⟩

/-- Copying the sources overlays those of the build tree with those of the project. -/
theorem overlaid_of_copySources (hfree : σ.store.LinkFree)
    (hapart : Apart (σ.store.placeOf (Path.join root Layout.sourceDir))
      (σ.store.placeOf (Path.join dir Layout.sourceDir)))
    (h : copySources root dir σ = (.ok (), τ)) :
    FileAction.Overlaid (σ.store.placeOf (Path.join root Layout.sourceDir))
      (σ.store.placeOf (Path.join dir Layout.sourceDir)) σ.store τ.store := by
  rw [copySources_apply] at h
  split at h
  · obtain ⟨s, hcopy, hheaders⟩ := mirror_eq_ok h
    have hover := FileAction.overlaid_of_copyTree hfree hapart hcopy
    have hchange := FileAction.copyTree_confined hfree (Path.join root Layout.sourceDir)
      (Path.join dir Layout.sourceDir)
    rw [hcopy] at hchange
    rcases hheaders with ⟨-, heq⟩ | hheaders
    · rw [heq]
      exact hover
    · have hchange' := FileAction.copyTree_confined (hchange.linkFree hfree)
        (Path.join root Layout.includeDir) (Path.join dir Layout.includeDir)
      rw [hheaders] at hchange'
      -- the headers are not below the directory of the sources
      have hnot : ∀ q, ¬ Under (s.placeOf (Path.join dir Layout.includeDir))
          (σ.store.placeOf (Path.join dir Layout.sourceDir) ++ q) := by
        rintro q ⟨below, rest, heq⟩
        rw [placeOf_eq, placeOf_eq, hchange.cwd_eq, placeIn_join (by decide),
          placeIn_join (by decide), List.append_assoc, List.append_assoc] at heq
        exact absurd (List.cons.inj (List.append_cancel_left heq)).1 (by decide)
      intro q
      rw [hchange'.fileAt_eq (hnot q)]
      exact hover q
  · cases h

/-! ## Discovery -/

theorem keeps_discoverUnits (base : String) : Keeps Eq (Sources.discoverUnits base) := by
  refine Keeps.bind Eq.trans (Keeps.bind Eq.trans ?_ ?_) ?_
  · intro s
    rw [FileAction.list, FileAction.query_apply]
  · intro entries
    exact Keeps.get_bind fun s => Keeps.pure Eq.refl _
  · intro names
    exact Keeps.mapM Eq.refl Eq.trans fun name _ =>
      Keeps.bind Eq.trans (Sources.keeps_discover _ _ _) fun sources => Keeps.pure Eq.refl _

/-- Nothing changed in the store. -/
def SameStore (σ τ : Machine) : Prop :=
  τ.store = σ.store

theorem SameStore.refl (σ : Machine) : SameStore σ σ := rfl

theorem SameStore.trans (h : SameStore σ τ) (h' : SameStore τ υ) : SameStore σ υ :=
  Eq.trans h' h

theorem keeps_discoverLayout (dir : String) : Keeps SameStore (discoverLayout dir) := by
  rw [discoverLayout_eq]
  refine Keeps.bind SameStore.trans (fun σ => (Sources.keeps_discover _ _ _ σ.store).symm) ?_
  intro sources
  refine Keeps.bind SameStore.trans (fun σ => (keeps_discoverUnits _ σ.store).symm) ?_
  intro units
  exact fun σ => (reads_noteLayout ⟨sources, units⟩ σ).2.store_eq

/-- The layout of a tree is what the two discoveries give. -/
theorem discoverLayout_eq_ok (h : discoverLayout dir σ = (.ok layout, τ)) :
    ∃ sources units s, Sources.discover dir Layout.sourceDir false σ.store = (.ok sources, s) ∧
      Sources.discoverUnits dir s = (.ok units, τ.store) ∧ layout = ⟨sources, units⟩ := by
  rw [discoverLayout_eq] at h
  obtain ⟨sources, σ₁, hsources, h⟩ := bind_eq_ok.1 h
  obtain ⟨units, σ₂, hunits, hnote⟩ := bind_eq_ok.1 h
  obtain ⟨hresult, hsteady⟩ := reads_noteLayout ⟨sources, units⟩ σ₂
  rw [hnote] at hresult hsteady
  obtain ⟨hsources, -⟩ := onStore_eq hsources
  obtain ⟨hunits, -⟩ := onStore_eq hunits
  refine ⟨sources, units, _, hsources, ?_, Except.ok.inj hresult⟩
  rw [hsteady.store_eq]
  exact hunits

/-- What a source needs to be found in a build tree: its names are text, and its path fits. -/
def Listable (dir : String) (p : Place) : Prop :=
  Sources.IsText p ∧ Fits (p.foldl Path.join (Path.join dir Layout.sourceDir))

instance (dir : String) (p : Place) : Decidable (Listable dir p) :=
  inferInstanceAs (Decidable (_ ∧ _))

/-- The directory of a library has a path that fits if a source in it has one. -/
theorem Listable.library (h : Listable dir (name :: p))
    (hnames : ∀ other ∈ name :: p, isEntryName other = true) :
    Text.isUnicode name = true ∧ Fits (Path.join (Path.join dir Layout.sourceDir) name) := by
  obtain ⟨hname, hrest⟩ := List.forall_mem_cons.1 hnames
  have hne : Path.join (Path.join dir Layout.sourceDir) name ≠ "" :=
    join_ne_empty (isStep_of_isEntryName hname).1
  have hfits : Fits (p.foldl Path.join (Path.join (Path.join dir Layout.sourceDir) name)) := h.2
  exact ⟨h.1 name List.mem_cons_self, hfits.of_foldl_join hrest hne⟩

/-- Where no link stands, the layout of a tree lists the sources below its source directory. -/
theorem sources_of_discoverLayout (hfree : σ.store.LinkFree)
    (hlistable : ∀ p, Sources.HasSource σ.store
      (σ.store.placeOf (Path.join dir Layout.sourceDir)) p → Listable dir p)
    (h : discoverLayout dir σ = (.ok layout, τ)) (text : String) :
    text ∈ layout.sources ↔ ∃ p,
      Sources.HasSource σ.store (σ.store.placeOf (Path.join dir Layout.sourceDir)) p ∧
        Sources.sourceName p = text := by
  obtain ⟨sources, units, s, hsources, hunits, rfl⟩ := discoverLayout_eq_ok h
  obtain ⟨rfl, -⟩ := Sources.enterable_of_discover hsources
  rw [Layout.sources, List.mem_append, List.mem_flatMap,
    Sources.mem_of_discover hfree Sources.components_sourceDir hsources,
    Sources.mem_of_discoverUnits hfree (fun name p _ hsource =>
      (hlistable _ hsource).library hsource.isEntryName) hunits]
  constructor
  · rintro (⟨p, ⟨hsource, -⟩, hname⟩ | ⟨name, p, -, hsource, hname⟩)
    · exact ⟨p, hsource, hname⟩
    · exact ⟨name :: p, hsource, hname⟩
  · rintro ⟨p, hsource, hname⟩
    -- a source is directly in the directory, or in one of the directories there
    obtain ⟨name, p, rfl⟩ :=
      List.exists_cons_of_ne_nil (Sources.ne_nil_of_namesSource hsource.2)
    by_cases hp : p = []
    · subst hp
      exact .inl ⟨[name], ⟨hsource, .inr rfl⟩, hname⟩
    · exact .inr ⟨name, p, hp, hsource, hname⟩

end Autotree.BuildTree
