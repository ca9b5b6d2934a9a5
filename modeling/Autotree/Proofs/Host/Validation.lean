import Mathlib.Data.List.Forall2
import Autotree.Proofs.Host.Verdict

/-!
# How a host is validated

The checks of a validation are made in a fixed order, and the first that fails ends it: the
platform, the tools that are needed, one after the other, and last the version of autoconf.
`Validation` tells for each way it can end what the host was asked until then and what comes of it.
-/

namespace Autotree

open Autotree.Action Machine Stateful

/-- The project supports the platform, in capitals or not. -/
def Manifest.Supports (m : Manifest) (platform : String) : Prop :=
  ∃ supported ∈ m.build.platforms, Text.lowerAscii supported = Text.lowerAscii platform

namespace Host

variable {host : Host} {m : Manifest} {s : Store} {names seen : List String} {project : Project}

/-- The host finds a tool. -/
def Finds (host : Host) (s : Store) (name : String) : Prop :=
  ∃ path, host.findTool s name = some path

/-- Asked for its version, the tool at a path prints a first line with the version as last word. -/
def TellsVersion (host : Host) (s : Store) (path version : String) : Prop :=
  ∃ output line, (host.version s path).text = some output ∧
    (Text.lines output).head? = some line ∧ (Text.words line).getLast? = some version

/-- A text of a manifest where it is set and not empty, or else a default. -/
inductive Chosen (text : Option String) (default : String) : String → Prop where
  | given {value : String} (h : text = some value) (hne : value ≠ "") : Chosen text default value
  | default (h : text = none ∨ text = some "") : Chosen text default default

/-- The project on a host whose autoconf stands at a path and has a version.  The name of the
directory is that in the store as the question for the version left it. -/
structure Describes (host : Host) (m : Manifest) (s : Store) (path version : String)
    (project : Project) : Prop where
  platform_eq : project.platform = host.platform
  tools : List.Forall₂
    (fun name entry => entry.1 = name ∧ host.findTool s name = some entry.2.path ∧
      entry.2.version = if name = Descriptor.versionTool then some version else none)
    (requiredTools m.build.tools) project.tools
  name : Chosen m.project.name (dirName (host.version s path).store m.root) project.name
  version : Chosen m.project.version defaultVersion project.version

/-- The ways in which a validation can end, with the questions put to the host. -/
inductive Validation (host : Host) (m : Manifest) (s : Store) :
    List Event → Except HostError Project → Prop where
  | platform (h : ¬m.Supports host.platform) :
    Validation host m s [] (.error (.unsupportedPlatform host.platform m.build.platforms))
  | tool {before after : List String} {name : String} (hplatform : m.Supports host.platform)
    (hneeded : requiredTools m.build.tools = before ++ name :: after)
    (hbefore : ∀ other ∈ before, host.Finds s other) (h : host.findTool s name = none) :
    Validation host m s ((before ++ [name]).map .lookedUp) (.error (.missingTool name))
  | version {path : String} (hplatform : m.Supports host.platform)
    (htools : ∀ name ∈ requiredTools m.build.tools, host.Finds s name)
    (hpath : host.findTool s Descriptor.versionTool = some path)
    (h : ∀ version, ¬host.TellsVersion s path version) :
    Validation host m s
      ((requiredTools m.build.tools).map .lookedUp ++ [.askedVersion path])
      (.error (.toolVersion Descriptor.versionTool))
  | fit {path version : String} {project : Project} (hplatform : m.Supports host.platform)
    (htools : ∀ name ∈ requiredTools m.build.tools, host.Finds s name)
    (hpath : host.findTool s Descriptor.versionTool = some path)
    (hversion : host.TellsVersion s path version)
    (hproject : host.Describes m s path version project) :
    Validation host m s
      ((requiredTools m.build.tools).map .lookedUp ++ [.askedVersion path]) (.ok project)

/-! ## The tools that are needed -/

theorem firstOccurrences_eq (seen names : List String) :
    firstOccurrences seen names = (names.filter (· ∉ seen)).eraseDups := by
  induction names generalizing seen with
  | nil => rfl
  | cons name names ih =>
    rw [firstOccurrences]
    split
    · next hseen => rw [ih, List.filter_cons_of_neg (by simpa using hseen)]
    · next hseen =>
      rw [ih, List.filter_cons_of_pos (by simpa using hseen), List.eraseDups_cons,
        List.filter_filter]
      congr 3
      funext other
      by_cases hother : other = name <;> simp [hother]

theorem requiredTools_eq (extra : List String) :
    requiredTools extra = (extra ++ baselineTools).eraseDups := by
  rw [requiredTools, firstOccurrences_eq, List.filter_eq_self.2]
  simp

theorem nodup_firstOccurrences (seen names : List String) :
    (firstOccurrences seen names).Nodup := by
  induction names generalizing seen with
  | nil => exact List.nodup_nil
  | cons name names ih =>
    rw [firstOccurrences]
    split
    · exact ih seen
    · exact List.nodup_cons.2 ⟨fun h => (mem_firstOccurrences.1 h).2 List.mem_cons_self, ih _⟩

/-! ## The checks -/

theorem checkPlatform_cases (platform : String) (m : Manifest) :
    m.Supports platform ∧ checkPlatform platform m.build.platforms = .ok () ∨
      ¬m.Supports platform ∧ checkPlatform platform m.build.platforms =
        .error (.unsupportedPlatform platform m.build.platforms) := by
  have hany : m.build.platforms.any (Text.sameAscii · platform) = true ↔ m.Supports platform := by
    simp [Manifest.Supports, Text.sameAscii]
  rw [checkPlatform, ← hany]
  split
  · next h => exact .inl ⟨h, rfl⟩
  · next h => exact .inr ⟨h, rfl⟩

/-- Looking up names ends with all of them found, or at the first that is not. -/
theorem toolsOf_cases (host : Host) (s : Store) (names : List String) :
    (∃ tools, host.toolsOf s names = .ok tools ∧ (∀ name ∈ names, host.Finds s name) ∧
        host.searched s names = names ∧
        List.Forall₂ (fun name entry => entry.1 = name ∧
          host.findTool s name = some entry.2.path ∧ entry.2.version = none) names tools) ∨
      ∃ before name after, host.toolsOf s names = .error (.missingTool name) ∧
        names = before ++ name :: after ∧ (∀ other ∈ before, host.Finds s other) ∧
        host.findTool s name = none ∧ host.searched s names = before ++ [name] := by
  induction names with
  | nil => exact .inl ⟨[], rfl, nofun, rfl, .nil⟩
  | cons name names ih =>
    rw [toolsOf_cons, searched]
    cases hfound : host.findTool s name with
    | none =>
      refine .inr ⟨[], name, names, rfl, rfl, nofun, hfound, ?_⟩
      simp
    | some path =>
      rcases ih with ⟨tools, htools, hall, hsearched, hentries⟩ |
        ⟨before, missing, after, htools, rfl, hbefore, hmissing, hsearched⟩
      · refine .inl ⟨(name, { path }) :: tools, by rw [htools]; rfl, ?_, by simp [hsearched], ?_⟩
        · exact List.forall_mem_cons.2 ⟨⟨path, hfound⟩, hall⟩
        · exact .cons ⟨rfl, hfound, rfl⟩ hentries
      · refine .inr ⟨name :: before, missing, after, by rw [htools]; rfl, rfl, ?_, hmissing,
          by simp [hsearched]⟩
        exact List.forall_mem_cons.2 ⟨⟨path, hfound⟩, hbefore⟩

theorem tellsVersion_iff {path version : String} :
    host.TellsVersion s path version ↔
      (host.version s path).text.bind parseVersion = some version := by
  simp [TellsVersion, parseVersion, Option.bind_eq_some_iff]

theorem chosen_orDefault (text : Option String) (default : String) :
    Chosen text default (orDefault text default) := by
  unfold orDefault
  split
  · split
    · next h => exact .default (.inr (by rw [h]))
    · next h => exact .given rfl h
  · exact .default (.inl rfl)

theorem noteVersion_entries {tool version : String} {names : List String}
    {tools : List (String × Tool)}
    (h : List.Forall₂ (fun name entry => entry.1 = name ∧
      host.findTool s name = some entry.2.path ∧ entry.2.version = none) names tools) :
    List.Forall₂ (fun name entry => entry.1 = name ∧ host.findTool s name = some entry.2.path ∧
      entry.2.version = if name = tool then some version else none) names
      (noteVersion tool version tools) := by
  unfold noteVersion
  rw [List.forall₂_map_right_iff]
  refine h.imp ?_
  rintro _ ⟨name, found⟩ ⟨rfl, hpath, hversion⟩
  simp only at hpath hversion ⊢
  by_cases htool : name = tool
  · rw [if_pos htool]
    exact ⟨rfl, hpath, (if_pos htool).symm⟩
  · rw [if_neg htool]
    exact ⟨rfl, hpath, hversion.trans (if_neg htool).symm⟩

/-- Every validation ends in one of the ways. -/
theorem validation (host : Host) (m : Manifest) (s : Store) :
    host.Validation m s (host.questions m s) (host.verdict m s).1 := by
  unfold questions verdict
  rcases checkPlatform_cases host.platform m with ⟨hplatform, hcheck⟩ | ⟨hplatform, hcheck⟩
  case inr =>
    rw [hcheck]
    exact .platform hplatform
  rw [hcheck]
  simp only
  rcases host.toolsOf_cases s (requiredTools m.build.tools) with
    ⟨tools, htools, hall, hsearched, hentries⟩ |
    ⟨before, name, after, htools, hneeded, hbefore, hmissing, hsearched⟩
  case inr =>
    rw [htools, hsearched, List.append_nil]
    exact .tool hplatform hneeded hbefore hmissing
  obtain ⟨path, hpath⟩ := hall _ (versionTool_mem_requiredTools m.build.tools)
  have hreply : host.versionReply s = host.version s path := by rw [versionReply, hpath]; rfl
  rw [htools, hsearched, hreply, hpath]
  simp only [Option.getD_some]
  cases hparse : (host.version s path).text.bind parseVersion with
  | none =>
    refine .version hplatform hall hpath fun version hversion => ?_
    rw [tellsVersion_iff, hparse] at hversion
    cases hversion
  | some version =>
    exact .fit hplatform hall hpath (tellsVersion_iff.2 hparse)
      { platform_eq := rfl
        tools := noteVersion_entries hentries
        name := chosen_orDefault _ _
        version := chosen_orDefault _ _ }

theorem Validation.ok_iff {asked : List Event} {r : Except HostError Project}
    (h : host.Validation m s asked r) :
    (∃ project, r = .ok project) ↔ m.Supports host.platform ∧
      (∀ name ∈ requiredTools m.build.tools, host.Finds s name) ∧
        ∃ path version, host.findTool s Descriptor.versionTool = some path ∧
          host.TellsVersion s path version := by
  cases h with
  | platform h => simp [h]
  | @tool before after name hplatform hneeded hbefore h =>
    refine ⟨nofun, fun ⟨_, hall, _⟩ => ?_⟩
    obtain ⟨path, hpath⟩ := hall name (hneeded ▸ List.mem_append_right _ List.mem_cons_self)
    rw [h] at hpath
    cases hpath
  | version hplatform htools hpath h =>
    refine ⟨nofun, fun ⟨_, _, _, word, hpath', hword⟩ => ?_⟩
    rw [hpath, Option.some.injEq] at hpath'
    exact absurd (hpath' ▸ hword) (h word)
  | fit hplatform htools hpath hversion hproject =>
    exact ⟨fun _ => ⟨hplatform, htools, _, _, hpath, hversion⟩, fun _ => ⟨_, rfl⟩⟩

/-- Once all of the tools were looked up, the one that is asked for its version is among them. -/
theorem lookup_of_lookUps {σ τ : Machine} {tools : List (String × Tool)}
    (h : names.mapM (lookUp host) σ = (.ok tools, τ)) {name : String} (hname : name ∈ names) :
    ∃ found, tools.lookup name = some found := by
  obtain ⟨υ, hrun, -⟩ := (reads_lookUps host names).apply σ
  have htools := eq_ok_of_mapError (congrArg Prod.fst (h.symm.trans hrun)).symm
  exact ⟨_, lookup_of_toolsOf htools hname⟩

/-- What a validation asks and what it comes to, for every host and manifest.  The tools that are
needed are those of the manifest and those of every bootstrap, each where it occurs first; a host
is fit iff all three checks pass; the descriptor of every project that comes out can be written;
and the tool that is asked for its version is never missing once all of them were found. -/
theorem validate_outcome (host : Host) (m : Manifest) (σ : Machine) :
    (requiredTools m.build.tools = (m.build.tools ++
        ["aclocal", "autoconf", "autoheader", "automake", "autoreconf"]).eraseDups ∧
      (requiredTools m.build.tools).Nodup) ∧
    (∃ r τ asked, host.validate m σ = (r.mapError .host, τ) ∧
      activity τ.trace = activity σ.trace ++ asked ∧ host.Validation m σ.store asked r) ∧
    ((∃ project τ, host.validate m σ = (.ok project, τ)) ↔ m.Supports host.platform ∧
      (∀ name ∈ requiredTools m.build.tools, host.Finds σ.store name) ∧
        ∃ path version, host.findTool σ.store Descriptor.versionTool = some path ∧
          host.TellsVersion σ.store path version) ∧
    (∀ project τ, host.validate m σ = (.ok project, τ) →
      ∀ libs, ∃ text, Descriptor.configure project libs = .ok text) ∧
    ∀ τ υ tools, (requiredTools m.build.tools).mapM (lookUp host) τ = (.ok tools, υ) →
      ∃ found, tools.lookup Descriptor.versionTool = some found := by
  obtain ⟨ρ, hrun, -, -, hasked⟩ := host.validate_apply m σ
  have hvalidation := host.validation m σ.store
  have hok {project : Project} {τ : Machine} (h : host.validate m σ = (.ok project, τ)) :
      (host.verdict m σ.store).1 = .ok project :=
    eq_ok_of_mapError (congrArg Prod.fst (hrun.symm.trans h))
  refine ⟨⟨requiredTools_eq _, nodup_firstOccurrences _ _⟩,
    ⟨_, ρ, _, hrun, hasked.activity_eq, hvalidation⟩, ?_, ?_, ?_⟩
  · rw [← hvalidation.ok_iff]
    constructor
    · rintro ⟨project, τ, h⟩
      exact ⟨project, hok h⟩
    · rintro ⟨project, h⟩
      rw [h] at hrun
      exact ⟨project, ρ, hrun⟩
  · intro project τ h
    exact configure_of_verdict (hok h)
  · intro τ υ tools h
    exact lookup_of_lookUps h (versionTool_mem_requiredTools _)

/-- A manifest that names tools twice and leaves its name empty. -/
def repetitiveManifest : Manifest where
  project := { name := some "", version := some "1.2" }
  build := { tools := ["gcc", "automake", "gcc"], platforms := ["Darwin", "LINUX"] }
  schema := ⟨[⟨"DEBUG", .flag, none⟩], by decide⟩
  root := "/p"

/-- A host that has every tool, and says much when it is asked for a version. -/
def wordyHost : Host where
  platform := "Linux"
  findTool := fun _ name => some ("/usr/bin/" ++ name)
  version := fun s _ => ⟨some "autoconf (GNU Autoconf) 2.71 \nno warranty\n", s⟩

/-- The project on that host. -/
def repetitiveProject : Project where
  name := "p"
  version := "1.2"
  platform := "Linux"
  tools := [("gcc", { path := "/usr/bin/gcc" }), ("automake", { path := "/usr/bin/automake" }),
    ("aclocal", { path := "/usr/bin/aclocal" }),
    ("autoconf", { path := "/usr/bin/autoconf", version := some "2.71" }),
    ("autoheader", { path := "/usr/bin/autoheader" }),
    ("autoreconf", { path := "/usr/bin/autoreconf" })]

theorem wordyHost_fit :
    ∃ τ, wordyHost.validate repetitiveManifest ⟨.empty, [], .zero⟩ = (.ok repetitiveProject, τ) ∧
      activity τ.trace = [.lookedUp "gcc", .lookedUp "automake", .lookedUp "aclocal",
        .lookedUp "autoconf", .lookedUp "autoheader", .lookedUp "autoreconf",
        .askedVersion "/usr/bin/autoconf"] ∧
      ∀ libs, ∃ text, Descriptor.configure repetitiveProject libs = .ok text := by
  have hok : (wordyHost.validate repetitiveManifest ⟨.empty, [], .zero⟩).1 =
      .ok repetitiveProject := by decide +kernel
  have htools : requiredTools repetitiveManifest.build.tools =
      ["gcc", "automake", "aclocal", "autoconf", "autoheader", "autoreconf"] := by decide
  obtain ⟨-, ⟨r, τ, asked, hrun, hactivity, hvalidation⟩, -, hconfigure, -⟩ :=
    validate_outcome wordyHost repetitiveManifest ⟨.empty, [], .zero⟩
  rw [hrun] at hok
  obtain rfl : r = .ok repetitiveProject := eq_ok_of_mapError hok
  refine ⟨τ, hrun, ?_, hconfigure _ _ hrun⟩
  cases hvalidation with
  | fit _ _ hpath =>
    obtain rfl := Option.some.inj hpath
    rw [htools] at hactivity
    exact hactivity

end Host

end Autotree
