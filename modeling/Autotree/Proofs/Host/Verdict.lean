import Autotree.Host.Validate
import Autotree.Proofs.Machine

/-!
# What a host amounts to

`verdict` tells from a host, a manifest and a store how validation ends, and with which store: the
store changes only by the question for a version, put after all tools were found.  `questions` tells
what the host is asked on the way.  `validate_apply` replaces validation by the two.  A project that
was validated knows the version of autoconf, so its `configure.ac` can be written
(`configure_of_verdict`).
-/

namespace Autotree.Host

open Autotree.Action Machine Stateful

variable {host : Host} {m : Manifest} {s : Store} {σ τ : Machine} {names seen : List String}
  {name : String} {project : Project}

/-! ## The tools that are needed -/

theorem mem_firstOccurrences :
    name ∈ firstOccurrences seen names ↔ name ∈ names ∧ name ∉ seen := by
  induction names generalizing seen with
  | nil => simp [firstOccurrences]
  | cons x rest ih =>
    rw [firstOccurrences]
    split
    · next hseen =>
      rw [ih, List.mem_cons]
      constructor
      · exact fun ⟨hmem, hnot⟩ => ⟨.inr hmem, hnot⟩
      · rintro ⟨rfl | hmem, hnot⟩
        · exact absurd hseen hnot
        · exact ⟨hmem, hnot⟩
    · next hseen =>
      rw [List.mem_cons, List.mem_cons, ih, List.mem_cons]
      by_cases hx : name = x
      · simp [hx, hseen]
      · simp [hx]

theorem versionTool_mem_requiredTools (extra : List String) :
    Descriptor.versionTool ∈ requiredTools extra := by
  rw [requiredTools, mem_firstOccurrences]
  exact ⟨List.mem_append_right _ (by decide), List.not_mem_nil⟩

/-- The tools of a host by name, or the first name that it does not find. -/
def toolsOf (host : Host) (s : Store) (names : List String) :
    Except HostError (List (String × Tool)) :=
  match names.find? fun name => (host.findTool s name).isNone with
  | some name => .error (.missingTool name)
  | none => .ok (names.map fun name => (name, { path := (host.findTool s name).getD "" }))

theorem toolsOf_cons (host : Host) (s : Store) (name : String) (names : List String) :
    host.toolsOf s (name :: names) =
      match host.findTool s name with
      | some path => (host.toolsOf s names).map ((name, { path }) :: ·)
      | none => .error (.missingTool name) := by
  unfold toolsOf
  cases hfound : host.findTool s name with
  | none => simp [hfound]
  | some path =>
    simp only [List.find?_cons, hfound, Option.isNone_some]
    cases List.find? (fun name => (host.findTool s name).isNone) names with
    | none => simp [hfound, Except.map]
    | some other => rfl

theorem reads_lookUp (host : Host) (name : String) :
    Reads Event.IsInquiry
      (fun s =>
        match host.findTool s name with
        | some path => .ok (name, { path })
        | none => .error (.host (.missingTool name)))
      (host.lookUp name) := by
  have hemit : Reads Event.IsInquiry (fun _ => .ok ()) (emit (.lookedUp name)) :=
    Reads.emit trivial
  refine Reads.andThen hemit (Reads.get_bind ?_)
  intro σ
  cases host.findTool σ.store name with
  | none => exact ⟨rfl, .refl σ⟩
  | some path =>
    have hlog := (Reads.log .debug ("found " ++ name ++ " at " ++ Text.shown path)).mono
      fun _ => Event.IsNote.isInquiry
    exact Reads.bind hlog (fun _ => Reads.pure _) σ

theorem reads_lookUps (host : Host) (names : List String) :
    Reads Event.IsInquiry (fun s => (host.toolsOf s names).mapError .host)
      (names.mapM (lookUp host)) := by
  induction names with
  | nil =>
    rw [List.mapM_nil]
    exact Reads.pure []
  | cons name names ih =>
    rw [List.mapM_cons]
    intro σ
    have hrun := Reads.bind (reads_lookUp host name)
      (fun tool => Reads.bind ih fun tools => Reads.pure (tool :: tools)) σ
    refine ⟨hrun.1.trans ?_, hrun.2⟩
    simp only [toolsOf_cons]
    cases host.findTool σ.store name with
    | none => rfl
    | some path => cases host.toolsOf σ.store names <;> rfl

/-! ## The questions -/

/-- The names that are looked up: those up to the first that is not found. -/
def searched (host : Host) (s : Store) : List String → List String
  | [] => []
  | name :: names =>
    name :: if (host.findTool s name).isSome then searched host s names else []

theorem asked_lookUp (host : Host) (name : String) (σ : Machine) :
    Asked [.lookedUp name] σ (host.lookUp name σ).2 := by
  unfold lookUp
  rw [bind_ok (emit_apply ..), get_bind]
  cases host.findTool σ.store name with
  | none => exact ⟨[.lookedUp name], rfl, rfl⟩
  | some path =>
    refine ⟨[.lookedUp name,
      .logged .debug ("found " ++ name ++ " at " ++ Text.shown path)], ?_, rfl⟩
    exact List.append_assoc _ _ _

theorem asked_lookUps (host : Host) (names : List String) (σ : Machine) :
    Asked ((host.searched σ.store names).map .lookedUp) σ (names.mapM (lookUp host) σ).2 := by
  induction names generalizing σ with
  | nil => exact ⟨[], (List.append_nil _).symm, rfl⟩
  | cons name names ih =>
    obtain ⟨τ, hrun, hsteady⟩ := (reads_lookUp host name).apply σ
    have hfirst := host.asked_lookUp name σ
    rw [hrun] at hfirst
    rw [List.mapM_cons, searched]
    cases hfound : host.findTool σ.store name with
    | none =>
      simp only [hfound] at hrun
      rw [bind_error hrun]
      exact hfirst
    | some path =>
      simp only [hfound] at hrun
      have hrest := ih τ
      rw [hsteady.store_eq] at hrest
      rw [bind_ok hrun]
      rcases hnext : names.mapM (lookUp host) τ with ⟨e | tools, υ⟩
      all_goals rw [hnext] at hrest
      · rw [bind_error hnext]
        exact hfirst.trans hrest
      · rw [bind_ok hnext]
        exact hfirst.trans hrest

/-- The questions put to a host: for the tools, and for the version once all of them were found. -/
def questions (host : Host) (m : Manifest) (s : Store) : List Event :=
  match checkPlatform host.platform m.build.platforms with
  | .error _ => []
  | .ok () =>
    (host.searched s (requiredTools m.build.tools)).map .lookedUp ++
      match host.toolsOf s (requiredTools m.build.tools) with
      | .error _ => []
      | .ok _ => [.askedVersion ((host.findTool s Descriptor.versionTool).getD "")]

theorem isInquiry_of_mem_questions : ∀ e ∈ host.questions m s, e.IsInquiry := by
  unfold questions
  split
  · nofun
  · refine List.forall_mem_append.2 ⟨List.forall_mem_map.2 fun _ _ => trivial, ?_⟩
    split
    · nofun
    · exact List.forall_mem_singleton.2 trivial

/-! ## The verdict -/

/-- The project on a host whose tools are known. -/
def projectOn (host : Host) (m : Manifest) (s : Store) (tools : List (String × Tool))
    (version : String) : Project where
  name := orDefault m.project.name (dirName s m.root)
  version := orDefault m.project.version defaultVersion
  platform := host.platform
  tools := noteVersion Descriptor.versionTool version tools

/-- What asking a host for the version of autoconf comes to. -/
def versionReply (host : Host) (s : Store) : VersionReply :=
  host.version s ((host.findTool s Descriptor.versionTool).getD "")

/-- How a host does for a project, and the store as the question for a version leaves it. -/
def verdict (host : Host) (m : Manifest) (s : Store) : Except HostError Project × Store :=
  match checkPlatform host.platform m.build.platforms with
  | .error e => (.error e, s)
  | .ok () =>
    match host.toolsOf s (requiredTools m.build.tools) with
    | .error e => (.error e, s)
    | .ok tools =>
      let reply := host.versionReply s
      match reply.text.bind parseVersion with
      | none => (.error (.toolVersion Descriptor.versionTool), reply.store)
      | some version => (.ok (host.projectOn m reply.store tools version), reply.store)

/-- A host that fails leaves the store alone, unless it was asked for a version. -/
theorem verdict_eq_error {e : HostError} (h : (host.verdict m s).1 = .error e) :
    (host.verdict m s).2 = s ∨ e = .toolVersion Descriptor.versionTool ∧
      (host.verdict m s).2 = (host.versionReply s).store := by
  unfold verdict at h ⊢
  split
  · exact .inl rfl
  · next hplatform =>
    rw [hplatform] at h
    simp only at h
    split
    · exact .inl rfl
    · next tools htools =>
      rw [htools] at h
      simp only at h ⊢
      split
      · next hversion =>
        rw [hversion] at h
        cases h
        exact .inr ⟨rfl, rfl⟩
      · next version hversion =>
        rw [hversion] at h
        cases h

/-- The questions put to the host leave the files alone. -/
def LeavesFiles (host : Host) : Prop :=
  ∀ s path, (host.version s path).store = s

theorem verdict_store (h : host.LeavesFiles) : (host.verdict m s).2 = s := by
  unfold verdict versionReply
  split
  · rfl
  · split
    · rfl
    · simp only
      split <;> exact h s _

theorem lookup_of_toolsOf {tools : List (String × Tool)} (h : host.toolsOf s names = .ok tools)
    (hname : name ∈ names) :
    tools.lookup name = some { path := (host.findTool s name).getD "" } := by
  induction names generalizing tools with
  | nil => cases hname
  | cons other names ih =>
    rw [toolsOf_cons] at h
    cases hfound : host.findTool s other with
    | none =>
      rw [hfound] at h
      cases h
    | some path =>
      cases hrest : host.toolsOf s names with
      | error e =>
        rw [hfound, hrest] at h
        cases h
      | ok others =>
        rw [hfound, hrest] at h
        cases h
        rw [List.lookup_cons]
        by_cases heq : name = other
        · simp [heq, hfound]
        · rw [beq_false_of_ne heq]
          exact ih hrest ((List.mem_cons.1 hname).resolve_left heq)

theorem askVersion_apply (host : Host) (tool path : String) (σ : Machine) :
    ∃ τ, host.askVersion tool path σ =
        (match (host.version σ.store path).text.bind parseVersion with
          | some version => .ok version
          | none => .error (.host (.toolVersion tool)), τ) ∧
      τ.store = (host.version σ.store path).store ∧ τ.clock = σ.clock ∧
      Asked [.askedVersion path] σ τ := by
  refine ⟨⟨(host.version σ.store path).store, σ.trace ++ [.askedVersion path], σ.clock⟩, ?_, rfl,
    rfl, [.askedVersion path], rfl, rfl⟩
  unfold askVersion
  rw [bind_ok (emit_apply ..), get_bind, modify_bind]
  simp only
  cases (host.version σ.store path).text.bind parseVersion <;> rfl

/-- Validating comes to the verdict, and puts these questions: notes aside, nothing else is left on
the machine. -/
theorem validate_apply (host : Host) (m : Manifest) (σ : Machine) :
    ∃ τ, host.validate m σ = ((host.verdict m σ.store).1.mapError .host, τ) ∧
      τ.store = (host.verdict m σ.store).2 ∧ τ.clock = σ.clock ∧
      Asked (host.questions m σ.store) σ τ := by
  unfold validate verdict questions
  cases hplatform : checkPlatform host.platform m.build.platforms with
  | error e => exact ⟨σ, rfl, rfl, rfl, [], (List.append_nil _).symm, rfl⟩
  | ok _ =>
    obtain ⟨ρ, hlog, hρ⟩ := (Reads.log .debug ("host platform: " ++ host.platform)).apply σ
    obtain ⟨υ, htools, hυ⟩ := (reads_lookUps host (requiredTools m.build.tools)).apply ρ
    have hsearched := host.asked_lookUps (requiredTools m.build.tools) ρ
    rw [htools, hρ.store_eq] at hsearched
    have hasked := hρ.grown.asked.trans hsearched
    have hstore : υ.store = σ.store := hυ.store_eq.trans hρ.store_eq
    have hclock : υ.clock = σ.clock := hυ.clock_eq.trans hρ.clock_eq
    -- the tools are looked up in the store as it was
    rw [hρ.store_eq] at htools
    rw [bind_ok (show ofExcept Failure.host (.ok ()) σ = (.ok (), σ) from rfl), bind_ok hlog]
    cases hfound : host.toolsOf σ.store (requiredTools m.build.tools) with
    | error e =>
      rw [hfound] at htools
      rw [bind_error htools]
      exact ⟨υ, rfl, hstore, hclock, by simpa using hasked⟩
    | ok tools =>
      rw [hfound] at htools
      rw [bind_ok htools]
      simp only [lookup_of_toolsOf hfound (versionTool_mem_requiredTools m.build.tools)]
      obtain ⟨ω, hask, hω, hclock', hasked'⟩ := host.askVersion_apply Descriptor.versionTool
        ((host.findTool σ.store Descriptor.versionTool).getD "") υ
      rw [hstore] at hask hω
      unfold versionReply
      cases hversion : (host.version σ.store
          ((host.findTool σ.store Descriptor.versionTool).getD "")).text.bind parseVersion with
      | none =>
        rw [hversion] at hask
        rw [bind_error hask]
        exact ⟨ω, rfl, hω, hclock'.trans hclock, hasked.trans hasked'⟩
      | some version =>
        rw [hversion] at hask
        rw [bind_ok hask]
        obtain ⟨κ, hlog', hκ⟩ :=
          (Reads.log .info ("using " ++ Descriptor.versionTool ++ " " ++ version)).apply ω
        rw [bind_ok hlog', get_bind, hκ.store_eq, hω]
        refine ⟨κ, rfl, hκ.store_eq.trans hω, hκ.clock_eq.trans (hclock'.trans hclock), ?_⟩
        simpa using (hasked.trans hasked').trans hκ.grown.asked

/-! ## Validated projects -/

theorem lookup_noteVersion {tools : List (String × Tool)} {tool : String} {found : Tool}
    (h : tools.lookup tool = some found) (version : String) :
    (noteVersion tool version tools).lookup tool = some { found with version } := by
  induction tools with
  | nil => cases h
  | cons head tools ih =>
    obtain ⟨name, t⟩ := head
    rw [List.lookup_cons] at h
    rw [noteVersion, List.map_cons]
    by_cases heq : tool = name
    · subst heq
      simp only [beq_self_eq_true, Option.some.injEq] at h
      simp [h]
    · rw [beq_false_of_ne heq] at h
      have hname : name ≠ tool := fun h => heq h.symm
      simp only [if_neg hname, List.lookup_cons, beq_false_of_ne heq]
      exact ih h

/-- The descriptor that declares the version of autoconf can be written for every project that was
validated. -/
theorem configure_of_verdict (h : (host.verdict m s).1 = .ok project) (libs : List String) :
    ∃ text, Descriptor.configure project libs = .ok text := by
  unfold verdict at h
  split at h
  · cases h
  · split at h
    · cases h
    · next tools htools =>
      simp only at h
      split at h
      · cases h
      · next version _ =>
        cases h
        have hlookup := lookup_noteVersion
          (lookup_of_toolsOf htools (versionTool_mem_requiredTools m.build.tools)) version
        unfold Descriptor.configure Project.toolVersion? projectOn
        rw [hlookup]
        exact ⟨_, rfl⟩

end Autotree.Host
