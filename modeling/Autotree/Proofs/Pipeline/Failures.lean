import Autotree.Proofs.Pipeline.Schedule

/-!
# Where failures come from

A failure tells at which stage it arose.  Failures of the configuration and of the host come from
the first stage, before anything is written or run; failures of files from the second; failures of
steps from the later ones, after both descriptors were written.
-/

namespace Autotree

open Autotree.Action Machine Stateful BuildTree

/-- How an operation that generates a tree accounts for the failures of the configuration and of
the host: they are passed on as they are, before anything is written or run, and no other part of
the operation has such a failure. -/
structure AccountsFor (m : Manifest) (host : Host) (σ : Machine) (r : Except Failure Generation)
    (τ : Machine) : Prop where
  of_config : ∀ e, (resolveDefines m σ).1 = .error e →
    r = .error e ∧ τ.store = σ.store ∧ hostCalls τ.trace = hostCalls σ.trace ∧
      calls τ.trace = calls σ.trace
  of_host : ∀ defines e, (resolveDefines m σ).1 = .ok defines →
    (host.validate m σ).1 = .error e →
    r = .error e ∧ (∃ cause, e = .host cause) ∧ calls τ.trace = calls σ.trace ∧
      (τ.store = σ.store ∨ e = .host (.toolVersion Descriptor.versionTool) ∧
        τ.store = (host.versionReply σ.store).store)
  config_only : ∀ e, r = .error (.config e) → (resolveDefines m σ).1 = .error (.config e)
  host_only : ∀ e, r = .error (.host e) →
    (∃ defines, (resolveDefines m σ).1 = .ok defines) ∧
      (host.validate m σ).1 = .error (.host e)

section Accounts

variable {p : Pipeline} {m : Manifest} {host : Host} {last : Stage} {σ τ : Machine}
  {r : Except Failure Generation} {e : Failure} {g : Generation}

theorem resolveDefines_fst (m : Manifest) (σ : Machine) :
    (resolveDefines m σ).1 = definesOf m σ.store :=
  (reads_resolveDefines m σ).1

theorem validate_fst (host : Host) (m : Manifest) (σ : Machine) :
    (host.validate m σ).1 = (host.verdict m σ.store).1.mapError .host := by
  obtain ⟨τ, hrun, -⟩ := host.validate_apply m σ
  rw [hrun]

/-! ## Kinds of failures -/

theorem ne_host_of_ofConfig (h : OfConfig e) (cause : HostError) : e ≠ .host cause := by
  rintro rfl
  rcases h with ⟨_, h⟩ | ⟨_, _, h⟩ <;> cases h

theorem ne_step_of_ofConfig (h : OfConfig e) (cause : StepError) : e ≠ .step cause := by
  rintro rfl
  rcases h with ⟨_, h⟩ | ⟨_, _, h⟩ <;> cases h

/-- A failure of files or of steps. -/
def Failure.OfWork (e : Failure) : Prop :=
  e.OfFiles ∨ ∃ cause, e = .step cause

theorem Failure.OfWork.ne_config (h : e.OfWork) (cause : ConfigError) : e ≠ .config cause := by
  rintro rfl
  rcases h with h | ⟨_, h⟩ <;> cases h

theorem Failure.OfWork.ne_host (h : e.OfWork) (cause : HostError) : e ≠ .host cause := by
  rintro rfl
  rcases h with h | ⟨_, h⟩ <;> cases h

/-- Writing the tree of a project that was validated fails on files only. -/
theorem ofFiles_of_write {defines : List Define} {project : Project} {s : Store}
    (hverdict : (host.verdict m s).1 = .ok project)
    (h : write m ⟨project, defines⟩ σ = (.error e, τ)) : e.OfFiles := by
  obtain ⟨text, hconfigure⟩ := Host.configure_of_verdict hverdict m.build.libs
  have hwork : WorksOnFiles (write m ⟨project, defines⟩) := write_worksOnFiles hconfigure
  exact hwork.failsWith σ e τ h

/-! ## Accounts -/

theorem AccountsFor.of_config_error (hdefines : definesOf m σ.store = .error e)
    (hstore : τ.store = σ.store) (hasked : hostCalls τ.trace = hostCalls σ.trace)
    (hcalls : calls τ.trace = calls σ.trace) : AccountsFor m host σ (.error e) τ := by
  constructor
  · intro e' h
    rw [resolveDefines_fst, hdefines] at h
    cases h
    exact ⟨rfl, hstore, hasked, hcalls⟩
  · intro defines e' h
    rw [resolveDefines_fst, hdefines] at h
    cases h
  · intro cause h
    rw [resolveDefines_fst, hdefines]
    cases h
    rfl
  · intro cause h
    cases h
    exact absurd rfl (ne_host_of_ofConfig (ofConfig_of_definesOf hdefines) cause)

theorem AccountsFor.of_host_error {defines : List Define} {cause : HostError}
    (hdefines : definesOf m σ.store = .ok defines)
    (hverdict : (host.verdict m σ.store).1 = .error cause)
    (hstore : τ.store = (host.verdict m σ.store).2) (hcalls : calls τ.trace = calls σ.trace) :
    AccountsFor m host σ (.error (.host cause)) τ := by
  constructor
  · intro e h
    rw [resolveDefines_fst, hdefines] at h
    cases h
  · intro defines' e h h'
    rw [validate_fst, hverdict] at h'
    cases h'
    refine ⟨rfl, ⟨cause, rfl⟩, hcalls, ?_⟩
    rw [hstore]
    rcases Host.verdict_eq_error hverdict with hsame | ⟨rfl, hreply⟩
    · exact .inl hsame
    · exact .inr ⟨rfl, hreply⟩
  · intro other h
    cases h
  · intro other h
    cases h
    refine ⟨⟨defines, by rw [resolveDefines_fst, hdefines]⟩, ?_⟩
    rw [validate_fst, hverdict]
    rfl

theorem AccountsFor.of_prepared {defines : List Define} {project : Project}
    (hdefines : definesOf m σ.store = .ok defines)
    (hverdict : (host.verdict m σ.store).1 = .ok project)
    (hwork : ∀ e, r = .error e → e.OfWork) : AccountsFor m host σ r τ := by
  constructor
  · intro e h
    rw [resolveDefines_fst, hdefines] at h
    cases h
  · intro defines' e h h'
    rw [validate_fst, hverdict] at h'
    cases h'
  · intro cause h
    exact absurd rfl ((hwork _ h).ne_config cause)
  · intro cause h
    exact absurd rfl ((hwork _ h).ne_host cause)

/-! ## Generating alone -/

/-- When the configuration fails, so does generating, whatever the host. -/
theorem generate_of_error (h : definesOf m σ.store = .error e) :
    ∃ τ, Steady Event.IsNote σ τ ∧ ∀ host, generate m host σ = (.error e, τ) := by
  obtain ⟨τ, hτ, hprepare⟩ := prepare_of_error h
  exact ⟨τ, hτ, fun host => bind_error (hprepare host)⟩

theorem generate_of_host_error {defines : List Define} {cause : HostError}
    (h : definesOf m σ.store = .ok defines) (hverdict : (host.verdict m σ.store).1 = .error cause) :
    ∃ τ, generate m host σ = (.error (.host cause), τ) ∧
      τ.store = (host.verdict m σ.store).2 ∧ calls τ.trace = calls σ.trace := by
  obtain ⟨τ, hprepare, hstore, -, hgrown⟩ := prepare_of_ok h host
  rw [hverdict] at hprepare
  exact ⟨τ, bind_error hprepare, hstore, hgrown.calls_eq⟩

theorem generate_of_ok {defines : List Define} {project : Project}
    (h : definesOf m σ.store = .ok defines) (hverdict : (host.verdict m σ.store).1 = .ok project) :
    ∃ τ, generate m host σ = write m ⟨project, defines⟩ τ := by
  obtain ⟨τ, hprepare, -⟩ := prepare_of_ok h host
  rw [hverdict] at hprepare
  exact ⟨τ, bind_ok hprepare⟩

/-- Generating a tree accounts for its failures. -/
theorem generate_accountsFor (m : Manifest) (host : Host) (σ : Machine) :
    AccountsFor m host σ (generate m host σ).1 (generate m host σ).2 := by
  cases hdefines : definesOf m σ.store with
  | error e =>
    obtain ⟨τ, hτ, hrun⟩ := generate_of_error hdefines
    have hnotes : Grown Event.IsInquiry σ τ := hτ.grown.mono fun _ => Event.IsNote.isInquiry
    rw [hrun host]
    exact .of_config_error hdefines hτ.store_eq hτ.grown.hostCalls_eq hnotes.calls_eq
  | ok defines =>
    cases hverdict : (host.verdict m σ.store).1 with
    | error cause =>
      obtain ⟨τ, hrun, hstore, hcalls⟩ := generate_of_host_error hdefines hverdict
      rw [hrun]
      exact .of_host_error hdefines hverdict hstore hcalls
    | ok project =>
      obtain ⟨τ, hrun⟩ := generate_of_ok hdefines hverdict
      rw [hrun]
      exact .of_prepared hdefines hverdict fun e h =>
        .inl (ofFiles_of_write hverdict (Prod.ext h rfl))

theorem generate_ne_step (m : Manifest) (host : Host) (σ : Machine) (cause : StepError) :
    (generate m host σ).1 ≠ .error (.step cause) := by
  intro h
  cases hdefines : definesOf m σ.store with
  | error e =>
    obtain ⟨τ, -, hrun⟩ := generate_of_error hdefines
    rw [hrun host] at h
    cases h
    exact ne_step_of_ofConfig (ofConfig_of_definesOf hdefines) cause rfl
  | ok defines =>
    cases hverdict : (host.verdict m σ.store).1 with
    | error e =>
      obtain ⟨τ, hrun, -⟩ := generate_of_host_error hdefines hverdict
      rw [hrun] at h
      cases h
    | ok project =>
      obtain ⟨τ, hrun⟩ := generate_of_ok hdefines hverdict
      rw [hrun] at h
      have hfiles : (Failure.step cause).OfFiles := ofFiles_of_write hverdict (Prod.ext h rfl)
      exact hfiles

/-! ## Runs -/

theorem run_of_front_error (h : p.front m σ = (.error e, τ)) (last : Stage) :
    p.run m last σ = (.error e, τ) := by
  rw [Pipeline.run_eq, bind_error h]

/-- A run ends with its front, or with a fatal step after it. -/
theorem run_cases (p : Pipeline) (m : Manifest) (last : Stage) (σ : Machine) :
    (∃ e τ, p.front m σ = (.error e, τ) ∧ p.run m last σ = (.error e, τ)) ∨
      ∃ g ρ τ fatal? events, p.front m σ = (.ok g, ρ) ∧
        p.run m last σ = ((Pipeline.resultOf fatal?).map fun _ => g, τ) ∧
        τ.trace = ρ.trace ++ events ∧ Pipeline.Reaches last fatal? (stages events) := by
  rcases hfront : p.front m σ with ⟨e | g, ρ⟩
  · exact .inl ⟨e, ρ, rfl, run_of_front_error hfront last⟩
  · obtain ⟨τ, fatal?, events, hrun, hconducted, hreaches⟩ := Pipeline.run_conducted hfront last
    exact .inr ⟨g, ρ, τ, fatal?, events, rfl, hrun, hconducted.trace_eq, hreaches⟩

theorem front_failsWith {defines : List Define} {project : Project}
    (hdefines : definesOf m σ.store = .ok defines)
    (hverdict : (p.host.verdict m σ.store).1 = .ok project) (h : p.front m σ = (.error e, τ)) :
    e.OfFiles := by
  obtain ⟨ρ, hfront, -⟩ := Pipeline.front_of_ok hdefines hverdict
  rw [hfront] at h
  exact ofFiles_of_write hverdict h

theorem front_ne_step (h : p.front m σ = (.error e, τ)) (cause : StepError) : e ≠ .step cause := by
  cases hdefines : definesOf m σ.store with
  | error e' =>
    obtain ⟨υ, hfront, -⟩ := Pipeline.front_of_error (p := p) hdefines
    rw [hfront p rfl] at h
    cases h
    exact ne_step_of_ofConfig (ofConfig_of_definesOf hdefines) cause
  | ok defines =>
    rintro rfl
    cases hverdict : (p.host.verdict m σ.store).1 with
    | error e' =>
      obtain ⟨υ, hfront, -⟩ := Pipeline.front_of_host_error hdefines hverdict
      rw [hfront p rfl rfl] at h
      cases h
    | ok project => exact front_failsWith hdefines hverdict h

/-- A run accounts for its failures. -/
theorem run_accountsFor (p : Pipeline) (m : Manifest) (last : Stage) (σ : Machine) :
    AccountsFor m p.host σ (p.run m last σ).1 (p.run m last σ).2 := by
  cases hdefines : definesOf m σ.store with
  | error e =>
    obtain ⟨τ, hfront, hentered⟩ := Pipeline.front_of_error (p := p) hdefines
    rw [run_of_front_error (hfront p rfl) last]
    exact .of_config_error hdefines hentered.store_eq hentered.hostCalls_eq hentered.calls_eq
  | ok defines =>
    cases hverdict : (p.host.verdict m σ.store).1 with
    | error cause =>
      obtain ⟨τ, hfront, hstore, -, hcalls⟩ := Pipeline.front_of_host_error hdefines hverdict
      rw [run_of_front_error (hfront p rfl rfl) last]
      exact .of_host_error hdefines hverdict hstore hcalls
    | ok project =>
      refine .of_prepared hdefines hverdict ?_
      intro e h
      rcases run_cases p m last σ with ⟨e', τ, hfront, hrun⟩ | ⟨g, ρ, τ, fatal?, events, -, hrun, -⟩
      · rw [hrun] at h
        cases h
        exact .inl (front_failsWith hdefines hverdict hfront)
      · rw [hrun] at h
        cases fatal? with
        | none => cases h
        | some cause =>
          cases h
          exact .inr ⟨cause, rfl⟩

/-- A failure of the configuration or of the host ends a run in its first stage. -/
theorem stages_of_early_failure (hearly : (∃ cause, e = .config cause) ∨ ∃ cause, e = .host cause)
    (h : (p.run m last σ).1 = .error e) :
    stages (p.run m last σ).2.trace = stages σ.trace ++ [.configure] := by
  cases hdefines : definesOf m σ.store with
  | error e' =>
    obtain ⟨τ, hfront, hentered⟩ := Pipeline.front_of_error (p := p) hdefines
    rw [run_of_front_error (hfront p rfl) last]
    exact hentered.stages_eq
  | ok defines =>
    cases hverdict : (p.host.verdict m σ.store).1 with
    | error cause =>
      obtain ⟨τ, hfront, -, hstages, -⟩ := Pipeline.front_of_host_error hdefines hverdict
      rw [run_of_front_error (hfront p rfl rfl) last]
      exact hstages
    | ok project =>
      rcases run_cases p m last σ with ⟨e', τ, hfront, hrun⟩ | ⟨g, ρ, τ, fatal?, events, -, hrun, -⟩
      · have hfiles := front_failsWith hdefines hverdict hfront
        rw [hrun] at h
        cases h
        rcases hearly with ⟨cause, rfl⟩ | ⟨cause, rfl⟩ <;> exact hfiles.elim
      · rw [hrun] at h
        cases fatal? with
        | none => cases h
        | some cause =>
          cases h
          rcases hearly with ⟨_, h⟩ | ⟨_, h⟩ <;> cases h

/-- A failure of a step comes after the descriptors, out of one of the stages that run steps. -/
theorem stages_of_step_failure {cause : StepError}
    (h : (p.run m last σ).1 = .error (.step cause)) :
    ∃ g ρ, p.run m .generate σ = (.ok g, ρ) ∧ ρ.trace <+: (p.run m last σ).2.trace ∧
      (stages (p.run m last σ).2.trace = stages σ.trace ++ [.configure, .generate, .bootstrap] ∨
        stages (p.run m last σ).2.trace =
          stages σ.trace ++ [.configure, .generate, .bootstrap, .build]) := by
  rcases run_cases p m last σ with
    ⟨e', τ, hfront, hrun⟩ | ⟨g, ρ, τ, fatal?, events, hfront, hrun, htrace, hreaches⟩
  · rw [hrun] at h
    cases h
    exact absurd rfl (front_ne_step hfront cause)
  · obtain ⟨hstages, -⟩ := Pipeline.front_eq_ok hfront
    refine ⟨g, ρ, by rw [Pipeline.run_generate, hfront], ?_, ?_⟩
    · rw [hrun, htrace]
      exact List.prefix_append _ _
    · rw [hrun, htrace, stages_append, hstages, List.append_assoc]
      rw [hrun] at h
      generalize stages events = entered at hreaches
      cases hreaches with
      | front => cases h
      | bootstrapped => cases h
      | bootstrapFailed => exact .inl rfl
      | buildFailed => exact .inr rfl
      | done => cases h

/-- Failures of the configuration and of the host are passed on as they are, from the first stage,
before anything is written or run; when the configuration fails, neither the host nor the runner
makes a difference.  A project that was validated has its `configure.ac`.  Failures of steps come
from the later stages, after both descriptors were written. -/
theorem failures_by_stage (p : Pipeline) (m : Manifest) (last : Stage) (σ : Machine) :
    AccountsFor m p.host σ (p.run m last σ).1 (p.run m last σ).2 ∧
    AccountsFor m p.host σ (generate m p.host σ).1 (generate m p.host σ).2 ∧
    (∀ e, (resolveDefines m σ).1 = .error e → ∀ p' : Pipeline, p'.reporter = p.reporter →
      ∀ last', p'.run m last' σ = p.run m last σ ∧
        generate m p'.host σ = generate m p.host σ) ∧
    (∀ e, (p.run m last σ).1 = .error e →
      (∃ cause, e = .config cause) ∨ (∃ cause, e = .host cause) →
      stages (p.run m last σ).2.trace = stages σ.trace ++ [.configure]) ∧
    (∀ project, (p.host.validate m σ).1 = .ok project →
      ∀ libs, ∃ text, Descriptor.configure project libs = .ok text) ∧
    (∀ cause, (generate m p.host σ).1 ≠ .error (.step cause)) ∧
    ∀ cause, (p.run m last σ).1 = .error (.step cause) →
      ∃ g ρ text, p.run m .generate σ = (.ok g, ρ) ∧ calls ρ.trace = calls σ.trace ∧
        Descriptor.configure g.project m.build.libs = .ok text ∧
        Holds ρ.store m.buildDir Layout.configureFile text ∧
        Holds ρ.store m.buildDir Layout.makeFile
          (Descriptor.makefile g.project m.build g.defines g.layout) ∧
        ρ.trace <+: (p.run m last σ).2.trace ∧
        (stages (p.run m last σ).2.trace = stages σ.trace ++ [.configure, .generate, .bootstrap] ∨
          stages (p.run m last σ).2.trace =
            stages σ.trace ++ [.configure, .generate, .bootstrap, .build]) := by
  refine ⟨run_accountsFor p m last σ, generate_accountsFor m p.host σ, ?_, ?_, ?_, ?_, ?_⟩
  · intro e h p' hreporter last'
    rw [resolveDefines_fst] at h
    obtain ⟨τ, hfront, -⟩ := Pipeline.front_of_error (p := p) h
    obtain ⟨υ, -, hgenerate⟩ := generate_of_error h
    rw [run_of_front_error (hfront p' hreporter), run_of_front_error (hfront p rfl), hgenerate,
      hgenerate]
    exact ⟨rfl, rfl⟩
  · exact fun e h hearly => stages_of_early_failure hearly h
  · intro project h libs
    rw [validate_fst] at h
    cases hverdict : (p.host.verdict m σ.store).1 with
    | error cause =>
      rw [hverdict] at h
      cases h
    | ok project' =>
      rw [hverdict] at h
      cases h
      exact Host.configure_of_verdict hverdict libs
  · exact generate_ne_step m p.host σ
  · intro cause h
    obtain ⟨g, ρ, hgenerate, hpre, hstages⟩ := stages_of_step_failure h
    have hfront := hgenerate
    rw [Pipeline.run_generate] at hfront
    obtain ⟨-, hcalls, -, text, htext, hconfigure, hmake⟩ := Pipeline.front_eq_ok hfront
    exact ⟨g, ρ, text, hgenerate, hcalls, htext, hconfigure, hmake, hpre, hstages⟩

end Accounts

end Autotree
