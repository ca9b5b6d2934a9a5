import Autotree.Pipeline.Basic
import Autotree.Proofs.BuildTree.Configuration
import Autotree.Proofs.BuildTree.Write

/-!
# The parts of a pipeline

A run is its front, which configures and generates, and then its steps: the front is the same
whatever the last stage (`run_eq`), and a run that ends with the generated tree is the front alone
(`run_generate`).
-/

namespace Autotree

namespace Pipeline

open Autotree.Action Machine Stateful BuildTree

variable {p : Pipeline} {m : Manifest} {last : Stage} {σ τ : Machine}

/-! ## Stages and reports -/

theorem enter_apply (stage : Stage) (σ : Machine) :
    enter stage σ = (.ok (), { σ with
      trace := σ.trace ++ [.logged .info ("stage: " ++ stage.word), .entered stage] }) := by
  unfold enter
  rw [bind_ok (log_apply ..), emit_apply]
  simp

theorem reads_report (p : Pipeline) (status : Status) (message : String) :
    Reads Event.IsNote (fun _ => .ok ()) (p.report status message) := by
  unfold report
  split
  · exact Reads.emit trivial
  · exact Reads.pure ()

/-! ## Front and steps -/

/-- Entering the first stage. -/
def opening (p : Pipeline) (m : Manifest) : Action Unit := do
  enter .configure
  p.report .resolving ("options from " ++ m.build.config)

/-- Generating the tree of a project that was prepared. -/
def generating (p : Pipeline) (m : Manifest) (prepared : Prepared) : Action Generation := do
  enter .generate
  p.report .generating (prepared.project.name ++ " v" ++ prepared.project.version)
  BuildTree.write m prepared

/-- The stages of every run: configuring and generating. -/
def front (p : Pipeline) (m : Manifest) : Action Generation := do
  p.opening m
  let prepared ← BuildTree.prepare m p.host
  p.generating m prepared

/-- The stages after the tree is generated, up to a last one. -/
def back (p : Pipeline) (last : Stage) (generation : Generation) : Action Unit := do
  if .bootstrap ≤ last then
    enter .bootstrap
    p.runSteps Step.bootstrapSteps generation.dir
  if .build ≤ last then
    enter .build
    p.report .building generation.project.name
    p.runSteps Step.buildSteps generation.dir
    enter .done

theorem run_eq (p : Pipeline) (m : Manifest) (last : Stage) :
    p.run m last = do
      let generation ← p.front m
      p.back last generation
      return generation := by
  unfold run front opening generating back
  simp only [bind_assoc]
  by_cases hbootstrap : Stage.bootstrap ≤ last <;> by_cases hbuild : Stage.build ≤ last <;>
    simp only [hbootstrap, hbuild, if_true, if_false, bind_assoc, pure_bind]

theorem run_generate (p : Pipeline) (m : Manifest) : p.run m .generate = p.front m := by
  have hback : ∀ generation, p.back .generate generation = pure () := fun _ => rfl
  rw [run_eq]
  simp only [hback, pure_bind, bind_pure]

/-! ## What the front leaves -/

/-- A stage was entered, and apart from notes nothing else happened. -/
structure Entered (stage : Stage) (σ τ : Machine) : Prop where
  store_eq : τ.store = σ.store
  clock_eq : τ.clock = σ.clock
  stages_eq : stages τ.trace = stages σ.trace ++ [stage]
  calls_eq : calls τ.trace = calls σ.trace
  hostCalls_eq : hostCalls τ.trace = hostCalls σ.trace

theorem enter_report_apply (p : Pipeline) (stage : Stage) (status : Status) (message : String)
    (σ : Machine) :
    ∃ τ, (do enter stage; p.report status message) σ = (.ok (), τ) ∧ Entered stage σ τ ∧
      σ.trace <+: τ.trace := by
  obtain ⟨τ, hreport, hτ⟩ := (p.reads_report status message).apply
    { σ with trace := σ.trace ++ [.logged .info ("stage: " ++ stage.word), .entered stage] }
  refine ⟨τ, (bind_ok (enter_apply stage σ)).trans hreport,
    ⟨hτ.store_eq, hτ.clock_eq, ?_, ?_, ?_⟩, ?_⟩
  · rw [(hτ.grown.mono fun _ => Event.IsNote.isInquiry).stages_eq, stages_append]
    rfl
  · rw [(hτ.grown.mono fun _ => Event.IsNote.isInquiry).calls_eq, calls_append]
    exact List.append_nil _
  · rw [hτ.grown.hostCalls_eq, hostCalls_append]
    exact List.append_nil _
  · obtain ⟨events, htrace, -⟩ := hτ.grown
    rw [htrace]
    exact (List.prefix_append _ _).trans (List.prefix_append _ _)

theorem opening_apply (p : Pipeline) (m : Manifest) (σ : Machine) :
    ∃ τ, p.opening m σ = (.ok (), τ) ∧ Entered .configure σ τ := by
  obtain ⟨τ, hrun, hentered, -⟩ :=
    p.enter_report_apply .configure .resolving ("options from " ++ m.build.config) σ
  exact ⟨τ, hrun, hentered⟩

theorem report_congr {p' : Pipeline} (h : p'.reporter = p.reporter) : p'.report = p.report := by
  funext status message
  rw [report, report, h]

/-- When the configuration fails, so does the front, with nothing asked, run or written; the host
and the runner make no difference. -/
theorem front_of_error {e : Failure} (h : definesOf m σ.store = .error e) :
    ∃ τ, (∀ p' : Pipeline, p'.reporter = p.reporter → p'.front m σ = (.error e, τ)) ∧
      Entered .configure σ τ := by
  obtain ⟨ρ, hopening, hρ⟩ := p.opening_apply m σ
  rw [← hρ.store_eq] at h
  obtain ⟨τ, hτ, hprepare⟩ := prepare_of_error h
  refine ⟨τ, ?_, hτ.store_eq.trans hρ.store_eq, hτ.clock_eq.trans hρ.clock_eq, ?_,
    ?_, hτ.grown.hostCalls_eq.trans hρ.hostCalls_eq⟩
  · intro p' hp'
    have hsame : p'.opening m = p.opening m := by rw [opening, opening, report_congr hp']
    unfold front
    rw [hsame, bind_ok hopening, bind_error (hprepare p'.host)]
  · exact ((hτ.grown.mono fun _ => Event.IsNote.isInquiry).stages_eq).trans hρ.stages_eq
  · exact ((hτ.grown.mono fun _ => Event.IsNote.isInquiry).calls_eq).trans hρ.calls_eq

/-- When the host fails, so does the front, with nothing run; the runner makes no difference. -/
theorem front_of_host_error {defines : List Define} {e : HostError}
    (h : definesOf m σ.store = .ok defines) (hverdict : (p.host.verdict m σ.store).1 = .error e) :
    ∃ τ, (∀ p' : Pipeline, p'.reporter = p.reporter → p'.host = p.host →
        p'.front m σ = (.error (.host e), τ)) ∧
      τ.store = (p.host.verdict m σ.store).2 ∧
      stages τ.trace = stages σ.trace ++ [.configure] ∧ calls τ.trace = calls σ.trace := by
  obtain ⟨ρ, hopening, hρ⟩ := p.opening_apply m σ
  rw [← hρ.store_eq] at h hverdict ⊢
  obtain ⟨τ, hprepare, hstore, -, hgrown⟩ := prepare_of_ok h p.host
  rw [hverdict] at hprepare
  refine ⟨τ, fun p' hp' hhost => ?_, hstore, hgrown.stages_eq.trans hρ.stages_eq,
    hgrown.calls_eq.trans hρ.calls_eq⟩
  have hsame : p'.opening m = p.opening m := by rw [opening, opening, report_congr hp']
  unfold front
  rw [hsame, hhost, bind_ok hopening]
  exact bind_error hprepare

/-- When both are fine, the front is the writing of the tree. -/
theorem front_of_ok {defines : List Define} {project : Project}
    (h : definesOf m σ.store = .ok defines)
    (hverdict : (p.host.verdict m σ.store).1 = .ok project) :
    ∃ τ, p.front m σ = BuildTree.write m ⟨project, defines⟩ τ ∧
      τ.store = (p.host.verdict m σ.store).2 ∧
      stages τ.trace = stages σ.trace ++ [.configure, .generate] ∧
      calls τ.trace = calls σ.trace := by
  obtain ⟨ρ, hopening, hρ⟩ := p.opening_apply m σ
  rw [← hρ.store_eq] at h hverdict ⊢
  obtain ⟨υ, hprepare, hstore, -, hgrown⟩ := prepare_of_ok h p.host
  rw [hverdict] at hprepare
  obtain ⟨τ, hreport, hτ, -⟩ := p.enter_report_apply .generate .generating
    (project.name ++ " v" ++ project.version) υ
  refine ⟨τ, ?_, hτ.store_eq.trans hstore, ?_, ?_⟩
  · unfold front
    rw [bind_ok hopening]
    refine (bind_ok hprepare).trans ?_
    unfold generating
    rw [← bind_assoc, bind_ok hreport]
  · rw [hτ.stages_eq, hgrown.stages_eq, hρ.stages_eq, List.append_assoc]
    rfl
  · rw [hτ.calls_eq, hgrown.calls_eq, hρ.calls_eq]

/-- A front that succeeds has entered two stages, run nothing, and written both descriptors. -/
theorem front_eq_ok {g : Generation} (h : p.front m σ = (.ok g, τ)) :
    stages τ.trace = stages σ.trace ++ [.configure, .generate] ∧
      calls τ.trace = calls σ.trace ∧ g.dir = m.buildDir ∧
      ∃ text, Descriptor.configure g.project m.build.libs = .ok text ∧
        Holds τ.store m.buildDir Layout.configureFile text ∧
        Holds τ.store m.buildDir Layout.makeFile
          (Descriptor.makefile g.project m.build g.defines g.layout) := by
  cases hdefines : definesOf m σ.store with
  | error e =>
    obtain ⟨ρ, hfront, -⟩ := front_of_error (p := p) hdefines
    rw [hfront p rfl] at h
    cases h
  | ok defines =>
    cases hverdict : (p.host.verdict m σ.store).1 with
    | error e =>
      obtain ⟨ρ, hfront, -⟩ := front_of_host_error hdefines hverdict
      rw [hfront p rfl rfl] at h
      cases h
    | ok project =>
      obtain ⟨ρ, hfront, -, hstages, hcalls⟩ := front_of_ok hdefines hverdict
      rw [hfront] at h
      obtain ⟨text, hconfigure⟩ := Host.configure_of_verdict hverdict m.build.libs
      have hwork : WorksOnFiles (BuildTree.write m ⟨project, defines⟩) :=
        write_worksOnFiles hconfigure
      have hgrown : Grown Event.IsNote ρ τ := by
        have hkeeps := hwork.keeps ρ
        rwa [h] at hkeeps
      obtain ⟨hproject, hdefs, hdir, text', htext, hholds, hholds'⟩ := descriptors_of_write h
      have hquiet : Grown Event.IsInquiry ρ τ := hgrown.mono fun _ => Event.IsNote.isInquiry
      refine ⟨hquiet.stages_eq.trans hstages, hquiet.calls_eq.trans hcalls, hdir, text', ?_,
        hholds, ?_⟩
      · rw [hproject]
        exact htext
      · rw [hproject, hdefs]
        exact hholds'

end Pipeline

end Autotree
