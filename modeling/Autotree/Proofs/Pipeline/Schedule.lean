import Autotree.Proofs.Pipeline.Steps

/-!
# The schedule of a pipeline

The last stage fixes a schedule of steps.  Once the tree is generated, a run issues the calls of
the schedule in order, in the build tree, up to the first step that is fatal, whatever the runner
answers; the stages that it enters have no gap, and the result names the fatal step.
-/

namespace Autotree

/-- The stages of a pipeline, in order. -/
def Stage.all : List Stage :=
  [.configure, .generate, .bootstrap, .build, .done]

namespace Pipeline

open Autotree.Action Machine Stateful BuildTree

variable {p : Pipeline} {m : Manifest} {last later : Stage} {σ τ ρ : Machine} {g : Generation}

/-- The steps that bootstrap a tree. -/
def bootstrapSchedule : List Step :=
  [⟨"aclocal", [], .quiet⟩, ⟨"autoconf", [], .quiet⟩, ⟨"autoheader", [], .quiet⟩,
    ⟨"touch", ["NEWS", "README", "AUTHORS", "ChangeLog"], .loud⟩,
    ⟨"automake", ["--add-missing"], .quietIgnore⟩, ⟨"autoreconf", ["-if"], .quiet⟩]

/-- The steps that a run up to a last stage is to make. -/
def schedule : Stage → List Step
  | .configure | .generate => []
  | .bootstrap => bootstrapSchedule
  | .build | .done => bootstrapSchedule ++ [⟨"./configure", [], .quiet⟩, ⟨"make", [], .loud⟩]

theorem schedule_eq (last : Stage) :
    schedule last = (if .bootstrap ≤ last then Step.bootstrapSteps else []) ++
      (if .build ≤ last then Step.buildSteps else []) := by
  cases last <;> rfl

/-- The stages that are entered after the tree is generated: those up to the last one, and not
beyond the one with a fatal step. -/
inductive Reaches (last : Stage) : Option StepError → List Stage → Prop
  | front (h : ¬ Stage.bootstrap ≤ last) : Reaches last none []
  | bootstrapped (h : .bootstrap ≤ last) (h' : ¬ Stage.build ≤ last) :
      Reaches last none [.bootstrap]
  | bootstrapFailed {e : StepError} (h : .bootstrap ≤ last) : Reaches last (some e) [.bootstrap]
  | buildFailed {e : StepError} (h : .build ≤ last) : Reaches last (some e) [.bootstrap, .build]
  | done (h : .build ≤ last) : Reaches last none [.bootstrap, .build, .done]

theorem bootstrap_le_of_build_le (h : Stage.build ≤ last) : Stage.bootstrap ≤ last :=
  Nat.le_trans (by decide : Stage.bootstrap.index ≤ Stage.build.index) h

theorem back_of_front (h : ¬ Stage.bootstrap ≤ last) (g : Generation) :
    p.back last g = pure () := by
  have hbuild : ¬ Stage.build ≤ last := mt bootstrap_le_of_build_le h
  rw [back, if_neg h, if_neg hbuild]

theorem back_of_bootstrap (h : .bootstrap ≤ last) (g : Generation) :
    p.back last g = (do enter .bootstrap; p.runSteps Step.bootstrapSteps g.dir) >>= fun _ =>
      if .build ≤ last then do
        enter .build
        p.report .building g.project.name
        p.runSteps Step.buildSteps g.dir
        enter .done
      else pure () := by
  rw [back, if_pos h]
  simp only [bind_assoc]

theorem bootstrap_conducted (p : Pipeline) (cwd : String) (σ : Machine) :
    ∃ τ r events, (do enter .bootstrap; p.runSteps Step.bootstrapSteps cwd) σ = (resultOf r, τ) ∧
      Conducted p.runner Step.bootstrapSteps cwd σ τ r events ∧ stages events = [.bootstrap] := by
  obtain ⟨τ, r, events, hrun, hconducted, hstages⟩ := p.runSteps_conducted Step.bootstrapSteps cwd
    { σ with trace := σ.trace ++ [.logged .info ("stage: " ++ Stage.bootstrap.word),
        .entered .bootstrap] }
  refine ⟨τ, r, _ ++ events ++ [], (bind_ok (enter_apply .bootstrap σ)).trans hrun,
    hconducted.surround rfl rfl rfl (List.append_nil _).symm rfl rfl, ?_⟩
  rw [List.append_nil, stages_append, hstages]
  rfl

theorem build_conducted (p : Pipeline) (g : Generation) (σ : Machine) :
    ∃ τ r events, (do
        enter .build
        p.report .building g.project.name
        p.runSteps Step.buildSteps g.dir
        enter .done) σ = (resultOf r, τ) ∧
      Conducted p.runner Step.buildSteps g.dir σ τ r events ∧
      stages events = if r = none then [.build, .done] else [.build] := by
  obtain ⟨ρ, hreport, hentered, before, hbefore⟩ :=
    p.enter_report_apply .build .building g.project.name σ
  obtain ⟨υ, r, events, hrun, hconducted, hstages⟩ :=
    p.runSteps_conducted Step.buildSteps g.dir ρ
  have hcalls : calls before = [] := by
    have heq := hentered.calls_eq
    rw [← hbefore, calls_append] at heq
    exact List.append_right_eq_self.1 heq
  have hstage : stages before = [.build] := by
    have heq := hentered.stages_eq
    rw [← hbefore, stages_append] at heq
    exact List.append_cancel_left heq
  rw [← bind_assoc, bind_ok hreport]
  cases r with
  | some e =>
    have hall := hconducted.surround hbefore.symm hentered.store_eq hcalls
      (List.append_nil _).symm rfl rfl
    refine ⟨υ, some e, before ++ events ++ [], bind_error hrun, hall, ?_⟩
    rw [List.append_nil, stages_append, hstage, hstages]
    rfl
  | none =>
    refine ⟨_, none, before ++ events ++ _, (bind_ok hrun).trans (enter_apply .done υ),
      hconducted.surround hbefore.symm hentered.store_eq hcalls rfl rfl rfl, ?_⟩
    rw [stages_append, stages_append, hstage, hstages]
    rfl

theorem back_conducted (p : Pipeline) (last : Stage) (g : Generation) (σ : Machine) :
    ∃ τ r events, p.back last g σ = (resultOf r, τ) ∧
      Conducted p.runner (schedule last) g.dir σ τ r events ∧ Reaches last r (stages events) := by
  by_cases hbootstrap : Stage.bootstrap ≤ last
  · obtain ⟨τ, r, events, hrun, hconducted, hstages⟩ := p.bootstrap_conducted g.dir σ
    rw [back_of_bootstrap hbootstrap, schedule_eq, if_pos hbootstrap]
    cases r with
    | some e =>
      refine ⟨τ, some e, events, bind_error hrun, hconducted.append_of_some, ?_⟩
      rw [hstages]
      exact .bootstrapFailed hbootstrap
    | none =>
      by_cases hbuild : Stage.build ≤ last
      · obtain ⟨υ, r, more, hrun', hconducted', hstages'⟩ := p.build_conducted g τ
        refine ⟨υ, r, events ++ [] ++ more, ?_, ?_, ?_⟩
        · rw [if_pos hbuild, bind_ok hrun, hrun']
        · rw [if_pos hbuild]
          exact hconducted.append (List.append_nil _).symm rfl rfl hconducted'
        · rw [List.append_nil, stages_append, hstages, hstages']
          cases r with
          | none => exact .done hbuild
          | some e => exact .buildFailed hbuild
      · refine ⟨τ, none, events, ?_, ?_, ?_⟩
        · rw [if_neg hbuild, bind_ok hrun]
          rfl
        · rw [if_neg hbuild, List.append_nil]
          exact hconducted
        · rw [hstages]
          exact .bootstrapped hbootstrap hbuild
  · have hbuild : ¬ Stage.build ≤ last := mt bootstrap_le_of_build_le hbootstrap
    refine ⟨σ, none, [], ?_, ?_, .front hbootstrap⟩
    · rw [back_of_front hbootstrap]
      rfl
    · rw [schedule_eq, if_neg hbootstrap, if_neg hbuild]
      exact ⟨(List.append_nil _).symm, rfl, .done, rfl⟩

/-! ## Whole runs -/

theorem run_of_front_ok (h : p.front m σ = (.ok g, ρ)) (last : Stage) :
    p.run m last σ = (p.back last g >>= fun _ => pure g) ρ := by
  rw [run_eq, bind_ok h]

theorem run_conducted (h : p.front m σ = (.ok g, ρ)) (last : Stage) :
    ∃ τ r events, p.run m last σ = ((resultOf r).map fun _ => g, τ) ∧
      Conducted p.runner (schedule last) g.dir ρ τ r events ∧ Reaches last r (stages events) := by
  obtain ⟨τ, r, events, hback, hconducted, hreaches⟩ := p.back_conducted last g ρ
  refine ⟨τ, r, events, ?_, hconducted, hreaches⟩
  rw [run_of_front_ok h]
  cases r with
  | some e => exact bind_error hback
  | none => exact bind_ok hback

theorem trace_prefix_back (p : Pipeline) (last : Stage) (g : Generation) (σ : Machine) :
    σ.trace <+: (p.back last g σ).2.trace := by
  obtain ⟨τ, r, events, hback, hconducted, -⟩ := p.back_conducted last g σ
  rw [hback, hconducted.trace_eq]
  exact List.prefix_append _ _

/-- A later last stage goes on where an earlier one stops, and changes nothing before. -/
theorem back_mono (hle : last ≤ later) (g : Generation) (σ : Machine) :
    (∀ e, (p.back last g σ).1 = .error e → p.back later g σ = p.back last g σ) ∧
      (p.back last g σ).2.trace <+: (p.back later g σ).2.trace := by
  by_cases hbootstrap : Stage.bootstrap ≤ last
  · have hbootstrap' : Stage.bootstrap ≤ later := Nat.le_trans hbootstrap hle
    rw [back_of_bootstrap hbootstrap, back_of_bootstrap hbootstrap']
    by_cases hbuild : Stage.build ≤ last
    · have hbuild' : Stage.build ≤ later := Nat.le_trans hbuild hle
      rw [if_pos hbuild, if_pos hbuild']
      exact ⟨fun _ _ => rfl, List.prefix_refl _⟩
    · obtain ⟨τ, r, events, hrun, -⟩ := p.bootstrap_conducted g.dir σ
      cases r with
      | some e =>
        rw [bind_error hrun, bind_error hrun]
        exact ⟨fun _ _ => rfl, List.prefix_refl _⟩
      | none =>
        rw [bind_ok hrun, bind_ok hrun, if_neg hbuild]
        refine ⟨fun e h => (nomatch h), ?_⟩
        split
        · obtain ⟨υ, r, more, hrun', hconducted, -⟩ := p.build_conducted g τ
          rw [hrun', hconducted.trace_eq]
          exact List.prefix_append _ _
        · exact List.prefix_refl _
  · rw [back_of_front hbootstrap]
    exact ⟨fun e h => (nomatch h), p.trace_prefix_back later g σ⟩

theorem run_mono (p : Pipeline) (m : Manifest) (hle : last ≤ later) (σ : Machine) :
    (∀ e, (p.run m last σ).1 = .error e → p.run m later σ = p.run m last σ) ∧
      (p.run m last σ).2.trace <+: (p.run m later σ).2.trace := by
  rcases hfront : p.front m σ with ⟨e | g, ρ⟩
  · rw [run_eq, run_eq, bind_error hfront, bind_error hfront]
    exact ⟨fun _ _ => rfl, List.prefix_refl _⟩
  · rw [run_of_front_ok hfront, run_of_front_ok hfront]
    obtain ⟨herror, hpre⟩ := back_mono (p := p) hle g ρ
    rcases hback : p.back last g ρ with ⟨e | _, τ⟩
    · rw [bind_error hback, bind_error ((herror e (by rw [hback])).trans hback)]
      exact ⟨fun _ _ => rfl, List.prefix_refl _⟩
    · rw [bind_ok hback]
      refine ⟨fun e h => (nomatch h), ?_⟩
      rw [hback] at hpre
      rcases hlater : p.back later g ρ with ⟨e | _, υ⟩
      · rw [bind_error hlater]
        rwa [hlater] at hpre
      · rw [bind_ok hlater]
        rwa [hlater] at hpre

theorem Reaches.prefix_all {r : Option StepError} {entered : List Stage}
    (h : Reaches last r entered) :
    [.configure, .generate] ++ entered <+: Stage.all := by
  cases h <;> decide

theorem Reaches.done_iff {r : Option StepError} {entered : List Stage}
    (h : Reaches last r entered) : .done ∈ entered ↔ .build ≤ last ∧ r = none := by
  cases h with
  | front h =>
    have hbuild : ¬ Stage.build ≤ last := mt bootstrap_le_of_build_le h
    simp [hbuild]
  | bootstrapped h h' => simp [h']
  | bootstrapFailed h => simp
  | buildFailed h => simp
  | done h => simp [h]

/-- Once the tree is generated, a run issues the calls of its schedule in order, in the build
tree, each answered by the runner from all that happened before, up to the first step that is
fatal.  It succeeds exactly if all steps were answered and none is fatal; otherwise it names the
last one answered.  The stages entered have no gap, the last is entered only after a build, and a
later last stage only adds to what an earlier one does. -/
theorem run_follows_schedule (p : Pipeline) (m : Manifest) (last : Stage) (σ ρ : Machine)
    (g : Generation) (h : p.run m .generate σ = (.ok g, ρ)) :
    ∃ r τ events given entered, p.run m last σ = (r, τ) ∧ τ.trace = ρ.trace ++ events ∧
      given = p.runner.answers ρ.store ρ.trace events ∧
      given.length ≤ (schedule last).length ∧
      calls τ.trace = calls σ.trace ++
        ((schedule last).take given.length).map (fun step =>
          (⟨step.program, step.args, some m.buildDir⟩, decide (step.policy ≠ .loud))) ∧
      (r = .ok g ∧ given.length = (schedule last).length ∧
          (∀ x ∈ (schedule last).zip given, ¬ x.1.IsFatal x.2.outcome) ∨
        ∃ front step answer why, r = .error (.step why) ∧
          (schedule last).zip given = front ++ [(step, answer)] ∧
          step.Fatal answer.outcome why ∧ ∀ x ∈ front, ¬ x.1.IsFatal x.2.outcome) ∧
      stages τ.trace = stages σ.trace ++ entered ∧ entered <+: Stage.all ∧
      (.done ∈ entered ↔ .build ≤ last ∧ r = .ok g) ∧
      ∀ later, last ≤ later → τ.trace <+: (p.run m later σ).2.trace ∧
        ∀ e, r = .error e → p.run m later σ = (r, τ) := by
  rw [run_generate] at h
  obtain ⟨hstages, hcalls, hdir, -⟩ := front_eq_ok h
  obtain ⟨τ, r, events, hrun, hconducted, hreaches⟩ := run_conducted h last
  have hmono : ∀ later, last ≤ later → τ.trace <+: (p.run m later σ).2.trace ∧
      ∀ e, (resultOf r).map (fun _ => g) = .error e →
        p.run m later σ = ((resultOf r).map fun _ => g, τ) := by
    intro later hle
    obtain ⟨herror, hpre⟩ := p.run_mono m hle σ
    rw [hrun] at herror hpre
    exact ⟨hpre, herror⟩
  refine ⟨_, τ, events, _, [.configure, .generate] ++ stages events, hrun, hconducted.trace_eq, rfl,
    hconducted.stops.length_le, ?_, ?_, ?_, hreaches.prefix_all, ?_, hmono⟩
  · rw [hconducted.trace_eq, calls_append, hcalls, hconducted.calls_eq, hdir]
    simp only [Step.call_eq]
  · simp only [← Step.fatal?_eq_none_iff, ← Step.fatal?_eq_some_iff]
    cases r with
    | none =>
      left
      obtain ⟨hlength, hnone⟩ := hconducted.stops.eq_none_iff.1 rfl
      exact ⟨rfl, hlength, hnone⟩
    | some why =>
      right
      obtain ⟨front, step, answer, hzip, hfatal, hfront⟩ := hconducted.stops.exists_of_some
      exact ⟨front, step, answer, why, rfl, hzip, hfatal, hfront⟩
  · rw [hconducted.trace_eq, stages_append, hstages, List.append_assoc]
  · rw [List.mem_append]
    cases r with
    | none => simpa [resultOf, Except.map] using hreaches.done_iff
    | some why => simpa [resultOf, Except.map] using hreaches.done_iff

/-- The small project with a runner whose commands change nothing, and of which `make` fails. -/
def makeFails : Pipeline where
  runner :=
    { run := fun _ s command _ =>
        { outcome := .ended ⟨some (if command.program = "make" then 2 else 0)⟩, store := s } }
  host := readyHost

theorem makeFails_generate : makeFails.run smallManifest .generate smallMachine =
    (.ok smallGeneration, (makeFails.run smallManifest .generate smallMachine).2) := by
  have hok : (makeFails.run smallManifest .generate smallMachine).1 = .ok smallGeneration := by
    decide +kernel
  rw [← hok]
  exact (Prod.eta _).symm

theorem makeFails_follows_schedule :
    (makeFails.run smallManifest .generate smallMachine).1 = .ok smallGeneration ∧
      ∃ given : List Answer, given.length ≤ (schedule .build).length ∧
        calls (makeFails.run smallManifest .build smallMachine).2.trace =
          calls smallMachine.trace ++
            ((schedule .build).take given.length).map (fun step =>
              (⟨step.program, step.args, some smallManifest.buildDir⟩,
                decide (step.policy ≠ .loud))) := by
  refine ⟨congrArg Prod.fst makeFails_generate, ?_⟩
  obtain ⟨r, τ, events, given, entered, hrun, -, -, hlength, hcalls, -⟩ :=
    run_follows_schedule makeFails smallManifest .build smallMachine _ smallGeneration
      makeFails_generate
  rw [hrun]
  exact ⟨given, hlength, hcalls⟩

/-- That the whole schedule was issued does not mean that the run succeeds: the last step may be the
fatal one. -/
theorem schedule_issued_without_success :
    ¬ ∀ (p : Pipeline) (m : Manifest) (last : Stage) (σ ρ : Machine) (g : Generation),
      p.run m .generate σ = (.ok g, ρ) →
        (calls (p.run m last σ).2.trace = calls σ.trace ++ (schedule last).map (fun step =>
            (⟨step.program, step.args, some m.buildDir⟩, decide (step.policy ≠ .loud))) ↔
          (p.run m last σ).1 = .ok g) := by
  intro h
  have hiff := h makeFails smallManifest .build smallMachine _ smallGeneration makeFails_generate
  have hissued : calls (makeFails.run smallManifest .build smallMachine).2.trace =
      calls smallMachine.trace ++ (schedule .build).map (fun step =>
        (⟨step.program, step.args, some smallManifest.buildDir⟩,
          decide (step.policy ≠ .loud))) := by
    decide +kernel
  have hfailed : (makeFails.run smallManifest .build smallMachine).1 ≠ .ok smallGeneration := by
    decide +kernel
  exact hfailed (hiff.1 hissued)

end Pipeline

end Autotree
