import Autotree.Proofs.Pipeline.Steps

/-!
# The outcome of steps

A run of steps issues their commands up to the first that is fatal, and it ends with the error of
that one (`runSteps_outcome`), so that a list of steps may be cut anywhere: its parts are run one
after the other, the second only if the first went well.
-/

namespace Autotree

namespace Pipeline

open Machine Stateful

theorem runSteps_append (p : Pipeline) (steps others : List Step) (cwd : String) :
    p.runSteps (steps ++ others) cwd =
      p.runSteps steps cwd >>= fun _ => p.runSteps others cwd :=
  List.forM_append

/-- A run of steps issues their commands in order, up to the first step that is fatal and through
it, each in the given directory and with its output discarded unless the policy is loud.  It
succeeds exactly if no step is fatal, and otherwise has the error of the fatal one.  What is
appended to the steps is run afterwards, by the same runner, if they succeed. -/
theorem runSteps_outcome (p : Pipeline) (steps others : List Step) (cwd : String) (σ : Machine) :
    (∃ τ r events, p.runSteps steps cwd σ = (resultOf r, τ) ∧ τ.trace = σ.trace ++ events ∧
      let given := p.runner.answers σ.store σ.trace events
      given.length ≤ steps.length ∧
      calls events = (steps.take given.length).map (fun step =>
        (⟨step.program, step.args, some cwd⟩, decide (step.policy ≠ .loud))) ∧
      (calls events).map (·.1.text) = (steps.take given.length).map (fun step =>
        " ".intercalate (step.program :: step.args)) ∧
      (r = none ↔ given.length = steps.length ∧
        ∀ x ∈ steps.zip given, ¬x.1.IsFatal x.2.outcome) ∧
      ∀ e, r = some e ↔ ∃ front step answer, steps.zip given = front ++ [(step, answer)] ∧
        step.Fatal answer.outcome e ∧ ∀ x ∈ front, ¬x.1.IsFatal x.2.outcome) ∧
    p.runSteps (steps ++ others) cwd σ =
      match p.runSteps steps cwd σ with
      | (.ok (), τ) => p.runSteps others cwd τ
      | (.error e, τ) => (.error e, τ) := by
  constructor
  · obtain ⟨τ, r, events, hrun, hconducted, -⟩ := p.runSteps_conducted steps cwd σ
    have hstops := hconducted.stops
    have hcalls := hconducted.calls_eq
    refine ⟨τ, r, events, hrun, hconducted.trace_eq, hstops.length_le, ?_, ?_, ?_, fun e => ?_⟩
    · simp only [hcalls, Step.call_eq]
    · rw [hcalls, List.map_map]
      rfl
    · simp only [← Step.fatal?_eq_none_iff]
      exact hstops.eq_none_iff
    · simp only [← Step.fatal?_eq_none_iff, ← Step.fatal?_eq_some_iff]
      exact hstops.eq_some_iff
  · rw [runSteps_append]
    rcases hrun : p.runSteps steps cwd σ with ⟨e | ⟨⟩, τ⟩
    · exact bind_error hrun
    · exact bind_ok hrun

end Pipeline

end Autotree
