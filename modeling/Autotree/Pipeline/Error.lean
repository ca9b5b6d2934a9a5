import Autotree.Diagnostic
import Autotree.Process.Command

/-!
# Errors of external steps

A step that could not be started keeps the whole chain of causes; a step that
ran and failed keeps how it ended.
-/

namespace Autotree

/-- Why an external step is fatal. -/
inductive StepError where
  | failed (command : String) (status : ExitStatus)
  | notStarted (command reason : String)
deriving DecidableEq, Repr

namespace StepError

/-- The error in one line. -/
def message : StepError → String
  | failed command status => s!"failed to run `{command}` ({status.text})"
  | notStarted command reason => s!"could not start `{command}`: {reason}"

/-- The error with its suggestion. -/
def diagnostic (e : StepError) : Diagnostic :=
  match e with
  | failed _ _ => ⟨e.message, [], [Diagnostic.rerunByHand]⟩
  | notStarted _ _ => ⟨e.message, [], [Diagnostic.installTools]⟩

end StepError

end Autotree
