import Autotree.BuildTree
import Autotree.Progress

/-!
# The pipeline

The pipeline leads a project from its manifest to a built program.  Configuring
and generating always run; the autotools chain and the build follow when the last
stage asked for is late enough.  External steps run in the build tree, one after
the other, up to the first that is fatal: one that could not be started, or that
failed under a policy that does not ignore it.
-/

namespace Autotree

/-- What came of running a command. -/
inductive Outcome where
  | ended (status : ExitStatus)
  /-- The command could not be started; the causes come outermost first. -/
  | notStarted (causes : List String)
deriving DecidableEq, Repr

/-- The answer to a request to run a command. -/
structure Answer where
  outcome : Outcome
  store : Store
  /-- What the runner logged, at debug level. -/
  notes : List String := []
  /-- What the command printed, when it is shown. -/
  printed : List (Stream × ByteArray) := []
  /-- The time that the command took. -/
  elapsed : Duration := .zero

/-- Something that runs commands.  The answer may depend on everything that
happened before. -/
structure Runner where
  run : List Event → Store → Command → Bool → Answer

/-- What a pipeline works with. -/
structure Pipeline where
  runner : Runner
  host : Host
  reporter : Option Reporter := none

namespace Pipeline

/-- Reports progress, if somebody listens. -/
def report (p : Pipeline) (status : Status) (message : String) : Action Unit :=
  match p.reporter.bind (·.line? status message) with
  | some line => Action.emit (.reported line)
  | none => return

/-- Enters a stage. -/
def enter (stage : Stage) : Action Unit := do
  Action.log .info ("stage: " ++ stage.word)
  Action.emit (.entered stage)

/-- Runs a command. -/
def runCommand (p : Pipeline) (command : Command) (quiet : Bool) : Action Answer := do
  let m ← get
  let answer := p.runner.run m.trace m.store command quiet
  Action.emit (.ran command quiet)
  answer.notes.forM (Action.log .debug)
  answer.printed.forM fun (stream, bytes) => Action.emit (.printed stream bytes)
  modify fun m => { m with store := answer.store, clock := m.clock.add answer.elapsed }
  return answer

/-- Judges how a step ended under its policy. -/
def judge (step : Step) (status : ExitStatus) : Action Unit := do
  if status.success then return
  if step.policy = .quietIgnore then
    Action.log .debug ("ignoring failure of `" ++ step.text ++ "` (" ++ status.text ++ ")")
  else throw (.step (.failed step.text status))

/-- Runs one step in a directory. -/
def runStep (p : Pipeline) (step : Step) (cwd : String) : Action Unit := do
  p.report .running step.text
  let answer ← p.runCommand (step.command cwd) step.policy.isQuiet
  match answer.outcome with
  | .notStarted causes => throw (.step (.notStarted step.text (": ".intercalate causes)))
  | .ended status =>
    if step.policy.isQuiet && p.reporter.isSome then
      Action.log .debug ("`" ++ step.text ++ "` took " ++ answer.elapsed.text)
    judge step status

/-- Runs steps in a directory, up to the first that is fatal. -/
def runSteps (p : Pipeline) (steps : List Step) (cwd : String) : Action Unit :=
  steps.forM (p.runStep · cwd)

/-- Runs the stages up to a last one. -/
def run (p : Pipeline) (m : Manifest) (last : Stage) : Action BuildTree.Generation := do
  enter .configure
  p.report .resolving ("options from " ++ m.build.config)
  let prepared ← BuildTree.prepare m p.host
  enter .generate
  p.report .generating (prepared.project.name ++ " v" ++ prepared.project.version)
  let generation ← BuildTree.write m prepared
  if .bootstrap ≤ last then
    enter .bootstrap
    p.runSteps Step.bootstrapSteps generation.dir
  if .build ≤ last then
    enter .build
    p.report .building generation.project.name
    p.runSteps Step.buildSteps generation.dir
    enter .done
  return generation

end Pipeline

end Autotree
