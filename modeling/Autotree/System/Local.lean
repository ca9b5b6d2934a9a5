import Autotree.Pipeline.Basic
import Autotree.System.Action

/-!
# The local system as host and runner

The system that a pipeline runs on answers the questions of the host and runs the
external steps.  Time is not measured here: no command takes any.
-/

namespace Autotree.System

/-- The platform of the system. -/
def platform : String := "Linux"

/-- The system as a host. -/
def host (sys : System) : Host where
  platform := platform
  findTool := sys.findTool
  version := fun s path =>
    match sys.versionOutput path s with
    | (.ok text, s) => ⟨some text, s⟩
    | (.error _, s) => ⟨none, s⟩

/-- What came of running a command, as an answer to a pipeline. -/
def answer (c : Command) : Except Failure Finished × Store → Answer
  | (.ok f, s) =>
    { outcome := .ended f.ending.status
      store := s
      notes := [s!"running `{c.text}`"]
      printed := f.printed }
  | (.error e, s) =>
    { outcome := .notStarted e.chain
      store := s
      notes := [s!"running `{c.text}`"] }

/-- The system as a runner of commands. -/
def runner (sys : System) : Runner where
  run := fun _ s c quiet =>
    answer c (if quiet then sys.statusQuiet c s else sys.status c s)

end Autotree.System
