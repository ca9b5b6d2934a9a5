import Autotree.Duration
import Autotree.Pipeline.Step
import Autotree.Store.Action

/-!
# The machine that a run goes through

A run changes a file store and leaves a trace: what it logged and reported, the
questions it put to the host, the stages it entered, the commands it ran and what
these printed, all in order.  Everything an observer can ask about a run (its
output, its calls, its last stage) is a projection of the trace.
-/

namespace Autotree

/-- The weight of a log line. -/
inductive Level where
  | debug
  | info
  | warn
deriving DecidableEq, Repr

/-- Something that happens in a run. -/
inductive Event where
  /-- A log line. -/
  | logged (level : Level) (text : String)
  /-- A line that reports progress to the user. -/
  | reported (line : String)
  /-- The entry into a stage. -/
  | entered (stage : Stage)
  /-- The search for a tool on the host. -/
  | lookedUp (tool : String)
  /-- The question for the version of a tool. -/
  | askedVersion (path : String)
  /-- The start of a command. -/
  | ran (command : Command) (quiet : Bool)
  /-- What a command printed. -/
  | printed (stream : Stream) (bytes : ByteArray)

/-- The state of a run. -/
structure Machine where
  store : Store
  trace : List Event := []
  /-- The time since the run began. -/
  clock : Duration := .zero

/-- An operation of a run, which may fail and keeps what it did until then. -/
abbrev Action (α : Type) := ExceptT Failure (StateM Machine) α

namespace Action

/-- Adds an event to the trace. -/
def emit (event : Event) : Action Unit :=
  modify fun m => { m with trace := m.trace ++ [event] }

/-- Adds a log line. -/
def log (level : Level) (text : String) : Action Unit :=
  emit (.logged level text)

/-- Runs an action on the store. -/
def onStore {α : Type} (action : FileAction α) : Action α :=
  fun m =>
    match action m.store with
    | (result, store) => (result, { m with store := store })

/-- A result that is there or fails. -/
def ofExcept {ε α : Type} (wrap : ε → Failure) : Except ε α → Action α
  | .ok a => pure a
  | .error e => throw (wrap e)

end Action

namespace Machine

/-- The bytes that the commands of a run printed on a stream. -/
def printed (stream : Stream) (trace : List Event) : ByteArray :=
  trace.foldl
    (fun bytes event =>
      match event with
      | .printed s b => if s = stream then bytes ++ b else bytes
      | _ => bytes)
    .empty

/-- The stages entered, in order. -/
def stages (trace : List Event) : List Stage :=
  trace.filterMap fun
    | .entered stage => some stage
    | _ => none

/-- The commands run, in order, with whether their output was discarded. -/
def calls (trace : List Event) : List (Command × Bool) :=
  trace.filterMap fun
    | .ran command quiet => some (command, quiet)
    | _ => none

/-- The questions put to the host, in order: the tools searched for, and the paths
asked for their version. -/
def hostCalls (trace : List Event) : List String :=
  trace.filterMap fun
    | .lookedUp tool => some tool
    | .askedVersion path => some (path ++ " --version")
    | _ => none

end Machine

end Autotree
