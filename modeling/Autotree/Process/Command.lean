import Autotree.Path

/-!
# Commands

A command is a program with its arguments and the directory to run it in.  A
program given as a relative path with more than one component is meant relative
to that directory; a bare name is left to the search path.  A command that ran
has an exit status: a code, or none when a signal ended it.
-/

namespace Autotree

/-- A program to run, with its arguments and working directory. -/
structure Command where
  program : String
  args : List String := []
  cwd : Option String := none
deriving DecidableEq, Repr

namespace Command

/-- The program and its arguments, separated by blanks. -/
def text (c : Command) : String :=
  " ".intercalate (c.program :: c.args)

/-- Whether a text of the command has a NUL byte inside. -/
def hasNul (c : Command) : Bool :=
  (c.program :: c.cwd.toList ++ c.args).any (·.toList.contains '\x00')

/-- The program to start, once the working directory is the command's. -/
def resolvedProgram (c : Command) : String :=
  match c.cwd with
  | some cwd =>
    if 1 < (Path.components c.program).length ∧ !Path.isAbsolute c.program then
      Path.join cwd c.program
    else c.program
  | none => c.program

end Command

/-- How a command ended. -/
structure ExitStatus where
  /-- The exit code, none when a signal ended the command. -/
  code : Option Int
deriving DecidableEq, Repr

namespace ExitStatus

/-- Whether the command succeeded. -/
def success (status : ExitStatus) : Bool :=
  status.code == some 0

/-- The status in words. -/
def text (status : ExitStatus) : String :=
  match status.code with
  | some code => "exit code " ++ toString code
  | none => "terminated by signal"

end ExitStatus

/-- The stream that a command prints on. -/
inductive Stream where
  | output
  | errors
deriving DecidableEq, Repr

/-- How a process ended. -/
inductive Ending where
  | exited (code : Nat)
  | killed (signal : Nat)
deriving DecidableEq, Repr

namespace Ending

/-- The exit status of a process that ended so. -/
def status : Ending → ExitStatus
  | exited code => ⟨some code⟩
  | killed _ => ⟨none⟩

/-- The number under which a shell knows the status. -/
def number : Ending → Nat
  | exited code => code
  | killed signal => 128 + signal

end Ending

end Autotree
