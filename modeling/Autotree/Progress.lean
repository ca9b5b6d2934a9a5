import Autotree.Diagnostic
import Autotree.Text.LetterCase

/-!
# Progress on the terminal

Progress is reported one line at a time: a status word, aligned to the right in a
fixed column, and a message.  A quiet reporter says nothing.  Colors are used when
they are asked for, or by default when the diagnostics go to a terminal.
-/

namespace Autotree

/-- When colors are used. -/
inductive ColorChoice where
  | auto
  | always
  | never
deriving DecidableEq, Repr

namespace ColorChoice

/-- The word for a choice. -/
def word : ColorChoice → String
  | auto => "auto"
  | always => "always"
  | never => "never"

/-- The choice that a word stands for, in any case. -/
def ofWord? (text : String) : Option ColorChoice :=
  [auto, always, never].find? (·.word == Text.lowerAscii text)

/-- The complaint about a word that stands for no choice. -/
def refusal (text : String) : String :=
  "invalid color choice '" ++ text ++ "'; expected 'auto', 'always', or 'never'"

end ColorChoice

/-- How much is reported. -/
inductive Verbosity where
  | quiet
  | normal
  | verbose
deriving DecidableEq, Repr

/-- What a line of progress is about. -/
inductive Status where
  | created
  | finished
  | removed
  | resolving
  | generating
  | running
  | building
  | skipped
deriving DecidableEq, Repr

namespace Status

/-- Every status. -/
def all : List Status :=
  [created, finished, removed, resolving, generating, running, building, skipped]

/-- The word for a status. -/
def word : Status → String
  | created => "Created"
  | finished => "Finished"
  | removed => "Removed"
  | resolving => "Resolving"
  | generating => "Generating"
  | running => "Running"
  | building => "Building"
  | skipped => "Skipped"

/-- The terminal color of a status: green for what is done, cyan for what is under
way, yellow for what was left out. -/
def color : Status → Nat
  | created | finished | removed => 32
  | resolving | generating | running | building => 36
  | skipped => 33

/-- The width that status words are aligned in. -/
def width : Nat := 12

/-- The word for a status, aligned to the right. -/
def aligned (status : Status) : String :=
  String.ofList (List.replicate (width - status.word.length) ' ') ++ status.word

end Status

/-- How progress is reported. -/
structure Reporter where
  verbosity : Verbosity
  useColor : Bool
deriving DecidableEq, Repr

namespace Reporter

/-- The reporter that two flags and a choice of colors ask for; quiet wins over
verbose. -/
def ofFlags (quiet verbose : Bool) (color : ColorChoice) (terminal : Bool) : Reporter where
  verbosity := if quiet then .quiet else if verbose then .verbose else .normal
  useColor :=
    match color with
    | .auto => terminal
    | .always => true
    | .never => false

/-- Whether nothing is reported. -/
def isQuiet (r : Reporter) : Bool :=
  r.verbosity = .quiet

/-- Whether everything is reported. -/
def isVerbose (r : Reporter) : Bool :=
  r.verbosity = .verbose

/-- The line that reports a status, unless the reporter is quiet. -/
def line? (r : Reporter) (status : Status) (message : String) : Option String :=
  if r.isQuiet then none
  else
    let head :=
      if r.useColor then Diagnostic.paint status.color status.aligned else status.aligned
    some (head ++ " " ++ message)

/-- What is printed for a status. -/
def text (r : Reporter) (status : Status) (message : String) : String :=
  match r.line? status message with
  | some line => line ++ "\n"
  | none => ""

end Reporter

end Autotree
