import Autotree.Process.Command

/-!
# Stages and steps

A pipeline goes through its stages in order; the stages after the build tree is
written run external steps.  A step is a command with a policy: whether its
output is shown, and whether its failure ends the pipeline.
-/

namespace Autotree

/-- The stages of a pipeline, in order. -/
inductive Stage where
  | configure
  | generate
  | bootstrap
  | build
  | done
deriving DecidableEq, Repr

namespace Stage

/-- The word for a stage. -/
def word : Stage → String
  | configure => "configure"
  | generate => "generate"
  | bootstrap => "bootstrap"
  | build => "build"
  | done => "done"

/-- The number of stages before a stage. -/
def index : Stage → Nat
  | configure => 0
  | generate => 1
  | bootstrap => 2
  | build => 3
  | done => 4

instance : LE Stage := ⟨fun a b => a.index ≤ b.index⟩

instance (a b : Stage) : Decidable (a ≤ b) :=
  inferInstanceAs (Decidable (a.index ≤ b.index))

end Stage

/-- How the output and the exit status of a step are treated. -/
inductive Policy where
  /-- Output is shown, failure is fatal. -/
  | loud
  /-- Output is discarded, failure is fatal. -/
  | quiet
  /-- Output is discarded, failure is ignored. -/
  | quietIgnore
deriving DecidableEq, Repr

/-- Whether the output of a step is discarded. -/
def Policy.isQuiet : Policy → Bool
  | .loud => false
  | _ => true

/-- An external step. -/
structure Step where
  program : String
  args : List String
  policy : Policy
deriving DecidableEq, Repr

namespace Step

/-- The program and its arguments, separated by blanks. -/
def text (step : Step) : String :=
  String.join (step.program :: step.args.map (" " ++ ·))

/-- The command of a step in a directory. -/
def command (step : Step) (cwd : String) : Command :=
  ⟨step.program, step.args, some cwd⟩

/-- The autotools chain.  The first pass of automake may fail before its support
files exist; autoreconf repairs the tree afterwards. -/
def bootstrapSteps : List Step :=
  [⟨"aclocal", [], .quiet⟩,
    ⟨"autoconf", [], .quiet⟩,
    ⟨"autoheader", [], .quiet⟩,
    ⟨"touch", ["NEWS", "README", "AUTHORS", "ChangeLog"], .loud⟩,
    ⟨"automake", ["--add-missing"], .quietIgnore⟩,
    ⟨"autoreconf", ["-if"], .quiet⟩]

/-- Configuring and compiling a bootstrapped tree. -/
def buildSteps : List Step :=
  [⟨"./configure", [], .quiet⟩, ⟨"make", [], .loud⟩]

end Step

end Autotree
