/-!
# Diagnostics

A fatal error reaches the user as one diagnostic: the message that names the
offending key, tool or command, lines of context, and numbered suggestions.
-/

namespace Autotree

/-- An error message with context and suggested fixes. -/
structure Diagnostic where
  message : String
  context : List String := []
  suggestions : List String := []
deriving DecidableEq, Repr, Inhabited

namespace Diagnostic

/-- The suggestion for a project without a manifest. -/
def createManifest : String := "Create an Amgen.toml in the project root"

/-- The suggestion for a key that the schema does not know. -/
def declareOption : String := "Declare it as an [[option]] in Amgen.toml or remove the line"

/-- The suggestion for a tool that is missing or does not start. -/
def installTools : String := "Install autoconf, automake and libtool with your package manager"

/-- The suggestion for a step that failed. -/
def rerunByHand : String :=
  "Run the failing command by hand in the build directory to see its output"

/-- A word in bold in one of the eight terminal colors. -/
def paint (color : Nat) (word : String) : String :=
  "\x1b[1;" ++ toString color ++ "m" ++ word ++ "\x1b[0m"

/-- The suggestions as numbered lines, counted from `n`. -/
def numbered : Nat → List String → String
  | _, [] => ""
  | n, s :: rest => "  " ++ toString n ++ ". " ++ s ++ "\n" ++ numbered (n + 1) rest

/-- The diagnostic as the user sees it. -/
def format (d : Diagnostic) (color : Bool) : String :=
  let head := if color then paint 31 "error" else "error"
  let help := if color then paint 32 "help" else "help"
  head ++ ": " ++ d.message ++ "\n" ++
    String.join (d.context.map fun line => "  = " ++ line ++ "\n") ++
    if d.suggestions.isEmpty then ""
    else "\n" ++ help ++ ": consider:\n" ++ numbered 1 d.suggestions

end Diagnostic

end Autotree
