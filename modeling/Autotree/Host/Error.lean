import Autotree.Diagnostic

/-!
# Errors of the host

The causes for which a host cannot bootstrap a project: its platform, a tool that
is not installed, or a tool whose version cannot be read.
-/

namespace Autotree

/-- Why a host is refused. -/
inductive HostError where
  | unsupportedPlatform (platform : String) (supported : List String)
  | missingTool (tool : String)
  | toolVersion (tool : String)
deriving DecidableEq, Repr

namespace HostError

/-- The error in one line. -/
def message : HostError → String
  | unsupportedPlatform platform _ => s!"{platform} is not supported"
  | missingTool tool => s!"cannot find `{tool}`"
  | toolVersion tool => s!"cannot get the version of `{tool}`"

/-- The error with its context and suggestions. -/
def diagnostic (e : HostError) : Diagnostic :=
  match e with
  | unsupportedPlatform _ supported =>
    ⟨e.message, ["supported platforms: " ++ ", ".intercalate supported],
      ["Add the platform to `platforms` in the [build] section"]⟩
  | missingTool tool =>
    ⟨e.message, [s!"`{tool}` was not found on PATH"], [Diagnostic.installTools]⟩
  | toolVersion tool =>
    ⟨e.message, [s!"`{tool} --version` printed no version"], [Diagnostic.installTools]⟩

end HostError

end Autotree
