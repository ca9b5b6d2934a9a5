import Autotree.Text.LetterCase

/-!
# The project on a host

What a run knows about the project and the host it runs on: the name and version
that the descriptors declare, the platform, and the tools that were found.
-/

namespace Autotree

/-- A tool that was found. -/
structure Tool where
  path : String
  /-- The version it reported, if it was asked. -/
  version : Option String := none
deriving DecidableEq, Repr

/-- The project, as the descriptors need it. -/
structure Project where
  name : String
  version : String
  /-- The platform, as `uname -s` spells it. -/
  platform : String
  /-- The tools found, by name. -/
  tools : List (String × Tool)
deriving DecidableEq, Repr

namespace Project

/-- The version that a tool reported. -/
def toolVersion? (p : Project) (tool : String) : Option String :=
  (p.tools.lookup tool).bind (·.version)

/-- Whether the platform is Linux. -/
def isLinux (p : Project) : Bool :=
  Text.sameAscii p.platform "Linux"

end Project

end Autotree
