import Autotree.Store.Basic

/-!
# Hosts

A host tells its platform, finds tools by name, and tells what a tool prints when
it is asked for its version.  Both answers may depend on the file store, and
asking a tool runs it, which may change the store.
-/

namespace Autotree

/-- What came of asking a tool for its version. -/
structure VersionReply where
  /-- What the tool printed, none when it failed. -/
  text : Option String
  store : Store

/-- A machine that projects are bootstrapped on. -/
structure Host where
  /-- The platform, as `uname -s` spells it. -/
  platform : String
  findTool : Store → String → Option String
  version : Store → String → VersionReply

end Autotree
