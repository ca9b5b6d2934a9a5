import Autotree.Descriptor.Configure
import Autotree.Host.Basic
import Autotree.Machine
import Autotree.Manifest.Basic
import Autotree.Text.Blank
import Autotree.Text.Lines

/-!
# Validating a host

A host is fit for a project when it has a platform that the project supports,
every tool that the project and the bootstrap need, and an autoconf that tells
its version.  The checks are made in this order and the first that fails is
reported; the version is asked once, after every tool was found.
-/

namespace Autotree.Host

/-- The tools that every bootstrap needs, in the order in which they are looked
up. -/
def baselineTools : List String :=
  ["aclocal", "autoconf", "autoheader", "automake", "autoreconf"]

/-- Refuses a platform that is not among the supported ones, whatever the case of
their letters. -/
def checkPlatform (platform : String) (supported : List String) : Except HostError Unit :=
  if supported.any (Text.sameAscii · platform) then .ok ()
  else .error (.unsupportedPlatform platform supported)

/-- The first occurrences of the elements of a list, in order. -/
def firstOccurrences : List String → List String → List String
  | _, [] => []
  | seen, x :: rest =>
    if x ∈ seen then firstOccurrences seen rest else x :: firstOccurrences (x :: seen) rest

/-- The tools that a project needs: its own, then those of every bootstrap, each
once. -/
def requiredTools (extra : List String) : List String :=
  firstOccurrences [] (extra ++ baselineTools)

/-- The version in what a tool printed: the last word of the first line. -/
def parseVersion (output : String) : Option String :=
  (Text.lines output).head?.bind fun line => (Text.words line).getLast?

/-- The name of a directory as it is shown, once links and dots in its path are
resolved. -/
def dirName (s : Store) (dir : String) : String :=
  ((Path.fileName? ((s.canonical? dir).getD dir)).map Text.shown).getD ""

/-- A text of a manifest, or what replaces it when it is absent or empty. -/
def orDefault (text : Option String) (default : String) : String :=
  match text with
  | some t => if t = "" then default else t
  | none => default

/-- The version of a project that sets none. -/
def defaultVersion : String := "0.0"

/-- Looks up one tool. -/
def lookUp (host : Host) (name : String) : Action (String × Tool) := do
  Action.emit (.lookedUp name)
  match host.findTool (← get).store name with
  | some path =>
    Action.log .debug ("found " ++ name ++ " at " ++ Text.shown path)
    return (name, { path })
  | none => throw (.host (.missingTool name))

/-- Asks a tool for its version. -/
def askVersion (host : Host) (tool path : String) : Action String := do
  Action.emit (.askedVersion path)
  let reply := host.version (← get).store path
  modify fun m => { m with store := reply.store }
  match reply.text.bind parseVersion with
  | some version => return version
  | none => throw (.host (.toolVersion tool))

/-- Tools with the version of one of them noted. -/
def noteVersion (tool version : String) (tools : List (String × Tool)) : List (String × Tool) :=
  tools.map fun (name, t) => if name = tool then (name, { t with version }) else (name, t)

/-- Checks a host against a manifest and collects what the descriptors need. -/
def validate (host : Host) (m : Manifest) : Action Project := do
  Action.ofExcept .host (checkPlatform host.platform m.build.platforms)
  Action.log .debug ("host platform: " ++ host.platform)
  let tools ← (requiredTools m.build.tools).mapM (lookUp host)
  let tool := Descriptor.versionTool
  match tools.lookup tool with
  | none => throw (.host (.missingTool tool))
  | some found =>
    let version ← askVersion host tool found.path
    Action.log .info ("using " ++ tool ++ " " ++ version)
    return {
      name := orDefault m.project.name (dirName (← get).store m.root)
      version := orDefault m.project.version defaultVersion
      platform := host.platform
      tools := noteVersion tool version tools }

end Autotree.Host
