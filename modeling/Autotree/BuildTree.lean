import Autotree.Descriptor.Makefile
import Autotree.Host.Validate
import Autotree.Manifest.Find
import Autotree.Store.Copy

/-!
# Build trees

Generating a build tree resolves the configuration and validates the host before
anything is written; only then it copies the sources into the build directory
and writes the two descriptors, each in one step.  Cleaning removes the build
directory.
-/

namespace Autotree.BuildTree

/-- A resolved configuration on a validated host, ready to be written out. -/
structure Prepared where
  project : Project
  defines : List Define
deriving DecidableEq, Repr

/-- A build tree that was written. -/
structure Generation where
  project : Project
  defines : List Define
  layout : Layout
  /-- The path of the build tree. -/
  dir : String
deriving DecidableEq, Repr

/-- Reads the entries of a configuration file; a file that does not exist has
none. -/
def loadConfig (path : String) : Action (List Entry) := do
  let context := "failed to read config: " ++ Text.shown path
  match (← get).store.content path with
  | .error .noEntry =>
    Action.log .debug ("no config file at " ++ Text.shown path ++ ", using defaults")
    return []
  | _ =>
    let text ← Action.onStore (FileAction.readText context path)
    Action.ofExcept .config (Entry.parse text)

/-- Resolves a configuration file against a schema. -/
def resolveFile (schema : Schema) (path : String) : Action Resolved := do
  let entries ← loadConfig path
  (schema.fallbacksUsed entries).forM fun (name, value) =>
    Action.log .debug (name ++ " not set, using default `" ++ value ++ "`")
  Action.ofExcept .config (schema.resolve entries)

/-- The defines of a project. -/
def resolveDefines (m : Manifest) : Action (List Define) := do
  let resolved ← resolveFile m.schema m.configPath
  Action.ofExcept .config (Define.synthesize m.build.defines resolved)

/-- Resolves the configuration, then validates the host; writes nothing. -/
def prepare (m : Manifest) (host : Host) : Action Prepared := do
  let defines ← resolveDefines m
  Action.log .debug (toString defines.length ++ " define(s) resolved")
  let project ← host.validate m
  return ⟨project, defines⟩

/-- Copies the sources and headers of a project into its build tree. -/
def copySources (root dir : String) : Action Unit := do
  let source := Path.join root Layout.sourceDir
  if !(← get).store.isDir source then throw (.sourceNotFound source)
  Action.onStore (FileAction.copyTree source (Path.join dir Layout.sourceDir))
  let headers := Path.join root Layout.includeDir
  if (← get).store.isDir headers then
    Action.onStore (FileAction.copyTree headers (Path.join dir Layout.includeDir))
  else
    Action.log .debug ("no " ++ Layout.includeDir ++ "/ directory to mirror")

/-- Finds the sources in a build tree. -/
def discoverLayout (dir : String) : Action Layout := do
  let mainSources ← Action.onStore (Sources.discover dir Layout.sourceDir false)
  let units ← Action.onStore (Sources.discoverUnits dir)
  if mainSources.isEmpty then
    Action.log .warn ("no .c files directly under " ++ Layout.sourceDir ++ "/")
  units.forM fun unit =>
    Action.log .debug
      ("library " ++ unit.name ++ ": " ++ toString unit.sources.length ++ " source(s)")
  return ⟨mainSources, units⟩

/-- Copies the macros of a project into its build tree. -/
def installMacros (macros dir : String) : Action Unit := do
  let target := Path.join dir Layout.macroDir
  Action.onStore (FileAction.ensureDir target)
  if (← get).store.isDir macros then
    Action.onStore (FileAction.copyTree macros target)
  else
    Action.log .debug ("macro directory " ++ Text.shown macros ++ " does not exist")

/-- Copies the project into its build tree and writes the descriptors. -/
def write (m : Manifest) (prepared : Prepared) : Action Generation := do
  let dir := m.buildDir
  copySources m.root dir
  let layout ← discoverLayout dir
  let configure ← Action.ofExcept .host (Descriptor.configure prepared.project m.build.libs)
  let makefile := Descriptor.makefile prepared.project m.build prepared.defines layout
  installMacros m.macroDir dir
  Action.onStore (FileAction.writeAtomic (Path.join dir Layout.configureFile) configure)
  Action.onStore (FileAction.writeAtomic (Path.join dir Layout.makeFile) makefile)
  Action.log .info ("wrote " ++ Layout.configureFile ++ " and " ++ Layout.makeFile)
  return ⟨prepared.project, prepared.defines, layout, dir⟩

/-- Prepares and writes a build tree. -/
def generate (m : Manifest) (host : Host) : Action Generation := do
  write m (← prepare m host)

/-- Removes the build tree; gives its path if there was one. -/
def clean (m : Manifest) : Action (Option String) := do
  let dir := m.buildDir
  if !(← get).store.exists? dir then
    Action.log .debug (Text.shown dir ++ " does not exist")
    return none
  Action.onStore (FileAction.removeDirIfExists dir)
  Action.log .info ("removed " ++ Text.shown dir)
  return some dir

end Autotree.BuildTree
