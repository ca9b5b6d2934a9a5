import Autotree.Config.Schema
import Autotree.Path

/-!
# Manifests

A manifest describes a project: its metadata, the settings of its build, and the
schema of its configuration.  Paths of a manifest are relative to the directory
that it lies in, its root.
-/

namespace Autotree

/-- The metadata of a project. -/
structure Metadata where
  /-- The name of the program. -/
  name : Option String := none
  version : Option String := none
deriving DecidableEq, Repr

/-- The settings of a build. -/
structure BuildSettings where
  /-- The configuration file. -/
  config : String := "conf/build.cfg"
  /-- The directory of macros that is copied into the build tree. -/
  macroDir : String := "conf"
  /-- The build tree. -/
  buildDir : String := "build"
  /-- Libraries to check for and link against. -/
  libs : List String := []
  /-- Further directories with headers. -/
  includeDirs : List String := []
  /-- Symbols that are defined ahead of those of the options. -/
  defines : List String := []
  /-- Further tools that have to be installed. -/
  tools : List String := []
  /-- The platforms that the project supports. -/
  platforms : List String := ["Linux", "Darwin"]
deriving DecidableEq, Repr

/-- A project as its manifest describes it. -/
structure Manifest where
  project : Metadata
  build : BuildSettings
  schema : Schema
  /-- The directory of the manifest. -/
  root : String
deriving DecidableEq, Repr

namespace Manifest

/-- The name of a manifest file. -/
def fileName : String := "Amgen.toml"

/-- The root of a manifest with a given path: its directory, `.` for a bare name. -/
def rootOf (path : String) : String :=
  match Path.parent? path with
  | some dir => if dir = "" then "." else dir
  | none => "."

/-- The path of the configuration file. -/
def configPath (m : Manifest) : String :=
  Path.join m.root m.build.config

/-- The path of the macro directory. -/
def macroDir (m : Manifest) : String :=
  Path.join m.root m.build.macroDir

/-- The path of the build tree. -/
def buildDir (m : Manifest) : String :=
  Path.join m.root m.build.buildDir

end Manifest

end Autotree
