import Autotree.Define
import Autotree.Descriptor.Layout
import Autotree.Host.Project
import Autotree.Manifest.Basic

/-!
# The input of automake

`Makefile.am` assigns the variables from which automake derives the build: flags,
the program with its sources and libraries, and one list of sources for each
library.  A list of sources breaks onto a continuation line before every eighth
file.
-/

namespace Autotree.Descriptor

/-- The compiler flags that every build starts from. -/
def baseFlags : String :=
  "-I/usr/local/include -I./include -I./src -std=gnu11 -Wno-unused-result"

/-- The number of files from one line break to the next. -/
def filesPerLine : Nat := 8

/-- Files, the first of which has index `i`, each followed by a blank. -/
def sourceItems : Nat → List String → String
  | _, [] => ""
  | i, file :: rest =>
    (if i % filesPerLine = filesPerLine - 1 then "\\\n\t" else "") ++ file ++ " " ++
      sourceItems (i + 1) rest

/-- A list of files after a head, on continued lines. -/
def sourceList (head : String) (files : List String) : String :=
  head ++ sourceItems 0 files ++ "\n"

/-- A character that a variable of automake may have in its name. -/
def isNameChar (c : Char) : Bool :=
  c.isAlphanum || c == '_' || c == '@'

/-- The form of a target's name in the names of its variables. -/
def canonicalName (name : String) : String :=
  String.ofList (name.toList.map fun c => if isNameChar c then c else '_')

/-- The compiler flags of a build, in order. -/
def compilerFlags (project : Project) (build : BuildSettings) (defines : List Define)
    (layout : Layout) : List String :=
  [baseFlags] ++ build.includeDirs.map ("-I" ++ ·) ++ layout.units.map LibraryUnit.includeFlag ++
    defines.map Define.flag ++ if project.isLinux then ["-DLINUX"] else []

/-- The line that links the libraries of a build, if there are any. -/
def libsLine (libs : List String) : String :=
  if libs.isEmpty then "" else "LIBS = " ++ " ".intercalate (libs.map ("-l" ++ ·)) ++ "\n"

/-- The list of sources of a library. -/
def unitStanza (unit : LibraryUnit) : String :=
  sourceList ("lib" ++ canonicalName unit.name ++ "_a_SOURCES = ") unit.sources ++ "\n"

/-- The text of `Makefile.am`. -/
def makefile (project : Project) (build : BuildSettings) (defines : List Define)
    (layout : Layout) : String :=
  let program := canonicalName project.name
  let archives := " ".intercalate (layout.units.map LibraryUnit.archive)
  "ARFLAGS = cr\n" ++
  "ACLOCAL_AMFLAGS = -I " ++ Layout.macroDir ++ "\n" ++
  "LDFLAGS = -L/usr/local/lib\n" ++
  libsLine build.libs ++
  "AM_CFLAGS = " ++ " ".intercalate (compilerFlags project build defines layout) ++ "\n\n" ++
  "bin_PROGRAMS = " ++ project.name ++ "\n" ++
  sourceList (program ++ "_SOURCES = ") layout.mainSources ++
  program ++ "_LDADD = " ++ archives ++ "\n\n" ++
  "AUTOMAKE_OPTIONS = foreign\n" ++
  "noinst_LIBRARIES = " ++ archives ++ "\n\n" ++
  String.join (layout.units.map unitStanza)

end Autotree.Descriptor
