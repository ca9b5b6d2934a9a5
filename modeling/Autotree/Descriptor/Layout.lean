import Autotree.Sources

/-!
# The layout of a build tree

The sources found in a build tree, as the descriptors list them, and the names of
the files and directories that a build tree has.
-/

namespace Autotree

/-- The sources of a build tree. -/
structure Layout where
  /-- The sources of the program. -/
  mainSources : List String
  /-- The libraries. -/
  units : List LibraryUnit
deriving DecidableEq, Repr

namespace Layout

/-- The input of autoconf. -/
def configureFile : String := "configure.ac"

/-- The input of automake. -/
def makeFile : String := "Makefile.am"

/-- The macro directory of a build tree. -/
def macroDir : String := "m4"

/-- The directory of the sources. -/
def sourceDir : String := "src"

/-- The directory of the headers. -/
def includeDir : String := "include"

end Layout

end Autotree
