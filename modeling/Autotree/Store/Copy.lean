import Autotree.Store.Action

/-!
# Copying a tree

A directory is copied onto another one entry by entry: directories are made where
they are missing and descended into, files replace what has their name, and what
the target has besides stays.  A directory is listed when the copy gets there, so
a copy into its own source meets the directories that it made itself; it goes on
until a path is too long for the system.
-/

namespace Autotree.FileAction

/-- Copies one file. -/
def copyFile (source target : String) : FileAction Unit := do
  let context := "failed to copy " ++ Text.shown source ++ " to " ++ Text.shown target
  match (← get).copyFile source target with
  | .ok s => set s
  | .error (.system e) => throw (.file context (.system e))
  | .error .notRegular => throw (.file context .notRegular)

/-- Copies entries of a directory, given how directories are copied. -/
def copyEntries (copyDir : String → String → FileAction Unit) (source target : String) :
    List (String × Node) → FileAction Unit
  | [] => return
  | (name, node) :: rest => do
    if node.isDir then copyDir (Path.join source name) (Path.join target name)
    else copyFile (Path.join source name) (Path.join target name)
    copyEntries copyDir source target rest

/-- Copies a directory onto another, at most the given number of levels deep. -/
def copyLevels : Nat → String → String → FileAction Unit
  | 0, _, target =>
    throw (.file ("failed to create directory: " ++ Text.shown target) (.system .nameTooLong))
  | levels + 1, source, target => do
    makeDirs target
    let entries ← list source
    copyEntries (copyLevels levels) source target entries

/-- Copies a directory onto another.  The levels are never the limit: each makes the
paths longer, and the system takes none of `Store.pathLimit` bytes. -/
def copyTree (source target : String) : FileAction Unit := do
  copyLevels ((← get).height + Store.pathLimit) source target

end Autotree.FileAction
