import Autotree.Store.Reach

/-!
# Trees on disk

A directory of the disk is read into a file store before a run, and what the run
changed is written back after it.  A symbolic link is read as one to the place
that it leads to.  A regular file counts as executable when it names an
interpreter.
-/

namespace Autotree.Disk

/-- The number of directory levels that are read and written. -/
def levelLimit : Nat := 128

/-- Whether a file of the disk may be run: whether it names an interpreter. -/
def isScript (content : ByteArray) : Bool :=
  content.extract 0 2 == "#!".toUTF8

/-- Reads what is at a path into a place of a store. -/
def read : Nat → String → Place → Store → IO Store
  | 0, _, _, s => return s
  | levels + 1, path, place, s => do
    let file := (← IO.currentDir) / path
    match (← file.symlinkMetadata).type with
    | .file =>
      let content ← IO.FS.readBinFile file
      return s.putFile place content (isScript content)
    | .symlink =>
      match ← (IO.FS.realPath file).toBaseIO with
      | .ok target => return s.putLink place target.toString
      | .error _ => return s
    | .dir =>
      let entries ← file.readDir
      entries.foldlM
        (fun s entry => read levels (path ++ "/" ++ entry.fileName) (place ++ [entry.fileName]) s)
        (s.putDir place)
    | .other => return s

/-- Makes the directories on the way to a place. -/
def makeParents (s : Store) (place : Place) : Store :=
  (List.range (place.length + 1)).foldl
    (fun s n => if (s.get? (place.take n)).isSome then s else s.putDir (place.take n)) s

/-- Reads the directory at an absolute path into a store. -/
def mount (path : String) (s : Store) : IO Store := do
  let place := Store.steps path
  read levelLimit path place (makeParents s place.dropLast)

/-- Removes what is at a path. -/
def remove (path : String) : IO Unit := do
  let file := (← IO.currentDir) / path
  match (← file.symlinkMetadata).type with
  | .dir => IO.FS.removeDirAll file
  | _ => IO.FS.removeFile file

/-- Writes a regular file. -/
def writeFile (path : String) (content : ByteArray) (executable : Bool) : IO Unit := do
  IO.FS.writeBinFile path content
  if executable then
    let all : IO.AccessRight := { read := true, execution := true }
    IO.setAccessRights path
      { user := { read := true, write := true, execution := true }, group := all, other := all }

/-- Writes to a path what changed from one node to another. -/
def write : Nat → String → Option Node → Node → IO Unit
  | 0, _, _, _ => return
  | levels + 1, path, old, new => do
    match old, new with
    | some (.file before _), .file content executable =>
      if before != content then writeFile path content executable
    | some (.link _), .link _ => return
    | some (.dir before), .dir entries =>
      before.forM fun (name, _) =>
        if (entries.lookup name).isNone then remove (path ++ "/" ++ name) else return
      entries.forM fun (name, node) =>
        write levels (path ++ "/" ++ name) (before.lookup name) node
    | some _, new =>
      remove path
      write levels path none new
    | none, .file content executable => writeFile path content executable
    | none, .link _ => return
    | none, .dir entries =>
      IO.FS.createDirAll path
      entries.forM fun (name, node) => write levels (path ++ "/" ++ name) none node

/-- Writes to the disk what a run changed below the root. -/
def commit (before after : Store) : IO Unit :=
  write levelLimit "" (some before.root) after.root

end Autotree.Disk
