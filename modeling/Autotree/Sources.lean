import Autotree.Store.Action

/-!
# Source files

The sources of a project are the files below its source directory whose names
end in `.c`.  A scan follows symbolic links, never enters a hidden directory and
reports files in the order of the directory listings, a directory's files where
the directory stands.  The files directly in the source directory belong to the
program; each directory in it that is not hidden is a library of its own.  Names
and paths are given as they are shown: a name that is no text stands for itself
only on the way of the scan.
-/

namespace Autotree

/-- A directory of sources that is built as a library of its own. -/
structure LibraryUnit where
  /-- The name of the directory. -/
  name : String
  /-- Its sources at every depth, relative to the build tree. -/
  sources : List String
deriving DecidableEq, Repr

namespace LibraryUnit

/-- The archive of a library. -/
def archive (unit : LibraryUnit) : String :=
  "lib" ++ unit.name ++ ".a"

/-- The compiler flag for the headers of a library. -/
def includeFlag (unit : LibraryUnit) : String :=
  "-I./src/" ++ unit.name

end LibraryUnit

namespace Sources

/-- A name that starts with a dot. -/
def isHidden (name : String) : Bool :=
  (Text.shown name).toList.head? == some '.'

/-- A name that ends as the names of source files do. -/
def isSource (name : String) : Bool :=
  ['.', 'c'].isSuffixOf (Text.shown name).toList

/-- A directory on the way of a scan. -/
structure Ancestor where
  place : Place
  path : String

/-- What an entry stands for once links are followed; a link to a directory on the
way is refused. -/
def followEntry (s : Store) (ancestors : List Ancestor) (place : Place) (path : String) :
    Node → Except ScanCause (Place × Node)
  | .link _ =>
    match s.locate path with
    | .error e => .error (.system path e)
    | .ok (there, node) =>
      match ancestors.find? (fun a => node.isDir && a.place == there) with
      | some a => .error (.linkLoop path a.path)
      | none => .ok (there, node)
  | node => .ok (place, node)

/-- The sources among the entries of the innermost directory on the way, given how
directories are scanned. -/
def scanEntries (s : Store)
    (scanDir : List Ancestor → List (String × Node) → Except ScanCause (List String))
    (deep : Bool) (here : Ancestor) (ancestors : List Ancestor) :
    List (String × Node) → Except ScanCause (List String)
  | [] => .ok []
  | (name, node) :: rest => do
    let path := Path.join here.path name
    let found ←
      match ← followEntry s (here :: ancestors) (here.place ++ [name]) path node with
      | (place, .dir entries) =>
        if deep && !isHidden name then scanDir (⟨place, path⟩ :: here :: ancestors) entries
        else pure []
      | _ => pure (if isSource name then [path] else [])
    let others ← scanEntries s scanDir deep here ancestors rest
    return found ++ others

/-- The sources below the innermost directory on the way, whose entries are given,
through at most the given number of directories. -/
def scanLevels (s : Store) (deep : Bool) :
    Nat → List Ancestor → List (String × Node) → Except ScanCause (List String)
  | _, [], _ => .ok []
  | 0, here :: _, _ => .error (.linkLoop here.path here.path)
  | levels + 1, here :: ancestors, entries =>
    if Store.Refused here.path then .error (.system here.path (Store.refusal here.path))
    else scanEntries s (scanLevels s deep levels) deep here ancestors entries

/-- More directories than one path without a loop can lead through. -/
def levelBound (s : Store) : Nat :=
  (s.root.descendants.length + 2) * (s.height + 1)

/-- The paths of the sources below a directory; a path to anything else that
exists has none. -/
def scan (s : Store) (deep : Bool) (dir : String) : Except ScanCause (List String) :=
  match s.locate dir with
  | .error e => .error (.system dir e)
  | .ok (place, .dir entries) => scanLevels s deep (levelBound s) [⟨place, dir⟩] entries
  | .ok _ => .ok []

/-- The names on the way from `base` to `path` as they are shown, separated by
slashes. -/
def relativePath (base path : String) : String :=
  "/".intercalate ((Path.namesBelow base path).map Text.shown)

/-- The sources below `base/dir`, relative to `base`; in `deep` scans at every
depth, otherwise those directly there. -/
def discover (base dir : String) (deep : Bool) : FileAction (List String) := do
  let root := Path.join base dir
  match scan (← get) deep root with
  | .ok paths => return paths.map (relativePath base)
  | .error cause => throw (.scan root cause)

/-- The names of the libraries in a source directory. -/
def libraryNames (dir : String) : FileAction (List String) := do
  let entries ← FileAction.list dir
  let s ← get
  return ((entries.map (·.1)).filter fun name =>
    !isHidden name && s.isDir (Path.join dir name)).map Text.shown

/-- The libraries in the source directory of a build tree. -/
def discoverUnits (base : String) : FileAction (List LibraryUnit) := do
  let names ← libraryNames (Path.join base "src")
  names.mapM fun name => do
    let sources ← discover base ("src/" ++ name) true
    return ⟨name, sources⟩

end Sources

end Autotree
