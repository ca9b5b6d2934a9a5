import Autotree.Store.Reach

/-!
# Operations on single files

The operations a system offers on one path each: reading, listing, making a
directory, writing, copying, renaming, removing.  Each is refused with the error
of the first condition that does not hold, and one that is refused leaves the
store as it was; `removeAll` alone may have emptied a directory that it cannot
remove.
-/

namespace Autotree.Store

/-- The bytes of a regular file. -/
def content (s : Store) (path : String) : Except Errno ByteArray :=
  match s.locate path with
  | .error e => .error e
  | .ok (_, .file content _) => .ok content
  | .ok (_, _) => .error .isDirectory

/-- The entries of a directory, in listing order. -/
def list (s : Store) (path : String) : Except Errno (List (String × Node)) :=
  match s.locate path with
  | .error e => .error e
  | .ok (_, .dir entries) => .ok entries
  | .ok (_, _) => .error .notDirectory

/-- Makes one directory, in a directory that exists. -/
def makeDir (s : Store) (path : String) : Except Errno Store :=
  match s.reachName path with
  | .error e => .error e
  | .ok (.found _ _) => .error .alreadyExists
  | .ok (.missing place) => .ok (s.putDir place)

/-- Writes a regular file, which keeps its mode if it exists. -/
def writeFile (s : Store) (path : String) (content : ByteArray) : Except Errno Store :=
  match s.reachFile path with
  | .error e => .error e
  | .ok (.found place (.file _ executable)) => .ok (s.putFile place content executable)
  | .ok (.found _ _) => .error .isDirectory
  | .ok (.missing place) => .ok (s.putFile place content false)

/-- Why a file is not copied. -/
inductive CopyRefusal where
  | system (e : Errno)
  /-- What is to be copied is no regular file. -/
  | notRegular
deriving DecidableEq, Repr

/-- Copies a regular file with its mode.  The destination is emptied before the
source is read, so a file copied onto itself ends up empty. -/
def copyFile (s : Store) (source target : String) : Except CopyRefusal Store :=
  match s.locate source with
  | .error e => .error (.system e)
  | .ok (place, .file content executable) =>
    match s.reachFile target with
    | .error e => .error (.system e)
    | .ok (.found there (.file _ _)) =>
      .ok (s.putFile there (if there = place then .empty else content) executable)
    | .ok (.found _ _) => .error (.system .isDirectory)
    | .ok (.missing there) => .ok (s.putFile there content executable)
  | .ok (_, _) => .error .notRegular

/-- Whether the last component of a path is one that cannot be renamed to. -/
def endsSpecial (path : String) : Bool :=
  match (steps path).getLast? with
  | none => true
  | some step => step = "." || step = ".."

/-- Moves the regular file at a place over what a path names; a link there is
replaced itself. -/
def renameFile (s : Store) (source : Place) (target : String) : Except Errno Store :=
  match s.get? source, s.reachName target with
  | some (.file content executable), .ok reach =>
    if endsSpecial target then .error .busy
    else if endsInSlash target then .error .notDirectory
    else
      match reach with
      | .found place node =>
        if node.isDir then .error .isDirectory
        else .ok ((s.erase source).putFile place content executable)
      | .missing place => .ok ((s.erase source).putFile place content executable)
  | some (.file _ _), .error e => .error e
  | _, _ => .error .noEntry

/-- Removes an emptied directory by its path.  A path that went through what was
below the directory leads nowhere any more, and then nothing is left to do; one that
ends in `.` names nothing that can be removed. -/
def removeEmptied (s : Store) (path : String) : Except Errno Store :=
  match (steps path).getLast? with
  | none => .error .busy
  | some step =>
    if step = "." then .error .invalid
    else if step = ".." then .ok s
    else
      match s.reachName path with
      | .ok (.found place (.dir _)) => .ok (s.erase place)
      | .ok (.found _ _) => .error .notDirectory
      | .ok (.missing _) => .ok s
      | .error .noEntry => .ok s
      | .error e => .error e

/-- Removes a directory with everything below it; a link is removed itself. -/
def removeAll (s : Store) (path : String) : Except Errno Unit × Store :=
  match s.reach false path with
  | .error e => (.error e, s)
  | .ok (.missing _) => (.error .noEntry, s)
  | .ok (.found place (.link _)) => (.ok (), s.erase place)
  | .ok (.found _ (.file _ _)) => (.error .notDirectory, s)
  | .ok (.found place (.dir _)) =>
    let emptied := s.putDir place
    match emptied.removeEmptied path with
    | .ok s => (.ok (), s)
    | .error e => (.error e, emptied)

/-- Removes a file, a link, or a directory with everything below it. -/
def remove? (s : Store) (path : String) : Option Store :=
  match s.reach false path with
  | .ok (.found place _) => some (s.erase place)
  | _ => none

end Autotree.Store
