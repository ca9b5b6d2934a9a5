import Autotree.Failure
import Autotree.Number.Rounding
import Autotree.Store.Files

/-!
# Actions on the file store

An action runs on a store and ends with a result or a failure; what it changed
before a failure stays changed.  This module lifts the operations on single files
to actions and adds the two that need several of them: making a directory with
its ancestors, and replacing a file in one step.
-/

namespace Autotree

/-- An operation on a store that may fail, keeping what it did until then. -/
abbrev FileAction (α : Type) := ExceptT Failure (StateM Store) α

namespace Store

/-- Makes a directory and the ancestors it lacks. -/
def makeDirs (s : Store) : Nat → String → Except Errno Unit × Store
  | 0, _ => (.ok (), s)
  | fuel + 1, path =>
    if path = "" then (.ok (), s)
    else
      match s.makeDir path with
      | .ok s => (.ok (), s)
      | .error .noEntry =>
        match Path.parent? path with
        | none => (.error .noEntry, s)
        | some parent =>
          match s.makeDirs fuel parent with
          | (.error e, s) => (.error e, s)
          | (.ok (), s) =>
            match s.makeDir path with
            | .ok s => (.ok (), s)
            | .error e => if s.isDir path then (.ok (), s) else (.error e, s)
      | .error e => if s.isDir path then (.ok (), s) else (.error e, s)

end Store

namespace FileAction

/-- The outcome of an operation on a store, as an action. -/
def ofOutcome (context : String) (run : Store → Except Errno Unit × Store) : FileAction Unit :=
  fun s =>
    match run s with
    | (.ok (), s) => (.ok (), s)
    | (.error e, s) => (.error (.file context (.system e)), s)

/-- What a store tells, as an action. -/
def query {α : Type} (context : String) (ask : Store → Except Errno α) : FileAction α :=
  fun s =>
    match ask s with
    | .ok a => (.ok a, s)
    | .error e => (.error (.file context (.system e)), s)

/-- Makes a directory and the ancestors it lacks; an existing one is kept. -/
def makeDirs (path : String) : FileAction Unit :=
  ofOutcome ("failed to create directory: " ++ Text.shown path) fun s =>
    s.makeDirs (path.length + 1) path

/-- Makes sure that a path leads to something, a new directory if need be. -/
def ensureDir (path : String) : FileAction Unit := do
  if (← get).exists? path then return else makeDirs path

/-- Removes a directory with everything below it, if the path leads to anything. -/
def removeDirIfExists (path : String) : FileAction Unit := do
  if (← get).exists? path then
    ofOutcome ("failed to remove directory: " ++ Text.shown path) (·.removeAll path)
  else return

/-- The entries of a directory. -/
def list (path : String) : FileAction (List (String × Node)) :=
  query ("failed to read directory: " ++ Text.shown path) (·.list path)

/-- A text file as a whole, with a context for its failures. -/
def readText (context path : String) : FileAction String := do
  let bytes ← query context (·.content path)
  match String.fromUTF8? bytes with
  | some text => return text
  | none => throw (.file context .notText)

/-- A name for a temporary file that is not among the names taken. -/
def freshName (taken : List String) : String :=
  let candidates := (List.range (taken.length + 1)).map fun n => ".tmp" ++ Number.paddedDigits 6 n
  (candidates.find? (!taken.contains ·)).getD ".tmp"

/-- Moves a temporary file over a path, or removes it. -/
def persist (temporary : Place) (path : String) : FileAction Unit := do
  match (← get).renameFile temporary path with
  | .ok s => set s
  | .error e =>
    modify (·.erase temporary)
    throw (.file ("failed to write file: " ++ Text.shown path) (.persist e))

/-- Makes a temporary file with a given text and moves it over a path.  Where that
fails, the temporary file is removed. -/
def replaceBy (temporary : Place) (path text : String) : FileAction Unit := do
  modify (·.putFile temporary .empty false)
  match (← get).fault? path with
  | some (.writing written e) =>
    modify (·.putFile temporary (text.toUTF8.extract 0 written) false)
    modify (·.erase temporary)
    throw (.file ("failed to write " ++ Text.shown path) (.temporary e))
  | _ =>
    modify (·.putFile temporary text.toUTF8 false)
    persist temporary path

/-- Replaces a file in one step: the text goes to a temporary file in the same
directory, which is then moved over the path. -/
def writeAtomic (path text : String) : FileAction Unit := do
  let parent := (Path.parent? path).getD "."
  ensureDir parent
  let s ← get
  let refuse (e : Errno) : FileAction Unit :=
    throw (.file ("failed to create temporary file in " ++ Text.shown parent) (.temporary e))
  match s.locateBase parent, s.fault? path with
  | .error e, _ => refuse e
  | .ok (_, .dir _), some (.creating e) => refuse e
  | .ok (dir, .dir entries), _ =>
    let name := freshName (entries.map (·.1))
    if Store.Refused (Path.join parent name) then refuse .nameTooLong
    else replaceBy (dir ++ [name]) path text
  | .ok _, _ => refuse .notDirectory

end FileAction

end Autotree
