import Autotree.Manifest.Decode
import Autotree.Store.Action

/-!
# Finding a manifest

A manifest is named explicitly, or it is the nearest one upward: in the directory
where the search starts, its parent, and so on.  Parents are those of the path's
text; what counts as a manifest is a regular file.
-/

namespace Autotree.Manifest

/-- The directories in which a search from a directory looks, nearest first. -/
def searchPath : Nat → String → List String
  | 0, dir => [dir]
  | fuel + 1, dir =>
    match Path.parent? dir with
    | some parent => dir :: searchPath fuel parent
    | none => [dir]

/-- The nearest manifest upward from a directory. -/
def findUpward (s : Store) (start : String) : Except Failure String :=
  let candidates := (searchPath start.length start).map (Path.join · fileName)
  match candidates.find? s.isFile with
  | some path => .ok path
  | none => .error (.manifestNotFound start)

/-- The manifest named by `explicit`, relative to the working directory, or the
nearest one upward from there. -/
def find (s : Store) (cwd : String) (explicit : Option String) : Except Failure String :=
  match explicit with
  | none => findUpward s cwd
  | some path =>
    let path := Path.join cwd path
    if s.isFile path then .ok path
    else .error (.manifestNotFound ((Path.parent? path).getD cwd))

/-- Reads the manifest with a given path. -/
def load (path : String) : FileAction Manifest := do
  let text ← FileAction.readText ("failed to read manifest: " ++ Text.shown path) path
  match parse text path with
  | .ok m => return m
  | .error e => throw e

end Autotree.Manifest
