import Autotree.Path
import Autotree.Store.Basic
import Autotree.Store.Errno
import Autotree.Text.Raw

/-!
# What a path leads to

A path is followed component by component: `..` leads to the parent directory of
the directory reached, and a symbolic link is replaced by its target, at most
forty times.  `Store.reach` gives the place and the node that a path leads to, or
the free place where its last component is missing from an existing directory.  The
system takes no empty path, and neither a path nor a name that is too long.
-/

namespace Autotree

/-- Where a path leads. -/
inductive Reach where
  /-- To a node; a link only when the last link is not followed. -/
  | found (place : Place) (node : Node)
  /-- To nothing, in a directory that exists. -/
  | missing (place : Place)

namespace Store

/-- The number of bytes that a path has to stay below. -/
def pathLimit : Nat := 4096

/-- The greatest number of bytes of a name. -/
def nameLimit : Nat := 255

/-- A path that the system does not take, whatever the store holds. -/
def Refused (path : String) : Prop :=
  path = "" ∨ pathLimit ≤ Text.byteSize path

instance (path : String) : Decidable (Refused path) :=
  inferInstanceAs (Decidable (_ ∨ _))

/-- Why the system does not take a path. -/
def refusal (path : String) : Errno :=
  if path = "" then .noEntry else .nameTooLong

/-- A name that is too long for an entry of a directory. -/
def Overlong (name : String) : Prop :=
  nameLimit < Text.byteSize name

instance (name : String) : Decidable (Overlong name) :=
  inferInstanceAs (Decidable (_ < _))

/-- How far a path can be followed without following a link. -/
inductive Walk where
  | ended (reach : Reach)
  | refused (e : Errno)
  | atLink (target : String) (dir : Place) (rest : List String)

/-- Follows the steps of a path up to the first link that has to be followed.  The
way begins at a node, whose place is given in reverse; `slash` says whether the
path insists on a directory. -/
def walk (s : Store) (follow slash : Bool) : Place → Node → List String → Walk
  | trail, node, [] => .ended (.found trail.reverse node)
  | trail, node, step :: rest =>
    if step = "." then s.walk follow slash trail node rest
    else if step = ".." then
      match s.get? trail.tail.reverse with
      | some parent => s.walk follow slash trail.tail parent rest
      | none => .refused .noEntry
    else if Overlong step then .refused .nameTooLong
    else
      match node.get? [step] with
      | none =>
        if rest.isEmpty && node.isDir then .ended (.missing (step :: trail).reverse)
        else .refused .noEntry
      | some (.dir entries) => s.walk follow slash (step :: trail) (.dir entries) rest
      | some (.file content executable) =>
        if rest.isEmpty && !slash then
          .ended (.found (step :: trail).reverse (.file content executable))
        else .refused .notDirectory
      | some (.link target) =>
        if rest.isEmpty && !slash && !follow then
          .ended (.found (step :: trail).reverse (.link target))
        else .atLink target trail.reverse rest

/-- The names of a path, in order. -/
def steps (path : String) : List String :=
  (Path.pieces path).filter (· != "")

/-- Whether a path ends in a slash. -/
def endsInSlash (path : String) : Bool :=
  path.toList.getLast? == some '/'

/-- The directory that a path starts from. -/
def startOf (path : String) (dir : Place) : Place :=
  if Path.isAbsolute path then [] else dir

/-- Follows the steps of a path from a directory, through at most `links` links. -/
def reachFrom (s : Store) (follow : Bool) : Nat → Bool → Place → List String → Except Errno Reach
  | links, slash, dir, steps =>
    match s.get? dir with
    | none => .error .noEntry
    | some node =>
      match s.walk follow slash dir.reverse node steps with
      | .ended reach => .ok reach
      | .refused e => .error e
      | .atLink target dir rest =>
        match links with
        | 0 => .error .linkLoop
        | links + 1 =>
          if target = "" then .error .noEntry
          else
            s.reachFrom follow links (slash || (rest.isEmpty && endsInSlash target))
              (startOf target dir) (Store.steps target ++ rest)

/-- The number of links that one path may lead through. -/
def linkLimit : Nat := 40

/-- What a path leads to; a link at its end is followed unless `follow` is off and no
slash comes after it. -/
def reach (s : Store) (follow : Bool) (path : String) : Except Errno Reach :=
  if Refused path then .error (refusal path)
  else s.reachFrom follow linkLimit (endsInSlash path) (startOf path s.cwd) (steps path)

/-- What the last name of a path stands for itself: it is never followed, and a slash
after it means nothing. -/
def reachName (s : Store) (path : String) : Except Errno Reach :=
  if Refused path then .error (refusal path)
  else s.reachFrom false linkLimit false (startOf path s.cwd) (steps path)

/-- What a path leads to from a directory when a file is to be written there: a link
at its end leads on, to a free place too, and no file has a slash after its name. -/
def reachFileFrom (s : Store) : Nat → Place → String → Except Errno Reach
  | 0, _, _ => .error .linkLoop
  | links + 1, dir, path =>
    if path = "" then .error .noEntry
    else
      match s.reachFrom false linkLimit false (startOf path dir) (steps path) with
      | .error e => .error e
      | .ok reach =>
        if endsInSlash path then .error .isDirectory
        else
          match reach with
          | .found place (.link target) => s.reachFileFrom links place.dropLast target
          | reach => .ok reach

/-- What a path leads to when a file is to be written there. -/
def reachFile (s : Store) (path : String) : Except Errno Reach :=
  if Refused path then .error (refusal path)
  else s.reachFileFrom linkLimit s.cwd path

/-- The place and node that a path leads to, links followed. -/
def locate (s : Store) (path : String) : Except Errno (Place × Node) :=
  match s.reach true path with
  | .ok (.found place node) => .ok (place, node)
  | .ok (.missing _) => .error .noEntry
  | .error e => .error e

/-- The place and node that a path leads to when a name is to follow it, which the
system takes together with the name; an empty path then stands for the directory
that relative paths start from. -/
def locateBase (s : Store) (path : String) : Except Errno (Place × Node) :=
  match s.reachFrom true linkLimit (endsInSlash path) (startOf path s.cwd) (steps path) with
  | .ok (.found place node) => .ok (place, node)
  | .ok (.missing _) => .error .noEntry
  | .error e => .error e

/-- Whether a path leads to anything. -/
def exists? (s : Store) (path : String) : Bool :=
  (s.locate path).toBool

/-- Whether a path leads to a regular file. -/
def isFile (s : Store) (path : String) : Bool :=
  match s.locate path with
  | .ok (_, node) => node.isFile
  | .error _ => false

/-- Whether a path leads to a directory. -/
def isDir (s : Store) (path : String) : Bool :=
  match s.locate path with
  | .ok (_, node) => node.isDir
  | .error _ => false

/-- The absolute path without links, `.` and `..` that leads to the same node. -/
def canonical? (s : Store) (path : String) : Option String :=
  match s.locate path with
  | .ok (place, _) => some (pathOf place)
  | .error _ => none

end Store

end Autotree
