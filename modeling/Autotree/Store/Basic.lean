import Autotree.Store.Errno
import Autotree.Store.Node

/-!
# The file store

A store is a valid file tree together with the directory that relative paths
start from.  It changes in three ways only: a file, a link or an empty directory
is put at a place, or what is at a place is erased; each keeps the tree valid.
Where the tree has the directory `/proc/self`, a link in it follows the directory
that relative paths start from, so a path over that link is relative as well.
-/

namespace Autotree

/-- What the system refuses while a file is replaced that the tree allows. -/
inductive Fault where
  /-- The temporary file is not made. -/
  | creating (e : Errno)
  /-- Only so many bytes of the text are written. -/
  | writing (written : Nat) (e : Errno)
deriving DecidableEq, Repr

/-- A file tree, and the directory that relative paths start from.

A name is a text of the system, which need not be UTF-8.  The tree has one place for
each file: there are no hard links, and nothing but directories, regular files and
symbolic links.  Nothing has permissions but that a file may be executable, and there
is room for everything but where a `Fault` says otherwise.  No path holds a NUL of its
own, and no other process changes the tree. -/
structure Store where
  entries : List (String × Node)
  cwd : Place
  /-- What goes wrong when the file with a path is replaced. -/
  fault? : String → Option Fault
  valid : (Node.dir entries).Valid

namespace Store

/-- The store without any file. -/
def empty : Store :=
  ⟨[], [], fun _ => none, .dir .nil (by simp) (by simp)⟩

instance : Inhabited Store := ⟨empty⟩

/-- The root directory. -/
def root (s : Store) : Node :=
  .dir s.entries

/-- The node at a place. -/
def get? (s : Store) (place : Place) : Option Node :=
  s.root.get? place

/-- A valid tree as a store; a root that is no directory changes nothing. -/
def withRoot (s : Store) (root : Node) (h : root.Valid) : Store :=
  match root, h with
  | .dir entries, h => ⟨entries, s.cwd, s.fault?, h⟩
  | _, _ => s

/-- The store with a valid node put at a place. -/
def put (s : Store) (place : Place) (node : Node) (h : node.Valid) : Store :=
  s.withRoot (s.root.update (fun _ => some node) place)
    (s.valid.update (fun _ new _ hnew => by cases hnew; exact h) place)

/-- The store with a regular file at a place. -/
def putFile (s : Store) (place : Place) (content : ByteArray) (executable : Bool) : Store :=
  s.put place (.file content executable) (.file content executable)

/-- The store with a symbolic link at a place. -/
def putLink (s : Store) (place : Place) (target : String) : Store :=
  s.put place (.link target) (.link target)

/-- The store with an empty directory at a place. -/
def putDir (s : Store) (place : Place) : Store :=
  s.put place (.dir []) (.dir .nil (by simp) (by simp))

/-- The path of a place. -/
def pathOf (place : Place) : String :=
  "/" ++ "/".intercalate place

/-- The link by which a process finds the directory that it works in. -/
def selfLink : Place :=
  ["proc", "self", "cwd"]

/-- The store as a process sees it that works in another directory. -/
def enter (s : Store) (cwd : Place) : Store :=
  { s with cwd := cwd }.putLink selfLink (pathOf cwd)

/-- The store without what is at a place. -/
def erase (s : Store) (place : Place) : Store :=
  s.withRoot (s.root.update (fun _ => none) place)
    (s.valid.update (fun _ _ _ hnew => by cases hnew) place)

/-- The number of levels of the tree. -/
def height (s : Store) : Nat :=
  s.root.height

end Store

end Autotree
