/-!
# Paths as text

A path is the text that names it, kept as it was written; its meaning is its
list of components.  Empty components and components `.` after the first stand
for nothing, so `a//b/./c` and `a/b/c` have the same components.  Operations that
give a path back (`join`, `parent?`) keep the rest of the text as it was.
-/

namespace Autotree.Path

/-- A step of a path. -/
inductive Component where
  /-- The root directory, at the start of an absolute path. -/
  | root
  /-- The directory itself, at the start of a relative path. -/
  | here
  /-- The parent directory. -/
  | up
  | name (text : String)
deriving DecidableEq, Repr

namespace Component

/-- The component as it is written. -/
def text : Component → String
  | root => "/"
  | here => "."
  | up => ".."
  | name text => text

/-- The name of a component that is no special one. -/
def name? : Component → Option String
  | name text => some text
  | _ => none

end Component

/-- Whether a path starts at the root directory. -/
def isAbsolute (path : String) : Bool :=
  path.toList.head? == some '/'

/-- What stands between the slashes of a path. -/
def pieces (path : String) : List String :=
  (path.toList.splitOn '/').map String.ofList

/-- The component that a piece of a path stands for, if it stands for one; a
piece `.` does so only at the start of a relative path. -/
def componentOf? (atStart : Bool) (piece : String) : Option Component :=
  if piece = "" then none
  else if piece = "." then if atStart then some .here else none
  else if piece = ".." then some .up
  else some (.name piece)

/-- The components of the pieces after the first. -/
def laterComponents (pieces : List String) : List Component :=
  pieces.filterMap (componentOf? false)

/-- The components of a path. -/
def components (path : String) : List Component :=
  if isAbsolute path then .root :: laterComponents (pieces path)
  else
    match pieces path with
    | [] => []
    | first :: rest => (componentOf? true first).toList ++ laterComponents rest

/-- The text of `right` seen from the directory `left`: an absolute right side
replaces the left one, and one slash separates the two otherwise. -/
def join (left right : String) : String :=
  if isAbsolute right || left = "" then right
  else if left.toList.getLast? = some '/' then left ++ right
  else left ++ "/" ++ right

/-- Pieces without those at the end that stand for no component. -/
def dropBlank (atStart : Nat → Bool) (pieces : List String) : List String :=
  ((pieces.zipIdx.reverse.dropWhile
    fun (piece, i) => (componentOf? (atStart i) piece).isNone).reverse).map (·.1)

/-- The path without its last component, with the text before it unchanged; none
for a path that has no component but the root. -/
def parent? (path : String) : Option String :=
  let absolute := isAbsolute path
  let body := if absolute then (pieces path).tail else pieces path
  let atStart (i : Nat) := !absolute && i == 0
  match (dropBlank atStart body).dropLast, dropBlank atStart body with
  | _, [] => none
  | rest, _ => some ((if absolute then "/" else "") ++ "/".intercalate (dropBlank atStart rest))

/-- The name of the last component, if it is a name. -/
def fileName? (path : String) : Option String :=
  (components path).getLast?.bind Component.name?

/-- The path of a list of components. -/
def ofComponents (cs : List Component) : String :=
  cs.foldl (fun path c => join path c.text) ""

/-- Components without a leading `.`. -/
def dropHere : List Component → List Component
  | .here :: rest => rest
  | cs => cs

/-- The components that lead from the directory with the components `base` to
`path`, once all common leading ones are gone; `started` says whether a step has
been taken already. -/
def stepsBetween? : Bool → List Component → List Component → Option (List Component)
  | _, path, [] => some path
  | _, [], _ :: base => (stepsBetween? true [] base).map (.up :: ·)
  | started, a :: path, b :: base =>
    if !started && a = b then stepsBetween? false path base
    else if b = .here then (stepsBetween? true path base).map (a :: ·)
    else if b = .up then none
    else some (.up :: base.map (fun _ => .up) ++ a :: path)

/-- The path that leads from the directory `base` to `path`; the path itself when
there is no such path. -/
def relative (base path : String) : String :=
  if isAbsolute path != isAbsolute base then path
  else
    match stepsBetween? false (components path) (components base) with
    | some steps => ofComponents steps
    | none => path

/-- The components of `path` below `base`, when `base` is an ancestor. -/
def below? : List Component → List Component → Option (List Component)
  | [], path => some path
  | b :: base, a :: path => if a = b then below? base path else none
  | _ :: _, [] => none

/-- The names on the way from `base` to `path`; those of the whole path when `base` is
no ancestor. -/
def namesBelow (base path : String) : List String :=
  let cs := (below? (components base) (components path)).getD (components path)
  cs.filterMap Component.name?

end Autotree.Path
