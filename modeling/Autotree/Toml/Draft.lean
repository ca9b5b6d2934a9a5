import Autotree.Toml.Value

/-!
# Tables under construction

The tables of a document grow statement by statement, and a table remembers how
it came to be: a table that a dotted key made may be extended by further dotted
keys only, one that a longer header implied may still get its own header, and one
with a header of its own may be neither defined again nor extended by a dotted
key.  `descend?` walks to the table that a path names under these rules.
-/

namespace Autotree.Toml

/-- How a table came to be. -/
inductive Origin where
  /-- Named inside a longer header only. -/
  | implied
  /-- Made by a dotted key. -/
  | dotted
  /-- Defined by its own header, or the document itself. -/
  | declared
deriving DecidableEq, Repr

/-- Whether a table may be extended by a dotted key. -/
def Origin.extendable : Origin → Bool
  | .declared => false
  | _ => true

/-- A part of a document under construction. -/
inductive Draft where
  | value (v : Value)
  | table (origin : Origin) (entries : List (String × Draft))
  | tables (elements : List (List (String × Draft)))

/-- The entries of a table under construction. -/
abbrev Draft.Entries := List (String × Draft)

namespace Draft

mutual

/-- The value that a finished part denotes. -/
def toValue : Draft → Value
  | .value v => v
  | .table _ entries => .table (entryValues entries)
  | .tables elements => .array (tableValues elements)

/-- The values of the entries of a table. -/
def entryValues : List (String × Draft) → List (String × Value)
  | [] => []
  | (key, d) :: rest => (key, d.toValue) :: entryValues rest

/-- The values of the tables of an array of tables. -/
def tableValues : List (List (String × Draft)) → List Value
  | [] => []
  | entries :: rest => .table (entryValues entries) :: tableValues rest

end

/-- Entries with the one of a given key replaced. -/
def replace (key : String) (d : Draft) (entries : Entries) : Entries :=
  entries.map fun entry => if entry.1 = key then (key, d) else entry

/-- Changes the entries of the table at a path, below the table with the given
origin and entries; tables on the way that do not exist are made.  A path in a
header stops at nothing but a value, a path in a dotted key also at a table with
a header of its own. -/
def descend? (inKey : Bool) (change : Origin → Entries → Option Entries) :
    List String → Origin → Entries → Option Entries
  | [], origin, entries => change origin entries
  | key :: path, _, entries =>
    match entries.lookup key with
    | none =>
      let made := if inKey then Origin.dotted else .implied
      (descend? inKey change path made []).map fun below =>
        entries ++ [(key, .table made below)]
    | some (.value _) => none
    | some (.tables elements) =>
      match elements.getLast? with
      | none => none
      | some last =>
        (descend? inKey change path .declared last).map fun below =>
          replace key (.tables (elements.dropLast ++ [below])) entries
    | some (.table origin below) =>
      if inKey && !origin.extendable then none
      else
        (descend? inKey change path origin below).map fun below =>
          replace key (.table origin below) entries

/-- Adds `key = v` to a table. -/
def addValue? (key : String) (v : Value) (entries : Entries) : Option Entries :=
  if (entries.lookup key).isSome then none else some (entries ++ [(key, .value v)])

/-- Adds a statement `path.key = v` below a table. -/
def assign? (path : List String) (key : String) (v : Value) (origin : Origin)
    (entries : Entries) : Option Entries :=
  descend? true
    (fun origin entries =>
      if decide (origin = .dotted) == path.isEmpty then none else addValue? key v entries)
    path origin entries

/-- Opens the table that a header names, below its parent.  A table that was implied
before counts as mentioned only now. -/
def openTable? (key : String) (entries : Entries) : Option Entries :=
  match entries.lookup key with
  | none => some (entries ++ [(key, .table .declared [])])
  | some (.table .implied below) =>
    some (entries.filter (·.1 != key) ++ [(key, .table .declared below)])
  | some _ => none

/-- Opens a further table of the array that a header names, below its parent. -/
def openElement? (key : String) (entries : Entries) : Option Entries :=
  match entries.lookup key with
  | none => some (entries ++ [(key, .tables [[]])])
  | some (.tables elements) => some (replace key (.tables (elements ++ [[]])) entries)
  | some _ => none

end Draft

end Autotree.Toml
