import Autotree.Number.Shortest
import Autotree.Toml.DateTime

/-!
# TOML values

The values of a TOML document.  A table lists its entries in some order: a document
gives that of their first mention, a value that was settled ascending keys.  A
date or time stands for a table of one entry, its text under a reserved key, and a
table that begins with that key stands for a date or time.
-/

namespace Autotree.Toml

/-- A TOML value. -/
inductive Value where
  | string (text : String)
  | integer (n : Int)
  | float (x : Number.Binary64)
  | boolean (b : Bool)
  | dateTime (d : DateTime)
  | array (elements : List Value)
  | table (entries : List (String × Value))
deriving Repr, Inhabited

/-- Entries by ascending key. -/
def sortEntries {α : Type} (entries : List (String × α)) : List (String × α) :=
  entries.mergeSort fun a b => !decide (b.1 < a.1)

namespace Value

/-- The reserved key that holds the text of a date or time. -/
def dateTimeKey : String := "$__toml_private_datetime"

/-- The entries of the table that a value is or stands for. -/
def entries? : Value → Option (List (String × Value))
  | .table entries => some entries
  | .dateTime d => some [(dateTimeKey, .string d.text)]
  | _ => none

end Value

end Autotree.Toml
