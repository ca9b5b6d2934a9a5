import Autotree.Toml.Reader.DateTime
import Autotree.Toml.Value

/-!
# Settled values

A value that a document gives is settled before anything looks into it: tables are
put in key order, so that two tables with the same entries are equal, and a table
that begins with the reserved key of dates and times becomes the date or time whose
text stands there.  Such a table without the text of a date or time is refused; the
rest of it does not matter.
-/

namespace Autotree.Toml

mutual

/-- A value in its settled form. -/
def Value.settle? : Value → Option Value
  | .array elements => (settleElements? elements).map .array
  | .table entries => settleTable? entries
  | v => some v

/-- The elements of an array, settled. -/
def settleElements? : List Value → Option (List Value)
  | [] => some []
  | v :: rest => do return (← v.settle?) :: (← settleElements? rest)

/-- A table, settled. -/
def settleTable? : List (String × Value) → Option Value
  | [] => some (.table [])
  | (key, v) :: rest =>
    if key = Value.dateTimeKey then
      match v with
      | .string text => (DateTime.ofText? text).map .dateTime
      | _ => none
    else do
      return .table (sortEntries ((key, ← v.settle?) :: (← settleEntries? rest)))

/-- The entries of a table, settled each by itself. -/
def settleEntries? : List (String × Value) → Option (List (String × Value))
  | [] => some []
  | (key, v) :: rest => do return (key, ← v.settle?) :: (← settleEntries? rest)

end

end Autotree.Toml
