/-!
# Lines

A text is read line by line: a line feed ends a line, one carriage return in
front of it belongs to the line break, and a text that ends in a line feed has
no further, empty line after it.
-/

namespace Autotree.Text

/-- A line without the one carriage return in front of its line feed. -/
def dropReturn (line : List Char) : List Char :=
  if line.getLast? = some '\r' then line.dropLast else line

/-- The lines of a text whose pieces between line feeds are given. -/
def linesOfPieces : List (List Char) → List (List Char)
  | [] => []
  | [last] => if last.isEmpty then [] else [last]
  | piece :: rest => dropReturn piece :: linesOfPieces rest

/-- The lines of a text, as lists of characters. -/
def charLines (cs : List Char) : List (List Char) :=
  linesOfPieces (cs.splitOn '\n')

/-- The lines of a text. -/
def lines (text : String) : List String :=
  (charLines text.toList).map String.ofList

end Autotree.Text
