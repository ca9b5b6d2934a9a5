import Autotree.Config.Error
import Autotree.Text.Blank
import Autotree.Text.LetterCase
import Autotree.Text.Lines

/-!
# Configuration files

A configuration file assigns values to keys, one `KEY=VALUE` per line.  Blank
lines and lines that start with `#` are skipped; every other line must hold
exactly one `=`, where one inside a trailing comment counts too.  `Entry.parse`
reads a text into its assignments, in file order and with their line numbers.
-/

namespace Autotree

/-- One assignment of a configuration file. -/
structure Entry where
  /-- The number of its line, counted from one. -/
  lineNo : Nat
  /-- The key, trimmed and in uppercase. -/
  key : String
  /-- The value, without a trailing comment and trimmed. -/
  value : String
deriving DecidableEq, Repr

namespace Entry

/-- What one line of a configuration file says. -/
inductive Line where
  | skipped
  | assignment (key value : String)
  | malformed (text : String)
deriving DecidableEq, Repr

/-- The value of an assignment: what stands before the first `#`. -/
def valueChars (cs : List Char) : List Char :=
  cs.takeWhile (· != '#')

/-- Reads a line that has been trimmed. -/
def readTrimmed (cs : List Char) : Line :=
  if cs.isEmpty || cs.head? == some '#' then .skipped
  else
    match cs.splitOn '=' with
    | [key, value] =>
      .assignment (Text.upper (Text.trim (String.ofList key)))
        (String.ofList (Text.trimChars (valueChars value)))
    | _ => .malformed (String.ofList cs)

/-- Reads a line. -/
def readLine (cs : List Char) : Line :=
  readTrimmed (Text.trimChars cs)

/-- Reads lines, the first of which has number `n`. -/
def parseLines : Nat → List (List Char) → Except ConfigError (List Entry)
  | _, [] => .ok []
  | n, line :: rest =>
    match readLine line with
    | .skipped => parseLines (n + 1) rest
    | .malformed text => .error (.malformedLine n text)
    | .assignment key value => do
      let entries ← parseLines (n + 1) rest
      return ⟨n, key, value⟩ :: entries

/-- Reads the text of a configuration file. -/
def parse (text : String) : Except ConfigError (List Entry) :=
  parseLines 1 (Text.charLines text.toList)

end Entry

end Autotree
