import Autotree.Toml.Value

/-!
# The inline text of a TOML value

A value is written on one line where its strings allow it: arrays in brackets,
tables in braces, keys bare where they may be.  A string gets the first of four
forms that holds it without an escape: between double quotes, between single
quotes, between three double quotes, between three single quotes; only the forms
with three quotes hold line feeds.  Where none does, it is written with escapes.
A date or time that is part of a value is written as it is; one by itself as the
table that it stands for.
-/

namespace Autotree.Toml

/-- How a string is written. -/
inductive Quoting where
  | basic
  | literal
  | basicLines
  | literalLines
deriving DecidableEq, Repr

/-- A control character that only an escape denotes. -/
def isControl (c : Char) : Bool :=
  (c.toNat < 32 && c != '\t' && c != '\n') || c.toNat == 127

/-- The length of the longest run of a character. -/
def longestRun (c : Char) (cs : List Char) : Nat :=
  ((cs.splitOnP (· != c)).map (·.length)).foldl max 0

/-- Whether double quotes hold a text without escapes, three of them if `lines`. -/
def fitsBasic (lines : Bool) (cs : List Char) : Bool :=
  !cs.any isControl && !cs.contains '\\' &&
    if lines then longestRun '"' cs < 3 else !cs.contains '"' && !cs.contains '\n'

/-- Whether single quotes hold a text, three of them if `lines`. -/
def fitsLiteral (lines : Bool) (cs : List Char) : Bool :=
  !cs.any isControl &&
    if lines then longestRun '\'' cs < 3 else !cs.contains '\'' && !cs.contains '\n'

/-- The form in which a string is written. -/
def quoting (cs : List Char) : Quoting :=
  if fitsBasic false cs then .basic
  else if fitsLiteral false cs then .literal
  else if fitsBasic true cs then .basicLines
  else if fitsLiteral true cs then .literalLines
  else if cs.contains '\n' then .basicLines
  else .basic

/-- The escape of a character, or the character itself. -/
def escapeChar (c : Char) : List Char :=
  let n := c.toNat
  if n = 8 then ['\\', 'b']
  else if n = 9 then ['\\', 't']
  else if n = 10 then ['\\', 'n']
  else if n = 12 then ['\\', 'f']
  else if n = 13 then ['\\', 'r']
  else if c = '\\' then ['\\', '\\']
  else if n < 32 ∨ n = 127 then
    let digits := (Nat.toDigits 16 n).map Char.toUpper
    ['\\', 'u'] ++ List.replicate (4 - digits.length) '0' ++ digits
  else [c]

/-- The characters between double quotes, three of them if `lines`, when `run` double
quotes without an escape stand right in front. -/
def escape (lines : Bool) : Nat → List Char → List Char
  | _, [] => []
  | run, c :: rest =>
    if c = '"' then
      if lines && run < 2 then c :: escape lines (run + 1) rest
      else '\\' :: c :: escape lines 0 rest
    else if lines && c = '\n' then c :: escape lines 0 rest
    else escapeChar c ++ escape lines 0 rest

/-- A string between double quotes. -/
def basicString (cs : List Char) : String :=
  "\"" ++ String.ofList (escape false 0 cs) ++ "\""

/-- The text of a string; a form with three quotes puts a text of several lines on
lines of its own. -/
def stringText (text : String) : String :=
  let cs := text.toList
  let start := if cs.contains '\n' then "\n" else ""
  match quoting cs with
  | .basic => basicString cs
  | .literal => "'" ++ text ++ "'"
  | .basicLines => "\"\"\"" ++ start ++ String.ofList (escape true 0 cs) ++ "\"\"\""
  | .literalLines => "'''" ++ start ++ text ++ "'''"

/-- A character of a bare key. -/
def isBareKeyChar (c : Char) : Bool :=
  c.isAlphanum || c == '_' || c == '-'

/-- The text of a key: bare, or a string on one line. -/
def keyText (key : String) : String :=
  let cs := key.toList
  if !cs.isEmpty && cs.all isBareKeyChar then key
  else if !fitsBasic false cs && fitsLiteral false cs then "'" ++ key ++ "'"
  else basicString cs

mutual

/-- The text of a value inside another. -/
def Value.inlineText : Value → String
  | .string s => stringText s
  | .integer n => toString n
  | .float x => x.text
  | .boolean b => if b then "true" else "false"
  | .dateTime d => d.text
  | .array elements => "[" ++ ", ".intercalate (elementTexts elements) ++ "]"
  | .table [] => "\x7b\x7d"
  | .table entries => "\x7b " ++ ", ".intercalate (entryTexts entries) ++ " \x7d"

/-- The texts of the elements of an array. -/
def elementTexts : List Value → List String
  | [] => []
  | v :: rest => v.inlineText :: elementTexts rest

/-- The texts of the entries of a table. -/
def entryTexts : List (String × Value) → List String
  | [] => []
  | (key, v) :: rest => (keyText key ++ " = " ++ v.inlineText) :: entryTexts rest

end

/-- The text of a value by itself. -/
def Value.text : Value → String
  | .dateTime d => (Value.table [(Value.dateTimeKey, .string d.text)]).inlineText
  | v => v.inlineText

end Autotree.Toml
