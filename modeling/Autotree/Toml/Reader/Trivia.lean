/-!
# What stands between the tokens of a TOML document

Blanks are spaces and tabs, a line ends in a line feed with at most one carriage
return in front, and a comment runs from `#` to the end of its line.  Control
characters other than the tab stand nowhere.
-/

namespace Autotree.Toml.Reader

/-- A blank within a line. -/
def isSpace (c : Char) : Bool :=
  c == ' ' || c == '\t'

/-- A character that text may hold: not a control character, the tab excepted. -/
def isTextChar (c : Char) : Bool :=
  c == '\t' || (32 ≤ c.toNat && c.toNat != 127)

/-- What follows the blanks. -/
def skipSpaces (cs : List Char) : List Char :=
  cs.dropWhile isSpace

/-- What follows a line break. -/
def newline? : List Char → Option (List Char)
  | '\n' :: rest => some rest
  | '\r' :: '\n' :: rest => some rest
  | _ => none

/-- What follows the rest of a line that holds nothing but blanks and a comment. -/
def endOfLine? (cs : List Char) : Option (List Char) :=
  let cs := skipSpaces cs
  let cs := if cs.head? == some '#' then cs.dropWhile isTextChar else cs
  if cs.isEmpty then some [] else newline? cs

/-- What follows blanks, line breaks and comments that end in one. -/
def skipTrivia? : Bool → List Char → Option (List Char)
  | inComment, [] => if inComment then none else some []
  | _, '\r' :: '\n' :: rest => skipTrivia? false rest
  | inComment, c :: rest =>
    if c == '\n' then skipTrivia? false rest
    else if inComment then if isTextChar c then skipTrivia? true rest else none
    else if isSpace c then skipTrivia? false rest
    else if c == '#' then skipTrivia? true rest
    else some (c :: rest)

end Autotree.Toml.Reader
