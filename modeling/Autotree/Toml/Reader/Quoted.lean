import Autotree.Number.Integer
import Autotree.Toml.Reader.Trivia

/-!
# Quoted strings of a TOML document

A basic string stands between double quotes and has escapes, a literal string
between single quotes and has none.  Either may be written with three quotes; it
then spans lines, a line break right after the opening quotes is dropped, and up
to two further quotes may stand before the closing ones.  Each reader gets what
follows the opening quotes and gives the text with what follows the closing
ones.
-/

namespace Autotree.Toml.Reader

/-- The character that a one-letter escape denotes. -/
def escaped? : Char → Option Char
  | 'b' => some '\x08'
  | 't' => some '\t'
  | 'n' => some '\n'
  | 'f' => some '\x0c'
  | 'r' => some '\r'
  | '"' => some '"'
  | '\\' => some '\\'
  | _ => none

/-- The character with a hexadecimal code point, surrogates excluded. -/
def codePoint? (digits : List Char) : Option Char :=
  (Number.natural? 16 digits).bind fun n =>
    if n.isValidChar then some (Char.ofNat n) else none

/-- A character in front of what was read after it. -/
def prepend (c : Char) (read : Option (List Char × List Char)) : Option (List Char × List Char) :=
  read.map fun (text, rest) => (c :: text, rest)

/-- Reads the rest of a basic string on one line. -/
def basic? : List Char → Option (List Char × List Char)
  | [] => none
  | '"' :: rest => some ([], rest)
  | '\\' :: 'u' :: a :: b :: c :: d :: rest =>
    (codePoint? [a, b, c, d]).bind fun x => prepend x (basic? rest)
  | '\\' :: 'U' :: a :: b :: c :: d :: e :: f :: g :: h :: rest =>
    (codePoint? [a, b, c, d, e, f, g, h]).bind fun x => prepend x (basic? rest)
  | '\\' :: c :: rest => (escaped? c).bind fun x => prepend x (basic? rest)
  | c :: rest => if isTextChar c && c != '\\' then prepend c (basic? rest) else none

/-- Reads the rest of a literal string on one line. -/
def literal? : List Char → Option (List Char × List Char)
  | [] => none
  | c :: rest =>
    if c == '\'' then some ([], rest)
    else if isTextChar c then prepend c (literal? rest)
    else none

/-- The closing quotes of a string with three quotes, once three have been read:
up to two more belong to the text. -/
def closing (quote : Char) : List Char → List Char × List Char
  | a :: b :: rest =>
    if a == quote && b == quote then ([quote, quote], rest)
    else if a == quote then ([quote], b :: rest)
    else ([], a :: b :: rest)
  | [a] => if a == quote then ([quote], []) else ([], [a])
  | [] => ([], [])

/-- Whether a backslash is followed by the end of its line. -/
def continuesLine (rest : List Char) : Bool :=
  (newline? (skipSpaces rest)).isSome

/-- Reads the rest of a basic string with three quotes; blanks and line breaks
are dropped while `skipping`. -/
def multilineBasic? : Bool → List Char → Option (List Char × List Char)
  | _, [] => none
  | _, '"' :: '"' :: '"' :: rest => some (closing '"' rest)
  | skipping, '\r' :: '\n' :: rest =>
    if skipping then multilineBasic? true rest else prepend '\n' (multilineBasic? false rest)
  | _, '\\' :: 'u' :: a :: b :: c :: d :: rest =>
    (codePoint? [a, b, c, d]).bind fun x => prepend x (multilineBasic? false rest)
  | _, '\\' :: 'U' :: a :: b :: c :: d :: e :: f :: g :: h :: rest =>
    (codePoint? [a, b, c, d, e, f, g, h]).bind fun x => prepend x (multilineBasic? false rest)
  | _, '\\' :: c :: rest =>
    if continuesLine (c :: rest) then multilineBasic? true (c :: rest)
    else (escaped? c).bind fun x => prepend x (multilineBasic? false rest)
  | skipping, c :: rest =>
    if skipping && (isSpace c || c == '\n') then multilineBasic? true rest
    else if (isTextChar c || c == '\n') && c != '\\' then prepend c (multilineBasic? false rest)
    else none

/-- Reads the rest of a literal string with three quotes. -/
def multilineLiteral? : List Char → Option (List Char × List Char)
  | [] => none
  | '\'' :: '\'' :: '\'' :: rest => some (closing '\'' rest)
  | '\r' :: '\n' :: rest => prepend '\n' (multilineLiteral? rest)
  | c :: rest =>
    if isTextChar c || c == '\n' then prepend c (multilineLiteral? rest) else none

/-- What follows a line break right after opening quotes, if there is one. -/
def dropNewline (cs : List Char) : List Char :=
  (newline? cs).getD cs

/-- Reads a string of any of the four forms. -/
def string? : List Char → Option (String × List Char)
  | '"' :: '"' :: '"' :: rest => finish (multilineBasic? false (dropNewline rest))
  | '"' :: rest => finish (basic? rest)
  | '\'' :: '\'' :: '\'' :: rest => finish (multilineLiteral? (dropNewline rest))
  | '\'' :: rest => finish (literal? rest)
  | _ => none
where
  /-- The characters read, as a text. -/
  finish (read : Option (List Char × List Char)) : Option (String × List Char) :=
    read.map fun (text, rest) => (String.ofList text, rest)

end Autotree.Toml.Reader
