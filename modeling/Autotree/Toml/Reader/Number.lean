import Autotree.Number.Binary64
import Autotree.Number.Integer
import Autotree.Toml.Value

/-!
# Numbers of a TOML document

An integer has a sign and decimal digits without a leading zero, or no sign and
hexadecimal, octal or binary digits after `0x`, `0o` or `0b`; it has to fit in 64
bits with a sign.  A number with a fraction or an exponent is a floating point
number; one above the largest finite number is refused.  Single underscores may
stand between digits.
-/

namespace Autotree.Toml.Reader

open Autotree.Number

/-- The digits of a run that may have single underscores inside, after its first
digit, with what follows. -/
def moreDigits (base : Nat) : List Char → List Char × List Char
  | [] => ([], [])
  | '_' :: c :: rest =>
    if (digit? base c).isSome then
      let (digits, rest) := moreDigits base rest
      (c :: digits, rest)
    else
      ([], '_' :: c :: rest)
  | c :: rest =>
    if (digit? base c).isSome then
      let (digits, rest) := moreDigits base rest
      (c :: digits, rest)
    else
      ([], c :: rest)

/-- One or more digits, with what follows. -/
def digits? (base : Nat) : List Char → Option (List Char × List Char)
  | c :: rest =>
    if (digit? base c).isSome then
      let (digits, rest) := moreDigits base rest
      some (c :: digits, rest)
    else
      none
  | [] => none

/-- Decimal digits without a leading zero, with what follows. -/
def plainDigits? : List Char → Option (List Char × List Char)
  | '0' :: rest => some (['0'], rest)
  | cs => digits? 10 cs

/-- The value of a run of decimal digits. -/
def valueOf (digits : List Char) : Nat :=
  (natural? 10 digits).getD 0

/-- A sign, whether it is a minus, and what follows. -/
def sign : List Char → Bool × List Char
  | '-' :: rest => (true, rest)
  | '+' :: rest => (false, rest)
  | cs => (false, cs)

/-- The fraction of a number: its digits, none when there is no point. -/
def fraction? : List Char → Option (List Char × List Char)
  | '.' :: rest => digits? 10 rest
  | cs => some ([], cs)

/-- The exponent of a number, if it has one. -/
def exponent? : List Char → Option (Option Int × List Char)
  | c :: rest =>
    if c == 'e' || c == 'E' then
      let (negative, rest) := sign rest
      (digits? 10 rest).map fun (digits, rest) =>
        let n : Int := valueOf digits
        (some (if negative then -n else n), rest)
    else
      some (none, c :: rest)
  | [] => some (none, [])

/-- An integer in a base other than ten, after its two-character mark. -/
def based? (base : Nat) (cs : List Char) : Option (Value × List Char) := do
  let (digits, rest) ← digits? base cs
  let n ← natural? base digits
  let n ← fits64? n
  return (.integer n, rest)

/-- A decimal integer or a floating point number. -/
def decimalNumber? (cs : List Char) : Option (Value × List Char) := do
  let (negative, cs) := sign cs
  match cs with
  | 'i' :: 'n' :: 'f' :: rest => return (.float (.infinite negative), rest)
  | 'n' :: 'a' :: 'n' :: rest => return (.float .nan, rest)
  | _ =>
    let (whole, rest) ← plainDigits? cs
    let (part, afterPart) ← fraction? rest
    let (power, rest') ← exponent? afterPart
    if part.isEmpty && power.isNone then
      let n : Int := valueOf whole
      let n ← fits64? (if negative then -n else n)
      return (.integer n, rest')
    else
      let x := Binary64.ofDecimal negative (valueOf (whole ++ part))
        (power.getD 0 - part.length)
      if x = .infinite false then none else return (.float x, rest')

/-- Reads a number. -/
def number? : List Char → Option (Value × List Char)
  | '0' :: 'x' :: rest => based? 16 rest
  | '0' :: 'o' :: rest => based? 8 rest
  | '0' :: 'b' :: rest => based? 2 rest
  | cs => decimalNumber? cs

end Autotree.Toml.Reader
