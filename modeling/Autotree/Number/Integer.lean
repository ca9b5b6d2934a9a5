/-!
# Signed 64-bit integers in text

A number is an optional sign and one or more ASCII digits; leading zeros are
allowed, and the value has to fit in 64 bits with a sign.  `decimal?` reads
such a text; anything else is no number.
-/

namespace Autotree.Number

/-- The least integer that 64 bits with a sign hold. -/
def minInt64 : Int := -9223372036854775808

/-- The greatest integer that 64 bits with a sign hold. -/
def maxInt64 : Int := 9223372036854775807

/-- The integer itself when it fits in 64 bits with a sign. -/
def fits64? (n : Int) : Option Int :=
  if minInt64 ≤ n ∧ n ≤ maxInt64 then some n else none

/-- The value of a digit in a base of at most sixteen. -/
def digit? (base : Nat) (c : Char) : Option Nat :=
  let n := c.toNat
  let value :=
    if 48 ≤ n ∧ n ≤ 57 then n - 48
    else if 97 ≤ n ∧ n ≤ 102 then n - 87
    else if 65 ≤ n ∧ n ≤ 70 then n - 55
    else base
  if value < base then some value else none

/-- The value of one or more digits. -/
def natural? (base : Nat) : List Char → Option Nat
  | [] => none
  | cs => cs.foldlM (fun n c => (digit? base c).map (base * n + ·)) 0

/-- The value of digits after an optional sign, without a bound. -/
def signed? : List Char → Option Int
  | '-' :: cs => (natural? 10 cs).map fun n => -Int.ofNat n
  | '+' :: cs => (natural? 10 cs).map Int.ofNat
  | cs => (natural? 10 cs).map Int.ofNat

/-- The 64-bit integer that a text denotes, if it denotes one. -/
def decimal? (text : String) : Option Int :=
  (signed? text.toList).bind fits64?

end Autotree.Number
