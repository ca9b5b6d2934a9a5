import Autotree.Number.Binary64

/-!
# The shortest decimal that reads back

The text of a finite number has the fewest decimal digits among the decimals
that round to it, and of those with the fewest digits the one nearest to it, the
greater of two that are equally near.
The search goes through the decimal grids `10 ^ k` from coarse to fine: the
first grid with a point in the interval of reals that round to the number
decides, and only the number's two neighbours on the grid need to be tried.
-/

namespace Autotree.Number.Binary64

/-- The reals that round to `m · 2 ^ e`, in units of `2 ^ (e - 2)`: the lower
end, the upper end, and whether the ends belong to them. -/
def roundingInterval (m : Nat) (e : Int) : Nat × Nat × Bool :=
  let below := if m = Nat.pow 2 52 ∧ minExponent < e then 1 else 2
  (4 * m - below, 4 * m + 2, m % 2 == 0)

/-- The point nearest to `m · 2 ^ e` on the grid `10 ^ k`, if one of its two
neighbours there rounds to it; halfway between them it is the greater one. -/
def gridPoint? (m : Nat) (e k : Int) : Option Nat :=
  let (low, high, closed) := roundingInterval m e
  -- multiples of the grid and of the unit over one denominator
  let unit := e - 2
  let grid : Nat := Nat.pow 10 k.toNat * Nat.pow 2 (-unit).toNat
  let one : Nat := Nat.pow 10 (-k).toNat * Nat.pow 2 unit.toNat
  let value := 4 * m * one
  let inside (p : Nat) : Bool :=
    let x := p * grid
    if closed then low * one ≤ x && x ≤ high * one else low * one < x && x < high * one
  let p := value / grid
  let lowOk := p ≠ 0 && inside p
  let highOk := inside (p + 1)
  if lowOk && highOk then
    if 2 * (value - p * grid) < grid then some p else some (p + 1)
  else if lowOk then some p
  else if highOk then some (p + 1)
  else none

/-- The digits and the power of ten of the first grid with a hit. -/
def searchGrids (m : Nat) (e : Int) : Nat → Int → Nat × Int
  | 0, k => (m, k)
  | fuel + 1, k =>
    match gridPoint? m e k with
    | some p => (p, k)
    | none => searchGrids m e fuel (k - 1)

/-- The shortest digits and the power of ten of `m · 2 ^ e`. -/
def shortestDigits (m : Nat) (e : Int) : Nat × Int :=
  let (num, den) := ratio m e
  let start : Int :=
    if den ≤ num then (toString (num / den)).length
    else 1 - (toString (den / num)).length
  searchGrids m e 24 (start + 1)

/-- `digits · 10 ^ power` without an exponent. -/
def positional (digits : Nat) (power : Int) : String :=
  let text := toString digits
  if 0 ≤ power then
    text ++ String.ofList (List.replicate power.toNat '0')
  else
    let places := (-power).toNat
    let padded := paddedDigits (places + 1) digits
    let cs := padded.toList
    String.ofList (cs.take (cs.length - places)) ++ "." ++
      String.ofList (cs.drop (cs.length - places))

/-- The text of a number: always positional, a whole number with one zero after
the point, and a sign also on zero. -/
def text : Binary64 → String
  | .nan => "nan"
  | .infinite negative => if negative then "-inf" else "inf"
  | .finite negative m e =>
    let sign := if negative then "-" else ""
    if m = 0 then sign ++ "0.0"
    else
      let (digits, power) := shortestDigits m e
      sign ++ positional digits power ++ if 0 ≤ power then ".0" else ""

end Autotree.Number.Binary64
