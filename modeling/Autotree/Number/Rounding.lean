/-!
# Rounding a quotient

`roundHalfEven num den` is the integer nearest to `num / den`; a quotient that
lies halfway goes to the even neighbour.  `fixed` writes a quotient with a fixed
number of decimal places by this rule.
-/

namespace Autotree.Number

/-- The integer nearest to `num / den`, the even one of two equally near. -/
def roundHalfEven (num den : Nat) : Nat :=
  let q := num / den
  let r := num % den
  if den < 2 * r ∨ (2 * r = den ∧ q % 2 = 1) then q + 1 else q

/-- The decimal digits of `n`, padded on the left with zeros to `width`. -/
def paddedDigits (width n : Nat) : String :=
  let digits := toString n
  String.ofList (List.replicate (width - digits.length) '0') ++ digits

/-- The text of `num / den` with `places` digits after the point. -/
def fixed (places num den : Nat) : String :=
  let scaled := roundHalfEven (num * Nat.pow 10 places) den
  toString (scaled / Nat.pow 10 places) ++ "." ++ paddedDigits places (scaled % Nat.pow 10 places)

end Autotree.Number
