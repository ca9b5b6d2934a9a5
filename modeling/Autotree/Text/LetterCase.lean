import Autotree.Text.LetterCase.Table

/-!
# Letter case

`upper` is Unicode's full uppercase mapping: a letter may become several
characters, as `ß` becomes `SS`.  Words of a fixed vocabulary (`true`, `int`,
`always`) are recognised by `lowerAscii`, which changes ASCII letters only; no
other letter has a lowercase form among the letters of these words, so Unicode's
lowercase mapping would recognise the same texts.
-/

namespace Autotree.Text

/-- The letter of a run at code point `n`, if `n` lies on the run. -/
def CaseRange.map? (r : CaseRange) (n : Nat) : Option Nat :=
  if r.first ≤ n ∧ n ≤ r.last ∧ (n - r.first) % r.step = 0 then
    some (r.target + (n - r.first))
  else
    none

/-- The uppercase form of a code point above ASCII. -/
def upperCodePoint (n : Nat) : List Nat :=
  match upperRanges.findSome? (·.map? n) with
  | some m => [m]
  | none => (upperExpansions.lookup n).getD [n]

/-- The uppercase form of a character. -/
def upperChar (c : Char) : List Char :=
  if c.toNat < 128 then [c.toUpper] else (upperCodePoint c.toNat).map Char.ofNat

/-- The uppercase form of a text. -/
def upper (text : String) : String :=
  String.ofList (text.toList.flatMap upperChar)

/-- A text with its ASCII letters in lowercase. -/
def lowerAscii (text : String) : String :=
  String.ofList (text.toList.map Char.toLower)

/-- Equality of texts up to the case of ASCII letters. -/
def sameAscii (a b : String) : Bool :=
  lowerAscii a == lowerAscii b

end Autotree.Text
