import Autotree.Number.Binary64

/-!
# Durations for people

A duration is shown in seconds with two decimal places below one minute and in
minutes with one decimal place from there on.  The seconds are a 64-bit floating
point number, so three roundings come before the text is made: of the whole
seconds, of the fraction, and of their sum; minutes add a fourth.
-/

namespace Autotree

/-- A span of time. -/
structure Duration where
  seconds : Nat
  nanoseconds : Nat
deriving DecidableEq, Repr, Inhabited

namespace Duration

open Number

/-- The quotient rounded to a 64-bit floating point number. -/
def round64 (num den : Nat) : Nat × Nat :=
  match Binary64.nearest false num den with
  | .finite _ m e => Binary64.ratio m e
  | _ => (num, den)

/-- The duration in seconds, as the quotient of two naturals. -/
def inSeconds (d : Duration) : Nat × Nat :=
  let (wholeNum, wholeDen) := round64 d.seconds 1
  let (partNum, partDen) := round64 d.nanoseconds 1000000000
  round64 (wholeNum * partDen + partNum * wholeDen) (wholeDen * partDen)

/-- The text of a duration. -/
def text (d : Duration) : String :=
  let (num, den) := d.inSeconds
  if num < 60 * den then
    fixed 2 num den ++ "s"
  else
    let (num, den) := round64 num (60 * den)
    fixed 1 num den ++ "m"

/-- The sum of two durations. -/
def add (a b : Duration) : Duration :=
  let nanoseconds := a.nanoseconds + b.nanoseconds
  ⟨a.seconds + b.seconds + nanoseconds / 1000000000, nanoseconds % 1000000000⟩

/-- The span by which `a` is longer than `b`. -/
def since (a b : Duration) : Duration :=
  let n := (a.seconds * 1000000000 + a.nanoseconds) - (b.seconds * 1000000000 + b.nanoseconds)
  ⟨n / 1000000000, n % 1000000000⟩

/-- The empty span. -/
def zero : Duration := ⟨0, 0⟩

end Duration

end Autotree
