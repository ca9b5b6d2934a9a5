import Autotree.Number.Rounding

/-!
# Dates and times

A date, a time of day, or a date with a time of day and perhaps an offset from
universal time.  Each has one text: `T` between date and time, no trailing zeros in
the fraction of a second, `Z` only for an offset that was given so.
-/

namespace Autotree.Toml

/-- A day of the calendar. -/
structure Date where
  year : Nat
  month : Nat
  day : Nat
deriving DecidableEq, Repr

/-- A time of day; a leap second is the sixtieth. -/
structure TimeOfDay where
  hour : Nat
  minute : Nat
  second : Nat
  nanosecond : Nat
deriving DecidableEq, Repr

/-- An offset from universal time. -/
inductive Offset where
  | universal
  | minutes (n : Int)
deriving DecidableEq, Repr

/-- A date or time. -/
inductive DateTime where
  | date (date : Date)
  | time (time : TimeOfDay)
  | both (date : Date) (time : TimeOfDay) (offset : Option Offset)
deriving DecidableEq, Repr

open Number (paddedDigits)

/-- The number of days of a month. -/
def Date.daysOfMonth (year month : Nat) : Nat :=
  let leap := year % 4 = 0 ∧ (year % 100 ≠ 0 ∨ year % 400 = 0)
  if month = 2 then if leap then 29 else 28
  else if month = 4 ∨ month = 6 ∨ month = 9 ∨ month = 11 then 30
  else 31

/-- The text of a date. -/
def Date.text (d : Date) : String :=
  paddedDigits 4 d.year ++ "-" ++ paddedDigits 2 d.month ++ "-" ++ paddedDigits 2 d.day

/-- The text of a fraction of a second, empty when there is none. -/
def TimeOfDay.fraction (nanosecond : Nat) : String :=
  if nanosecond = 0 then ""
  else
    let digits := (paddedDigits 9 nanosecond).toList
    "." ++ String.ofList (digits.reverse.dropWhile (· == '0')).reverse

/-- The text of a time of day. -/
def TimeOfDay.text (t : TimeOfDay) : String :=
  paddedDigits 2 t.hour ++ ":" ++ paddedDigits 2 t.minute ++ ":" ++ paddedDigits 2 t.second ++
    fraction t.nanosecond

/-- The text of an offset; one of no minutes has a plus sign. -/
def Offset.text : Offset → String
  | universal => "Z"
  | minutes n =>
    (if n < 0 then "-" else "+") ++ paddedDigits 2 (n.natAbs / 60) ++ ":" ++
      paddedDigits 2 (n.natAbs % 60)

/-- The text of a date or time. -/
def DateTime.text : DateTime → String
  | date d => d.text
  | time t => t.text
  | both d t offset => d.text ++ "T" ++ t.text ++ (offset.map Offset.text).getD ""

end Autotree.Toml
