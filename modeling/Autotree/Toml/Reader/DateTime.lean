import Autotree.Toml.DateTime
import Autotree.Toml.Reader.Number

/-!
# Reading dates and times

Days have to exist in their month, hours are below 24, a leap second is allowed, and
fractions of a second count down to the nanosecond.  `dateTime?` reads a date or time
at the front of a text, `DateTime.ofText?` a text that holds nothing else.
-/

namespace Autotree.Toml.Reader

open Autotree.Number

/-- Exactly `count` decimal digits with a value between `low` and `high`. -/
def field? (count low high : Nat) (cs : List Char) : Option (Nat × List Char) := do
  let digits := cs.take count
  if digits.length = count ∧ digits.all Char.isDigit then
    let n := valueOf digits
    if low ≤ n ∧ n ≤ high then return (n, cs.drop count) else none
  else none

/-- What follows one given character. -/
def expect? (c : Char) : List Char → Option (List Char)
  | d :: rest => if d == c then some rest else none
  | [] => none

/-- Reads a date. -/
def date? (cs : List Char) : Option (Date × List Char) := do
  let (year, cs) ← field? 4 0 9999 cs
  let cs ← expect? '-' cs
  let (month, cs) ← field? 2 1 12 cs
  let cs ← expect? '-' cs
  let (day, cs) ← field? 2 1 (Date.daysOfMonth year month) cs
  return (⟨year, month, day⟩, cs)

/-- The nanoseconds that the digits of a fraction stand for; those after the ninth are
dropped. -/
def nanoseconds (digits : List Char) : Nat :=
  let kept := digits.take 9
  valueOf (kept ++ List.replicate (9 - kept.length) '0')

/-- Reads the fraction of a second, zero when there is none. -/
def secondFraction (cs : List Char) : Nat × List Char :=
  match cs with
  | '.' :: rest =>
    let digits := rest.takeWhile Char.isDigit
    if digits.isEmpty then (0, cs) else (nanoseconds digits, rest.dropWhile Char.isDigit)
  | _ => (0, cs)

/-- Reads a time of day. -/
def time? (cs : List Char) : Option (TimeOfDay × List Char) := do
  let (hour, cs) ← field? 2 0 23 cs
  let cs ← expect? ':' cs
  let (minute, cs) ← field? 2 0 59 cs
  let cs ← expect? ':' cs
  let (second, cs) ← field? 2 0 60 cs
  let (nanosecond, cs) := secondFraction cs
  return (⟨hour, minute, second, nanosecond⟩, cs)

/-- Reads the offset of a time, if there is one. -/
def offset? : List Char → Option (Option Offset × List Char)
  | [] => some (none, [])
  | c :: rest =>
    if c == 'Z' || c == 'z' then some (some .universal, rest)
    else if c == '+' || c == '-' then do
      let (hour, rest) ← field? 2 0 23 rest
      let rest ← expect? ':' rest
      let (minute, rest) ← field? 2 0 59 rest
      let n := hour * 60 + minute
      return (some (.minutes (if c == '-' then -n else n)), rest)
    else some (none, c :: rest)

/-- A character that may stand between a date and a time. -/
def isTimeMark (c : Char) : Bool :=
  c == 'T' || c == 't' || c == ' '

/-- Reads a date or time of a document; a date ends where no time follows it. -/
def dateTime? (cs : List Char) : Option (DateTime × List Char) := do
  match date? cs with
  | none =>
    let (time, rest) ← time? cs
    return (.time time, rest)
  | some (date, []) => return (.date date, [])
  | some (date, c :: rest) =>
    if isTimeMark c then
      match time? rest with
      | none => return (.date date, c :: rest)
      | some (time, rest) =>
        let (offset, rest) ← offset? rest
        return (.both date time offset, rest)
    else return (.date date, c :: rest)

end Autotree.Toml.Reader

namespace Autotree.Toml

/-- The date or time that a whole text denotes. -/
def DateTime.ofText? (text : String) : Option DateTime :=
  match Reader.dateTime? text.toList with
  | some (d, []) => some d
  | _ => none

end Autotree.Toml
