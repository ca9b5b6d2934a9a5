/-!
# Text from bytes

The bytes that a program prints need not be UTF-8.  `decode` reads them
nevertheless: a byte that fits no sequence, and a sequence that breaks off, each
become one replacement character.
-/

namespace Autotree.Text.Utf8

/-- What stands for bytes that are no text. -/
def replacement : Char := '\ufffd'

/-- A sequence of bytes that has begun. -/
structure Pending where
  /-- The bytes read so far. -/
  seen : List UInt8
  /-- The number of bytes that are still to come. -/
  missing : Nat
  /-- The least value that the next byte may have. -/
  low : UInt8
  /-- The greatest value that the next byte may have. -/
  high : UInt8
  /-- The bits read so far. -/
  value : Nat
deriving DecidableEq, Repr

/-- The sequence that a byte begins.  The bounds on its second byte keep out
surrogates, overlong forms and what lies beyond the last character. -/
def begins? (b : UInt8) : Option Pending :=
  if 0xC2 ≤ b ∧ b ≤ 0xDF then some ⟨[b], 1, 0x80, 0xBF, b.toNat - 0xC0⟩
  else if 0xE0 ≤ b ∧ b ≤ 0xEF then
    some ⟨[b], 2, if b = 0xE0 then 0xA0 else 0x80, if b = 0xED then 0x9F else 0xBF,
      b.toNat - 0xE0⟩
  else if 0xF0 ≤ b ∧ b ≤ 0xF4 then
    some ⟨[b], 3, if b = 0xF0 then 0x90 else 0x80, if b = 0xF4 then 0x8F else 0xBF,
      b.toNat - 0xF0⟩
  else none

/-- How bytes that are no text are written. -/
abbrev Broken := List UInt8 → List Char

/-- Bytes that are no text as one replacement character. -/
def replaced : Broken :=
  fun _ => [replacement]

/-- Reads a byte outside a sequence. -/
def start (broken : Broken) (b : UInt8) : List Char × Option Pending :=
  if b < 0x80 then ([Char.ofNat b.toNat], none)
  else
    match begins? b with
    | some p => ([], some p)
    | none => (broken [b], none)

/-- What is written of a sequence that breaks off. -/
def breakOff (broken : Broken) : Option Pending → List Char
  | none => []
  | some p => broken p.seen

/-- Reads a byte, perhaps in the middle of a sequence. -/
def step (broken : Broken) (pending : Option Pending) (b : UInt8) :
    List Char × Option Pending :=
  match pending with
  | none => start broken b
  | some p =>
    if p.low ≤ b ∧ b ≤ p.high then
      let value := p.value * 64 + (b.toNat - 0x80)
      if p.missing ≤ 1 then ([Char.ofNat value], none)
      else ([], some ⟨p.seen ++ [b], p.missing - 1, 0x80, 0xBF, value⟩)
    else (broken p.seen ++ (start broken b).1, (start broken b).2)

/-- The characters that bytes stand for. -/
def chars (broken : Broken) : Option Pending → List UInt8 → List Char
  | pending, [] => breakOff broken pending
  | pending, b :: rest =>
    (step broken pending b).1 ++ chars broken (step broken pending b).2 rest

/-- The text that bytes stand for. -/
def decode (bytes : ByteArray) : String :=
  match String.fromUTF8? bytes with
  | some text => text
  | none => String.ofList (chars replaced none bytes.toList)

end Autotree.Text.Utf8
