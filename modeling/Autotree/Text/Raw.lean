import Autotree.Text.Utf8

/-!
# Texts of the system

The system takes any bytes as a name, text or not.  A text of the system is kept
as characters nevertheless: a byte that belongs to no character is written as NUL,
which no text of the system holds, and the character with the number of the byte.
So a text is one throughout (`isUnicode`) if it has no NUL.
-/

namespace Autotree.Text

namespace Raw

/-- A character, or a byte that belongs to none. -/
inductive Piece where
  | char (c : Char)
  | byte (b : UInt8)
deriving DecidableEq, Repr

/-- The bytes of a piece. -/
def Piece.bytes : Piece → List UInt8
  | char c => String.utf8EncodeChar c
  | byte b => [b]

/-- The number of bytes of a piece. -/
def Piece.size : Piece → Nat
  | char c => c.utf8Size
  | byte _ => 1

/-- The number of bytes of pieces. -/
def size : List Piece → Nat
  | [] => 0
  | piece :: rest => piece.size + size rest

/-- What announces a byte that belongs to no character. -/
def escape : Char := '\x00'

/-- Whether two characters stand for a byte that belongs to none. -/
def isByte (c d : Char) : Bool :=
  c == escape && 0x80 ≤ d.toNat && d.toNat ≤ 0xFF

/-- The first piece of a text, and what comes after it. -/
def firstPiece (c : Char) : List Char → Piece × List Char
  | [] => (.char c, [])
  | d :: rest => if isByte c d then (.byte d.toNat.toUInt8, rest) else (.char c, d :: rest)

/-- The pieces of a text. -/
def pieces : List Char → List Piece
  | [] => []
  | [c] => [.char c]
  | c :: d :: rest =>
    if isByte c d then .byte d.toNat.toUInt8 :: pieces rest else .char c :: pieces (d :: rest)

/-- Bytes that belong to no character, each announced. -/
def escaped : Utf8.Broken :=
  fun bytes => bytes.flatMap fun b => [escape, Char.ofNat b.toNat]

/-- The characters of pieces, where bytes that are no text are replaced. -/
def shown : Option Utf8.Pending → List Piece → List Char
  | pending, [] => Utf8.breakOff Utf8.replaced pending
  | pending, .char c :: rest => Utf8.breakOff Utf8.replaced pending ++ c :: shown none rest
  | pending, .byte b :: rest =>
    (Utf8.step Utf8.replaced pending b).1 ++ shown (Utf8.step Utf8.replaced pending b).2 rest

end Raw

/-- Whether all bytes of a text of the system belong to characters. -/
def isUnicode (text : String) : Bool :=
  !text.toList.contains Raw.escape

/-- The number of bytes of a text of the system. -/
def byteSize (text : String) : Nat :=
  Raw.size (Raw.pieces text.toList)

/-- The bytes of a text of the system. -/
def bytes (text : String) : ByteArray :=
  ⟨((Raw.pieces text.toList).flatMap Raw.Piece.bytes).toArray⟩

/-- The text of the system that has given bytes. -/
def ofBytes (bytes : ByteArray) : String :=
  match String.fromUTF8? bytes with
  | some text => text
  | none => String.ofList (Utf8.chars Raw.escaped none bytes.toList)

/-- A text of the system as it is shown: what belongs to no character is replaced. -/
def shown (text : String) : String :=
  String.ofList (Raw.shown none (Raw.pieces text.toList))

end Autotree.Text
