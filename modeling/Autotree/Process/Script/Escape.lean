import Autotree.Text.Raw

/-!
# Backslash escapes

What `echo` and `printf` print: a backslash starts an escape for a control
character or, with octal digits, for any byte.  `echo` wants a zero in front of
up to three digits, a format of `printf` none.
-/

namespace Autotree.Script.Escape

/-- The byte that an escape letter stands for. -/
def letter? (c : Char) : Option UInt8 :=
  match c with
  | 'a' => some 7
  | 'b' => some 8
  | 'f' => some 12
  | 'n' => some 10
  | 'r' => some 13
  | 't' => some 9
  | 'v' => some 11
  | '\\' => some 92
  | _ => none

/-- An octal digit. -/
def isOctal (c : Char) : Bool :=
  '0' ≤ c && c ≤ '7'

/-- The value of octal digits. -/
def octalValue (digits : List Char) : Nat :=
  digits.foldl (fun n c => n * 8 + (c.toNat - 48)) 0

/-- The octal digits at the front, at most `most` of them. -/
def octalDigits (most : Nat) (cs : List Char) : List Char :=
  (cs.take most).takeWhile isOctal

/-- Reads an escape after its backslash: the bytes it stands for and what
follows; a backslash before anything else stands for itself. -/
def read (leadingZero : Bool) (cs : List Char) : List UInt8 × List Char :=
  match cs with
  | [] => ([92], [])
  | c :: rest =>
    match letter? c with
    | some b => ([b], rest)
    | none =>
      let start := if leadingZero && c == '0' then rest else c :: rest
      let digits := octalDigits 3 start
      if digits.isEmpty && !(leadingZero && c == '0') then ([92], c :: rest)
      else ([(octalValue digits).toUInt8], start.drop digits.length)

/-- The bytes of a text with its escapes read, up to an escape `\c`; also whether
there was one. -/
def expand : Nat → List Char → List UInt8 × Bool
  | 0, _ => ([], false)
  | _, [] => ([], false)
  | fuel + 1, c :: rest =>
    if c == '\\' then
      if rest.head? = some 'c' then ([], true)
      else
        let (bytes, rest) := read true rest
        let (others, stopped) := expand fuel rest
        (bytes ++ others, stopped)
    else
      let (piece, rest) := Text.Raw.firstPiece c rest
      let (others, stopped) := expand fuel rest
      (piece.bytes ++ others, stopped)

/-- What `echo` prints. -/
def echo (args : List String) : ByteArray :=
  let (newline, args) :=
    match args with
    | "-n" :: rest => (false, rest)
    | _ => (true, args)
  let cs := (" ".intercalate args).toList
  let (bytes, stopped) := expand (cs.length + 1) cs
  ⟨(if newline && !stopped then bytes ++ [10] else bytes).toArray⟩

/-- The bytes of an argument under a conversion. -/
def convert (conversion : Char) (arg : String) : List UInt8 :=
  match conversion with
  | 'c' => (Text.bytes arg).toList.take 1
  | 'b' => (expand (arg.length + 1) arg.toList).1
  | 'd' | 'i' | 'u' => (toString (arg.toInt?.getD 0)).toUTF8.toList
  | _ => (Text.bytes arg).toList

/-- One pass through a format: the bytes, and the arguments that are left. -/
def formatOnce : Nat → List Char → List String → List UInt8 × List String
  | 0, _, args => ([], args)
  | _, [], args => ([], args)
  | fuel + 1, c :: rest, args =>
    if c == '\\' then
      let (bytes, rest) := read false rest
      let (others, args) := formatOnce fuel rest args
      (bytes ++ others, args)
    else
      match c, rest with
      | '%', '%' :: rest =>
        let (others, args) := formatOnce fuel rest args
        (37 :: others, args)
      | '%', conversion :: rest =>
        let (others, left) := formatOnce fuel rest args.tail
        (convert conversion (args.head?.getD "") ++ others, left)
      | _, _ =>
        let (piece, rest) := Text.Raw.firstPiece c rest
        let (others, args) := formatOnce fuel rest args
        (piece.bytes ++ others, args)

/-- A format applied again as long as it takes arguments and some are left. -/
def formatAll : Nat → List Char → List String → List UInt8
  | 0, _, _ => []
  | fuel + 1, format, args =>
    let (bytes, left) := formatOnce (format.length + 1) format args
    if left.isEmpty || left.length = args.length then bytes
    else bytes ++ formatAll fuel format left

/-- What `printf` prints. -/
def printf (args : List String) : ByteArray :=
  match args with
  | [] => .empty
  | format :: args => ⟨(formatAll (args.length + 1) format.toList args).toArray⟩

end Autotree.Script.Escape
