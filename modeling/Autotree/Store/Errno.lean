/-!
# System errors

The errors with which an operation on the file store or the start of a program is
refused, with the number and the text under which a system reports them.
-/

namespace Autotree

/-- Why the system refuses an operation. -/
inductive Errno where
  | noEntry
  | execFormat
  | denied
  | busy
  | alreadyExists
  | notDirectory
  | isDirectory
  | invalid
  | noSpace
  | nameTooLong
  | notEmpty
  | linkLoop
deriving DecidableEq, Repr

namespace Errno

/-- The number of an error. -/
def code : Errno → Nat
  | noEntry => 2
  | execFormat => 8
  | denied => 13
  | busy => 16
  | alreadyExists => 17
  | notDirectory => 20
  | isDirectory => 21
  | invalid => 22
  | noSpace => 28
  | nameTooLong => 36
  | notEmpty => 39
  | linkLoop => 40

/-- The description of an error. -/
def description : Errno → String
  | noEntry => "No such file or directory"
  | execFormat => "Exec format error"
  | denied => "Permission denied"
  | busy => "Device or resource busy"
  | alreadyExists => "File exists"
  | notDirectory => "Not a directory"
  | isDirectory => "Is a directory"
  | invalid => "Invalid argument"
  | noSpace => "No space left on device"
  | nameTooLong => "File name too long"
  | notEmpty => "Directory not empty"
  | linkLoop => "Too many levels of symbolic links"

/-- The text of an error. -/
def text (e : Errno) : String :=
  e.description ++ " (os error " ++ toString e.code ++ ")"

end Errno

end Autotree
