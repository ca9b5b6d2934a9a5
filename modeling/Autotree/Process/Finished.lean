import Autotree.Process.Command
import Autotree.Store.Basic

/-!
# Finished processes

A process that ran leaves its ending, the file store as it made it, and what it
printed, in order.
-/

namespace Autotree

/-- What a process leaves. -/
structure Finished where
  ending : Ending
  store : Store
  printed : List (Stream × ByteArray) := []

namespace Finished

/-- What a process printed on one stream. -/
def text (f : Finished) (stream : Stream) : ByteArray :=
  f.printed.foldl (fun bytes (s, b) => if s = stream then bytes ++ b else bytes) .empty

end Finished

end Autotree
