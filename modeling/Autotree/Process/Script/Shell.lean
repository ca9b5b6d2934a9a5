import Autotree.Process.Finished
import Autotree.Process.Script.Basic
import Autotree.Store.Files

/-!
# The state of a shell

A shell has its parameters, the status of its last command, and two descriptors
that lead to a stream, into a file, or nowhere.  Words become fields here: an
unquoted parameter is split at blanks, `"$@"` gives one field for each argument.
-/

namespace Autotree.Script

/-- Where a descriptor writes. -/
inductive Sink where
  | stream (stream : Stream)
  | file (place : Place)
  | nowhere
deriving DecidableEq, Repr

/-- The state of a shell that runs a script. -/
structure Shell where
  /-- The file store, with the shell's own directory. -/
  store : Store
  /-- The name of the script. -/
  name : String
  args : List String
  bindings : List (String × String) := []
  output : Sink := .stream .output
  errors : Sink := .stream .errors
  printed : List (Stream × ByteArray) := []
  /-- The status of the last command. -/
  status : Nat := 0

namespace Shell

/-- Appends bytes to the regular file at a place. -/
def appendTo (s : Store) (place : Place) (bytes : ByteArray) : Store :=
  match s.get? place with
  | some (.file content executable) => s.putFile place (content ++ bytes) executable
  | _ => s

/-- Writes bytes to a sink. -/
def write (sh : Shell) (sink : Sink) (bytes : ByteArray) : Shell :=
  match sink with
  | .stream stream => { sh with printed := sh.printed ++ [(stream, bytes)] }
  | .file place => { sh with store := appendTo sh.store place bytes }
  | .nowhere => sh

/-- The sink of a stream. -/
def sink (sh : Shell) : Stream → Sink
  | .output => sh.output
  | .errors => sh.errors

/-- Prints on the standard output. -/
def print (sh : Shell) (bytes : ByteArray) : Shell :=
  sh.write sh.output bytes

/-- Complains on the standard error stream and sets the status. -/
def complain (sh : Shell) (status : Nat) (text : String) : Shell :=
  { sh.write sh.errors (Text.bytes (sh.name ++ ": " ++ text ++ "\n")) with status := status }

/-- The number of the process that a shell runs in. -/
def processId : String := "4242"

/-- The value of a parameter. -/
def value (sh : Shell) (name : String) : String :=
  match name with
  | "@" | "*" => " ".intercalate sh.args
  | "#" => toString sh.args.length
  | "?" => toString sh.status
  | "$" => processId
  | "0" => sh.name
  | name =>
    match name.toNat? with
    | some n => (sh.args[n - 1]?).getD ""
    | none => (sh.bindings.lookup name).getD ""

/-- Fields under construction: those that are complete, and the open one. -/
structure Fields where
  complete : List String := []
  current : Option String := none

namespace Fields

/-- Adds text to the open field. -/
def add (f : Fields) (text : String) : Fields :=
  { f with current := some (f.current.getD "" ++ text) }

/-- Completes the open field. -/
def close (f : Fields) : Fields :=
  ⟨f.complete ++ f.current.toList, none⟩

/-- Adds texts that are fields of their own, but for the first, which continues the
open field, and the last, which stays open. -/
def addAll (f : Fields) : List String → Fields
  | [] => f
  | [text] => f.add text
  | text :: rest => (f.add text).close.addAll rest

/-- Adds text that is split at blanks. -/
def addSplit (f : Fields) (cs : List Char) : Fields :=
  cs.foldl (fun f c => if c.isWhitespace then f.close else f.add c.toString) f

end Fields

/-- Adds a part of a word to the fields. -/
def expandFragment (sh : Shell) (f : Fields) : Fragment → Fields
  | .text text => f.add text
  | .parameter "@" true => f.addAll sh.args
  | .parameter "@" false => (sh.args.foldl (fun f arg => (f.addSplit arg.toList).close) f)
  | .parameter name true => f.add (sh.value name)
  | .parameter name false => f.addSplit (sh.value name).toList

/-- The fields that a word becomes. -/
def expandWord (sh : Shell) (w : Word) : List String :=
  let f := w.fragments.foldl sh.expandFragment {}
  let listed := w.fragments.contains (.parameter "@" true)
  let fields := f.close.complete
  if fields.isEmpty && w.quoted && !listed then [""] else fields

/-- The fields that words become. -/
def expand (sh : Shell) (ws : List Word) : List String :=
  ws.flatMap sh.expandWord

/-- The text that a word becomes where it is not split. -/
def expandWhole (sh : Shell) (w : Word) : String :=
  String.join (w.fragments.map fun
    | .text text => text
    | .parameter name _ => sh.value name)

/-- The file that takes what is written to it and keeps nothing. -/
def nullDevice : String := "/dev/null"

/-- Sets what a descriptor writes to. -/
def setSink (sh : Shell) (descriptor : Nat) (sink : Sink) : Shell :=
  if descriptor = 1 then { sh with output := sink }
  else if descriptor = 2 then { sh with errors := sink }
  else sh

/-- Opens a file for writing. -/
def openFile (sh : Shell) (append : Bool) (path : String) : Except String (Shell × Sink) :=
  if path = nullDevice then .ok (sh, .nowhere)
  else
    match sh.store.reachFile path with
    | .ok (.found place (.file content executable)) =>
      let store :=
        if append then sh.store.putFile place content executable
        else sh.store.putFile place .empty executable
      .ok ({ sh with store := store }, .file place)
    | .ok (.missing place) =>
      .ok ({ sh with store := sh.store.putFile place .empty false }, .file place)
    | .ok (.found _ _) => .error ("cannot create " ++ path ++ ": Is a directory")
    | .error .noEntry => .error ("cannot create " ++ path ++ ": Directory nonexistent")
    | .error e => .error ("cannot create " ++ path ++ ": " ++ e.description)

/-- Makes a redirection. -/
def redirect (sh : Shell) : Redirection → Except String Shell
  | .toFile descriptor append target => do
    let (sh, sink) ← sh.openFile append (sh.expandWhole target)
    return sh.setSink descriptor sink
  | .toDescriptor descriptor target =>
    .ok (sh.setSink descriptor (if target = 2 then sh.errors else sh.output))
  | .fromFile source =>
    let path := sh.expandWhole source
    if path = nullDevice || sh.store.exists? path then .ok sh
    else .error ("cannot open " ++ path ++ ": No such file")

end Shell

end Autotree.Script
