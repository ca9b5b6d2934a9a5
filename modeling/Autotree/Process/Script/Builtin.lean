import Autotree.Number.Integer
import Autotree.Process.Script.Escape
import Autotree.Process.Script.Shell

/-!
# The commands of the shell itself

Each takes the shell and its arguments and gives the shell back, with the ending
of the shell if the command ends it.
-/

namespace Autotree.Script

/-- A shell, with its ending if it ended. -/
abbrev Ran := Shell × Option Ending

/-- A shell that goes on with a status. -/
def goOn (sh : Shell) (status : Nat) : Ran :=
  ({ sh with status := status }, none)

namespace Builtin

/-- The number of a signal. -/
def signal? (name : String) : Option Nat :=
  match name with
  | "HUP" => some 1
  | "INT" => some 2
  | "QUIT" => some 3
  | "ABRT" => some 6
  | "KILL" => some 9
  | "PIPE" => some 13
  | "TERM" => some 15
  | name => name.toNat?

/-- Whether a signal ends a process that does not handle it. -/
def isFatal (signal : Nat) : Bool :=
  signal != 0 && !([17, 18, 23, 28].contains signal)

/-- Sends a signal to a process; only the shell itself can be reached. -/
def send (sh : Shell) (signal : Nat) (target : String) : Ran :=
  if target = Shell.processId then
    if isFatal signal then (sh, some (.killed signal)) else goOn sh 0
  else (sh.complain 1 "kill: No such process", none)

/-- `kill` -/
def kill (sh : Shell) (args : List String) : Ran :=
  match args with
  | ["-s", name, target] => send sh ((signal? name).getD 0) target
  | [option, target] =>
    match option.toList with
    | '-' :: name => send sh ((signal? (String.ofList name)).getD 0) target
    | _ => send sh 15 target
  | [target] => send sh 15 target
  | _ => (sh.complain 2 "kill: Usage: kill [-s sigspec] pid", none)

/-- `exit` -/
def exit (sh : Shell) (args : List String) : Ran :=
  match args.head? with
  | none => (sh, some (.exited sh.status))
  | some arg =>
    match arg.toNat? with
    | some n => (sh, some (.exited (n % 256)))
    | none => (sh.complain 2 ("exit: Illegal number: " ++ arg), some (.exited 2))

/-- `cd` -/
def cd (sh : Shell) (args : List String) : Ran :=
  let dir := args.head?.getD "/"
  match sh.store.locate dir with
  | .ok (place, .dir _) => goOn { sh with store := sh.store.enter place } 0
  | _ => (sh.complain 2 ("cd: can't cd to " ++ dir), none)

/-- `shift` -/
def shift (sh : Shell) (args : List String) : Ran :=
  let n := (args.head?.bind (·.toNat?)).getD 1
  if n ≤ sh.args.length then goOn { sh with args := sh.args.drop n } 0
  else (sh.complain 2 "shift: can't shift that many", some (.exited 2))

/-- Whether a primary of `test` holds. -/
def primary (s : Store) : List String → Option Bool
  | [] => some false
  | [text] => some (text != "")
  | ["-n", text] => some (text != "")
  | ["-z", text] => some (text = "")
  | ["-e", path] => some (s.exists? path)
  | ["-f", path] => some (s.isFile path)
  | ["-d", path] => some (s.isDir path)
  | ["-s", path] => some ((s.content path).toOption.any (0 < ·.size))
  | ["-x", path] =>
    some (match s.locate path with
      | .ok (_, .file _ executable) => executable
      | .ok (_, .dir _) => true
      | _ => false)
  | [a, "=", b] => some (a = b)
  | [a, "!=", b] => some (a != b)
  | [a, "-eq", b] => (a.toInt?).bind fun m => b.toInt?.map (m == ·)
  | [a, "-ne", b] => (a.toInt?).bind fun m => b.toInt?.map (m != ·)
  | [a, "-gt", b] => (a.toInt?).bind fun m => b.toInt?.map (· < m)
  | [a, "-lt", b] => (a.toInt?).bind fun m => b.toInt?.map (m < ·)
  | _ => none

/-- `test` -/
def test (sh : Shell) (args : List String) : Ran :=
  let outcome :=
    match args with
    | "!" :: rest => (primary sh.store rest).map not
    | args => primary sh.store args
  match outcome with
  | some true => goOn sh 0
  | some false => goOn sh 1
  | none => (sh.complain 2 "test: unexpected operator", none)

end Builtin

open Builtin in
/-- The command of the shell itself under a name. -/
def builtin? (name : String) : Option (Shell → List String → Ran) :=
  match name with
  | ":" | "true" => some fun sh _ => goOn sh 0
  | "false" => some fun sh _ => goOn sh 1
  | "echo" => some fun sh args => goOn (sh.print (Escape.echo args)) 0
  | "printf" => some fun sh args => goOn (sh.print (Escape.printf args)) 0
  | "pwd" => some fun sh _ => goOn (sh.print (Text.bytes (Store.pathOf sh.store.cwd ++ "\n"))) 0
  | "cd" => some cd
  | "exit" => some exit
  | "kill" => some kill
  | "shift" => some shift
  | "test" => some test
  | "[" => some fun sh args =>
    if args.getLast? = some "]" then test sh args.dropLast
    else (sh.complain 2 "[: missing ]", none)
  | _ => none

end Autotree.Script
