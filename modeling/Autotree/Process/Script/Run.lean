import Autotree.Process.Script.Builtin
import Autotree.Process.Script.Reader

/-!
# Running scripts

A script runs command by command until it ends or a command ends the shell.  A
command that the shell does not know is left to a `Launcher`.  Running is by
recursion on the script: the shell has no loop but the one over given words.
-/

namespace Autotree.Script

/-- Starts a program by its name and arguments. -/
abbrev Launcher := Store → String → List String → Except Errno Finished

/-- A character of a variable's name. -/
def isVariable (name : List Char) : Bool :=
  match name with
  | [] => false
  | c :: rest => isNameChar c && !c.isDigit && rest.all isNameChar

/-- The assignment that a word makes in front of a command. -/
def assignment? (w : Word) : Option (String × Word) :=
  match w.fragments with
  | .text t :: rest =>
    let name := t.toList.takeWhile (· != '=')
    match t.toList.dropWhile (· != '=') with
    | _ :: value =>
      if isVariable name then
        some (String.ofList name, ⟨.text (String.ofList value) :: rest, true⟩)
      else none
    | [] => none
  | _ => none

/-- Makes assignments. -/
def assign (sh : Shell) (assignments : List (String × Word)) : Shell :=
  assignments.foldl
    (fun sh (name, w) =>
      let value := sh.expandWhole w
      { sh with bindings := (name, value) :: sh.bindings.filter (·.1 != name) })
    sh

/-- What a shell goes on with after a program that it started. -/
def absorb (sh : Shell) (f : Finished) : Shell :=
  let sh := { sh with store := f.store.enter sh.store.cwd, status := f.ending.number }
  f.printed.foldl (fun sh (stream, bytes) => sh.write (sh.sink stream) bytes) sh

/-- Runs a command with its fields. -/
def runFields (launch : Launcher) (sh : Shell) (name : String) (args : List String) : Ran :=
  match builtin? name with
  | some run => run sh args
  | none =>
    match launch sh.store name args with
    | .ok f => (absorb sh f, none)
    | .error .noEntry => (sh.complain 127 (name ++ ": not found"), none)
    | .error e => (sh.complain 126 (name ++ ": " ++ e.description), none)

/-- Runs a simple command: its redirections hold for it alone. -/
def runSimple (launch : Launcher) (ws : List Word) (rs : List Redirection) (sh : Shell) : Ran :=
  let leading := ws.takeWhile fun w => (assignment? w).isSome
  let fields := sh.expand (ws.drop leading.length)
  match rs.foldlM Shell.redirect sh with
  | .error text => (sh.complain 2 text, none)
  | .ok inner =>
    match fields with
    | [] => goOn (assign { inner with output := sh.output, errors := sh.errors }
        (leading.filterMap assignment?)) 0
    | name :: args =>
      let (after, ending) := runFields launch inner name args
      ({ after with output := sh.output, errors := sh.errors }, ending)

/-- Runs a body once for each value of a variable. -/
def runEach (body : Shell → Ran) (name : String) : List String → Shell → Ran
  | [], sh => (sh, none)
  | value :: rest, sh =>
    let bindings := (name, value) :: sh.bindings.filter (·.1 != name)
    match body { sh with bindings := bindings } with
    | (sh, none) => runEach body name rest sh
    | ended => ended

/-- Runs a command of a script. -/
def Program.run (launch : Launcher) : Program → Shell → Ran
  | .skip, sh => (sh, none)
  | .simple ws rs, sh => runSimple launch ws rs sh
  | .seq first second, sh =>
    match first.run launch sh with
    | (sh, none) => second.run launch sh
    | ended => ended
  | .both first second, sh =>
    match first.run launch sh with
    | (sh, none) => if sh.status = 0 then second.run launch sh else (sh, none)
    | ended => ended
  | .either first second, sh =>
    match first.run launch sh with
    | (sh, none) => if sh.status = 0 then (sh, none) else second.run launch sh
    | ended => ended
  | .each name ws body, sh =>
    runEach (body.run launch) name (sh.expand ws) { sh with status := 0 }
  | .branch condition yes no, sh =>
    match condition.run launch sh with
    | (sh, none) => if sh.status = 0 then yes.run launch sh else no.run launch sh
    | ended => ended

/-- Runs the text of a script under a name, with arguments. -/
def run (launch : Launcher) (store : Store) (name text : String) (args : List String) :
    Finished :=
  let sh : Shell := { store, name, args }
  match parse? text with
  | none =>
    let sh := sh.complain 2 "Syntax error"
    { ending := .exited 2, store := sh.store, printed := sh.printed }
  | some program =>
    let (sh, ending) := program.run launch sh
    { ending := ending.getD (.exited sh.status), store := sh.store, printed := sh.printed }

end Autotree.Script
