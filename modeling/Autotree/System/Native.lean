import Autotree.Process.Script.Run

/-!
# Native programs

A native program is a file that starts with a magic number, followed here by the
name of the program: what a file does depends on its content alone, so a copy
does the same.  The module holds the shell and the few utilities that build
scripts call.
-/

namespace Autotree.System

open Script (Launcher)

/-- The bytes that a native program starts with. -/
def magic : ByteArray := ⟨#[0x7F, 0x45, 0x4C, 0x46]⟩

/-- The content of a native program. -/
def image (name : String) : ByteArray :=
  magic ++ name.toUTF8

/-- The name of the native program with a given content. -/
def native? (content : ByteArray) : Option String :=
  if magic.toList.isPrefixOf (content.extract 0 4).toList then
    String.fromUTF8? (content.extract 4 content.size)
  else none

/-- What a native program leaves that prints one text. -/
def finish (s : Store) (code : Nat) (stream : Stream) (bytes : ByteArray) : Finished where
  ending := .exited code
  store := s
  printed := if bytes.isEmpty then [] else [(stream, bytes)]

/-- A complaint of a native program about a path. -/
def complaint (name verb path : String) (e : Errno) : ByteArray :=
  Text.bytes (name ++ ": " ++ verb ++ path ++ ": " ++ e.description ++ "\n")

/-- Runs an operation on each path; what is refused is complained about. -/
def forPaths (name verb : String) (s : Store) (paths : List String)
    (act : Store → String → Except Errno (Store × ByteArray)) : Finished :=
  paths.foldl
    (fun f path =>
      match act f.store path with
      | .ok (store, bytes) =>
        { f with
          store := store
          printed := f.printed ++ if bytes.isEmpty then [] else [(.output, bytes)] }
      | .error e =>
        { f with
          ending := .exited 1
          printed := f.printed ++ [(.errors, complaint name verb path e)] })
    ⟨.exited 0, s, []⟩

/-- Makes sure that a file exists. -/
def touch (s : Store) (path : String) : Except Errno (Store × ByteArray) :=
  if s.exists? path then .ok (s, .empty) else (s.writeFile path .empty).map (·, .empty)

/-- Makes a directory, with its ancestors if asked to. -/
def mkdir (parents : Bool) (s : Store) (path : String) : Except Errno (Store × ByteArray) :=
  match s.makeDir path with
  | .ok s => .ok (s, .empty)
  | .error e =>
    if parents && s.isDir path then .ok (s, .empty)
    else if parents && e = .noEntry then
      let parents := (List.range (Path.components path).length).map fun n =>
        Path.ofComponents ((Path.components path).take (n + 1))
      let s := parents.foldl (fun s dir => (s.makeDir dir).toOption.getD s) s
      if s.isDir path then .ok (s, .empty) else .error e
    else .error e

/-- Removes a file, or anything at all. -/
def rm (recursive force : Bool) (s : Store) (path : String) : Except Errno (Store × ByteArray) :=
  match s.reach false path with
  | .ok (.found place node) =>
    if node.isDir && !recursive then .error .isDirectory else .ok (s.erase place, .empty)
  | .ok (.missing _) => if force then .ok (s, .empty) else .error .noEntry
  | .error e => if force then .ok (s, .empty) else .error e

/-- The letters of leading options, and the other arguments. -/
def options (args : List String) : List Char × List String :=
  let isOption (arg : String) : Bool := arg.toList.head? == some '-' && arg != "-"
  ((args.filter isOption).flatMap fun arg => arg.toList.drop 1, args.filter (!isOption ·))

/-- Runs the shell: a script in an argument, or one in a file; otherwise its
standard input, which is empty. -/
def shell (launch : Launcher) (s : Store) (self : String) : List String → Finished
  | "-c" :: text :: rest =>
    Script.run launch s (rest.head?.getD self) text rest.tail
  | path :: args =>
    match s.content path with
    | .ok content => Script.run launch s path (Text.ofBytes content) args
    | .error _ =>
      finish s 2 .errors (Text.bytes (self ++ ": 0: cannot open " ++ path ++ ": No such file\n"))
  | [] => finish s 0 .output .empty

/-- Runs a native program under the name that it was called by. -/
def runNative (launch : Launcher) (s : Store) (name self : String) (args : List String) :
    Finished :=
  let (letters, rest) := options args
  match name with
  | "sh" => shell launch s self args
  | "cat" =>
    forPaths "cat" "" s rest fun s path => (s.content path).map (s, ·)
  | "touch" => forPaths "touch" "cannot touch " s rest touch
  | "mkdir" => forPaths "mkdir" "cannot create directory " s rest (mkdir (letters.contains 'p'))
  | "rm" =>
    forPaths "rm" "cannot remove " s rest (rm (letters.contains 'r') (letters.contains 'f'))
  | "echo" => finish s 0 .output (Text.bytes (" ".intercalate args ++ "\n"))
  | "printf" => finish s 0 .output (Script.Escape.printf args)
  | "pwd" => finish s 0 .output (Text.bytes (Store.pathOf s.cwd ++ "\n"))
  | "env" =>
    match args with
    | [] => finish s 0 .output .empty
    | program :: args =>
      match launch s program args with
      | .ok f => f
      | .error e => finish s 127 .errors (complaint "env" "" program e)
  | "false" => finish s 1 .output .empty
  | _ => finish s 0 .output .empty

/-- The native programs that a system has. -/
def natives : List String :=
  ["sh", "cat", "touch", "mkdir", "rm", "echo", "printf", "pwd", "env", "true", "false"]

end Autotree.System
