import Autotree.System.Native
import Autotree.Store.Action

/-!
# The system that runs programs

A program given with a slash is the file at that path; a bare name is searched
for in the directories of the search path.  An executable file is a script, which
names its interpreter in its first line, or a native program; anything else is
refused.  Programs that start each other are followed to a fixed depth.
-/

namespace Autotree

/-- What a system knows apart from its files. -/
structure System where
  /-- The directories in which programs are searched for. -/
  searchPath : List String
deriving DecidableEq, Repr

namespace System

/-- The number of programs that may wait for one another. -/
def depthLimit : Nat := 64

/-- The interpreter that a script names in its first line, with the one argument
that may follow. -/
def interpreter? (content : ByteArray) : Option (String × List String) :=
  match (Text.ofBytes content).toList with
  | '#' :: '!' :: rest =>
    let isGap (c : Char) : Bool := c == ' ' || c == '\t'
    let line := (rest.takeWhile (· != '\n')).dropWhile isGap
    let argument := (line.dropWhile (!isGap ·)).dropWhile isGap
    let argument := (argument.reverse.dropWhile isGap).reverse
    some (String.ofList (line.takeWhile (!isGap ·)),
      if argument.isEmpty then [] else [String.ofList argument])
  | _ => none

/-- A name that is a path, and is not searched for. -/
def isPath (name : String) : Bool :=
  name.toList.contains '/'

/-- The outcome of the first program that can be started; one that may not be run is
reported only if no other is found. -/
def firstStarted (start : String → Except Errno Finished) :
    Bool → List String → Except Errno Finished
  | denied, [] => .error (if denied then .denied else .noEntry)
  | denied, path :: rest =>
    match start path with
    | .error .denied => firstStarted start true rest
    | .error .noEntry => firstStarted start denied rest
    | .error .notDirectory => firstStarted start denied rest
    | outcome => outcome

/-- Starts a program by name, given how the file at a path is started. -/
def startByName (sys : System) (start : String → Except Errno Finished) (name : String) :
    Except Errno Finished :=
  if name = "" then .error .noEntry
  else if isPath name then start name
  else firstStarted start false (sys.searchPath.map (Path.join · name))

/-- Starts the file at a path, under the name that the program was called by. -/
def startFile (sys : System) :
    Nat → Store → String → List String → String → Except Errno Finished
  | 0, _, _, _, _ => .error .linkLoop
  | depth + 1, s, self, args, path =>
    match s.locate path with
    | .error e => .error e
    | .ok (_, .file content executable) =>
      let launch : Script.Launcher := fun s name args =>
        sys.startByName (sys.startFile depth s name args) name
      if !executable then .error .denied
      else
        match interpreter? content, native? content with
        | some (program, argument), _ =>
          if program = "" then .error .execFormat
          else sys.startFile depth s program (argument ++ path :: args) program
        | none, some name => .ok (runNative launch s name self args)
        | none, none => .error .execFormat
    | .ok (_, _) => .error .denied

/-- Starts a program in the working directory of a store. -/
def start (sys : System) (s : Store) (name : String) (args : List String) :
    Except Errno Finished :=
  sys.startByName (sys.startFile depthLimit s name args) name

/-- The store seen from the directory that a command asks for. -/
def enterFor (s : Store) : Option String → Except Errno Store
  | none => .ok s
  | some dir =>
    match s.locate dir with
    | .error e => .error e
    | .ok (place, .dir _) => .ok (s.enter place)
    | .ok (_, _) => .error .notDirectory

/-- Runs a command to its end. -/
def run (sys : System) (s : Store) (c : Command) : Except Errno Finished := do
  let inner ← enterFor s c.cwd
  let f ← sys.start inner c.resolvedProgram c.args
  return { f with store := f.store.enter s.cwd }

/-- Whether a path leads to a regular file that may be run. -/
def isExecutable (s : Store) (path : String) : Bool :=
  match s.locate path with
  | .ok (_, .file _ executable) => executable
  | _ => false

/-- The path of a program: the name itself, seen from the working directory, when it
has several components, or the first match on the search path. -/
def findTool (sys : System) (s : Store) (name : String) : Option String :=
  let cs := Path.components name
  if 1 < cs.length then
    let path :=
      if Path.isAbsolute name then name
      else Path.join (Store.pathOf s.cwd) (Path.ofComponents (Path.dropHere cs))
    if isExecutable s path then some path else none
  else (sys.searchPath.map (Path.join · name)).find? (isExecutable s)

/-- The directory that holds the native programs. -/
def nativeDir : Place := ["usr", "bin"]

/-- A store with nothing but the native programs of a system and the link to the
working directory. -/
def baseStore : Store :=
  let dirs : List Place := [["tmp"], ["work"], ["usr"], nativeDir, ["proc"], ["proc", "self"]]
  let s := (dirs.foldl Store.putDir .empty).enter []
  let s := s.putLink ["bin"] "usr/bin"
  natives.foldl (fun s name => s.putFile (nativeDir ++ [name]) (image name) true) s

/-- The search path of a system that was given no other. -/
def defaultSearchPath : List String := ["/usr/local/bin", "/usr/bin", "/bin"]

end System

end Autotree
