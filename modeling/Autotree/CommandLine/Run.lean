import Autotree.CommandLine.Help
import Autotree.System.Local
import Autotree.Text.Quoted

/-!
# Running the command

A run executes one invocation against a file store and ends with an exit code and
what it printed: its result on the standard output; log lines, progress, the
output of loud steps and at last the diagnostic on the standard error stream.
-/

namespace Autotree.CommandLine

/-- What a run of the command leaves. -/
structure Run where
  exitCode : Nat
  output : ByteArray
  errors : ByteArray
  store : Store

/-- Where the command runs. -/
structure Environment where
  system : System
  /-- The path of the manifest that the environment sets. -/
  manifestPath : Option String := none
  /-- Whether the standard error stream is a terminal. -/
  terminal : Bool := false

/-- Reports progress on a task. -/
def say (reporter : Reporter) (status : Status) (message : String) : Action Unit :=
  match reporter.line? status message with
  | some line => Action.emit (.reported line)
  | none => return

/-- Prints a text on the standard output. -/
def print (text : String) : Action Unit :=
  Action.emit (.printed .output text.toUTF8)

/-- Finds and reads the manifest of an invocation. -/
def loadManifest (cwd : String) (explicit : Option String) : Action Manifest := do
  let path ← Action.ofExcept id (Manifest.find (← get).store cwd explicit)
  Action.log .debug ("using manifest " ++ Text.shown path)
  Action.onStore (Manifest.load path)

/-- Runs the pipeline up to a stage. -/
def runPipeline (env : Environment) (reporter : Reporter) (m : Manifest) (last : Stage) :
    Action BuildTree.Generation :=
  Pipeline.run ⟨env.system.runner, env.system.host, reporter⟩ m last

/-- Lists defines in a format. -/
def listing (format : DefinesFormat) (defines : List Define) : String :=
  match format with
  | .json => Text.Quoted.array (defines.map Define.token) ++ "\n"
  | .flags => String.join (defines.map fun d => d.flag ++ "\n")
  | .tokens => String.join (defines.map fun d => d.token ++ "\n")

/-- A path as the user sees it, relative to a directory. -/
def seenFrom (dir path : String) : String :=
  Text.shown (Path.relative dir path)

/-- Carries out a task. -/
def perform (env : Environment) (i : Invocation) (reporter : Reporter) (cwd : String) :
    Action Unit := do
  match i.task with
  | .generate =>
    let m ← loadManifest cwd i.manifestPath
    let g ← runPipeline env reporter m .generate
    let n := g.layout.units.length
    let noun := if n = 1 then "library" else "libraries"
    say reporter .created s!"{seenFrom cwd g.dir} ({n} {noun})"
  | .bootstrap =>
    let m ← loadManifest cwd i.manifestPath
    let g ← runPipeline env reporter m .bootstrap
    say reporter .finished
      s!"bootstrapped {seenFrom cwd g.dir}; run ./configure && make there"
  | .build =>
    let m ← loadManifest cwd i.manifestPath
    let start := (← get).clock
    let g ← runPipeline env reporter m .build
    let elapsed := (← get).clock.since start
    let program := seenFrom cwd (Path.join g.dir g.project.name)
    say reporter .finished s!"`{g.project.name}` -> {program} in {elapsed.text}"
  | .defines format =>
    let m ← loadManifest cwd i.manifestPath
    print (listing format (← BuildTree.resolveDefines m))
  | .clean =>
    let m ← loadManifest cwd i.manifestPath
    match ← BuildTree.clean m with
    | some dir => say reporter .removed (seenFrom cwd dir)
    | none => say reporter .skipped "nothing to clean"
  | .completions shell => print ("# " ++ shell ++ " completions of " ++ programName ++ "\n")

/-- A failure as the user sees it. -/
def complaint (useColor : Bool) (e : Failure) : String :=
  match e.diagnostic? with
  | some d => d.format useColor
  | none => "error: " ++ ": ".intercalate e.chain ++ "\n"

/-- The word for the level of a log line, aligned to the right. -/
def levelWord : Level → String
  | .debug => "DEBUG"
  | .info => " INFO"
  | .warn => " WARN"

/-- Whether log lines of a level are shown. -/
def isShown (i : Invocation) : Level → Bool
  | .debug => i.verbose
  | .info => i.verbose || !i.quiet
  | .warn => i.verbose || !i.quiet

/-- A character of a log line.  One that could steer a terminal is shown by its number;
line feeds and tabs stay. -/
def logChar (c : Char) : List Char :=
  let digits := Nat.toDigits 16 c.toNat
  if [7, 8, 12, 27, 127].contains c.toNat then
    ['\\', 'x'] ++ List.replicate (2 - digits.length) '0' ++ digits
  else if 128 ≤ c.toNat ∧ c.toNat < 160 then ['\\', 'u', '\x7b'] ++ digits ++ ['\x7d']
  else [c]

/-- A log line. -/
def logLine (level : Level) (text : String) : String :=
  levelWord level ++ " " ++ String.ofList (text.toList.flatMap logChar) ++ "\n"

/-- What an event adds to the standard error stream. -/
def errorText (i : Invocation) : Event → ByteArray
  | .logged level text =>
    if isShown i level then (logLine level text).toUTF8 else .empty
  | .reported line => (line ++ "\n").toUTF8
  | .printed .errors bytes => bytes
  | _ => .empty

/-- Runs an invocation in the working directory of a store. -/
def runInvocation (env : Environment) (i : Invocation) (s : Store) : Run :=
  let reporter := Reporter.ofFlags i.quiet i.verbose i.color env.terminal
  let (result, m) := (perform env i reporter (Store.pathOf s.cwd)).run { store := s }
  let errors := m.trace.foldl (fun bytes event => bytes ++ errorText i event) .empty
  let output := Machine.printed .output m.trace
  match result with
  | .ok () => ⟨0, output, errors, m.store⟩
  | .error e => ⟨1, output, errors ++ (complaint reporter.useColor e).toUTF8, m.store⟩

/-- Runs the command with its arguments. -/
def run (env : Environment) (args : List String) (s : Store) : Run :=
  match Invocation.parse args env.manifestPath with
  | .ok i => runInvocation env i s
  | .error (.help topic) => ⟨0, (helpText topic env.manifestPath).toUTF8, .empty, s⟩
  | .error .version => ⟨0, versionText.toUTF8, .empty, s⟩
  | .error (.usage e) =>
    let hint := "\nFor more information, try '--help'.\n"
    ⟨2, .empty, ("error: " ++ e.message ++ "\n" ++ hint).toUTF8, s⟩

end Autotree.CommandLine
