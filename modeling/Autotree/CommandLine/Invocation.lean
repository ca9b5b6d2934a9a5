import Autotree.Progress

/-!
# Invocations

An invocation names one subcommand.  The global options stand before or after its
name; an option after the name wins, the environment comes last.  At each of the
two levels an option is given once at most.  Arguments are read from left to
right, so a request for help or for the version counts only if everything before
it is in order.
-/

namespace Autotree.CommandLine

/-- The name of a subcommand. -/
inductive Name where
  | generate
  | bootstrap
  | build
  | defines
  | clean
  | completions
  | help
deriving DecidableEq, Repr

namespace Name

/-- Every subcommand, in the order of the overview. -/
def all : List Name :=
  [generate, bootstrap, build, defines, clean, completions, help]

/-- The word for a subcommand. -/
def word : Name → String
  | generate => "generate"
  | bootstrap => "bootstrap"
  | build => "build"
  | defines => "defines"
  | clean => "clean"
  | completions => "completions"
  | help => "help"

/-- The subcommand under a word. -/
def ofWord? (text : String) : Option Name :=
  all.find? (·.word == text)

end Name

/-- The shells that completions are made for. -/
def completionShells : List String :=
  ["bash", "elvish", "fish", "powershell", "zsh"]

/-- How defines are printed. -/
inductive DefinesFormat where
  | tokens
  | flags
  | json
deriving DecidableEq, Repr

/-- What is to be done. -/
inductive Task where
  | generate
  | bootstrap
  | build
  | defines (format : DefinesFormat)
  | clean
  | completions (shell : String)
deriving DecidableEq, Repr

/-- A task with the global settings. -/
structure Invocation where
  task : Task
  verbose : Bool
  quiet : Bool
  color : ColorChoice
  manifestPath : Option String
deriving DecidableEq, Repr

/-- Why an invocation is refused. -/
inductive UsageError where
  | unknownArgument (text : String)
  | unknownSubcommand (text : String)
  | missingSubcommand
  | missingValue (option : String)
  | invalidValue (option value : String)
  | unexpectedValue (option value : String)
  | repeated (option : String)
  | conflict (option other : String)
  | missingArgument (name : String)
deriving DecidableEq, Repr

/-- The error in one line. -/
def UsageError.message : UsageError → String
  | unknownArgument text => s!"unexpected argument '{text}' found"
  | unknownSubcommand text => s!"unrecognized subcommand '{text}'"
  | missingSubcommand => "a subcommand is required but one was not provided"
  | missingValue option => s!"a value is required for '{option}' but none was supplied"
  | invalidValue option value => s!"invalid value '{value}' for '{option}'"
  | unexpectedValue option value =>
    s!"unexpected value '{value}' for '{option}' found; no more were expected"
  | repeated option => s!"the argument '{option}' cannot be used multiple times"
  | conflict option other => s!"the argument '{option}' cannot be used with '{other}'"
  | missingArgument name => s!"the required argument '{name}' was not provided"

/-- What ends the reading of arguments without a task. -/
inductive Stop where
  /-- Help is asked for, on a subcommand or on all. -/
  | help (topic : Option Name)
  | version
  | usage (e : UsageError)
deriving DecidableEq, Repr

/-- An option without a value. -/
inductive Switch where
  | verbose
  | quiet
  | json
  | flags
deriving DecidableEq, Repr

/-- An option as it is written. -/
def Switch.word : Switch → String
  | verbose => "--verbose"
  | quiet => "--quiet"
  | json => "--json"
  | flags => "--flags"

/-- What was given at one level. -/
structure Settings where
  switches : List Switch := []
  color : Option ColorChoice := none
  manifestPath : Option String := none
  shell : Option String := none
deriving DecidableEq, Repr

/-- What was read so far: the level before the subcommand and the one after it. -/
structure Reading where
  outer : Settings := {}
  inner : Option (Name × Settings) := none
deriving DecidableEq, Repr

namespace Reading

/-- The level that is being read. -/
def level (p : Reading) : Settings :=
  match p.inner with
  | some (_, level) => level
  | none => p.outer

/-- Replaces the level that is being read. -/
def setLevel (p : Reading) (level : Settings) : Reading :=
  match p.inner with
  | some (name, _) => { p with inner := some (name, level) }
  | none => { p with outer := level }

/-- The subcommand that is being read. -/
def topic (p : Reading) : Option Name :=
  p.inner.map (·.1)

/-- Reads an option without a value. -/
def addSwitch (p : Reading) (switch : Switch) : Except Stop Reading :=
  let level := p.level
  if switch ∈ level.switches then .error (.usage (.repeated switch.word))
  else .ok (p.setLevel { level with switches := level.switches ++ [switch] })

/-- Reads the choice of colors. -/
def setColor (p : Reading) (text : String) : Except Stop Reading :=
  match ColorChoice.ofWord? text, p.level.color with
  | none, _ => .error (.usage (.invalidValue "--color" text))
  | some _, some _ => .error (.usage (.repeated "--color"))
  | some color, none => .ok (p.setLevel { p.level with color })

/-- Reads the path of the manifest. -/
def setManifestPath (p : Reading) (path : String) : Except Stop Reading :=
  if path = "" then .error (.usage (.invalidValue "--manifest-path" path))
  else if p.level.manifestPath.isSome then .error (.usage (.repeated "--manifest-path"))
  else .ok (p.setLevel { p.level with manifestPath := path })

/-- The option without a value under a long name. -/
def switch? (p : Reading) (name : String) : Option Switch :=
  match name with
  | "verbose" => some .verbose
  | "quiet" => some .quiet
  | "json" => if p.topic = some .defines then some .json else none
  | "flags" => if p.topic = some .defines then some .flags else none
  | _ => none

/-- Reads a long option without a value. -/
def readWord (p : Reading) (name : String) (value : Option String) : Except Stop Reading :=
  match p.switch? name, value with
  | some switch, none => p.addSwitch switch
  | some switch, some value => .error (.usage (.unexpectedValue switch.word value))
  | none, none =>
    if name = "help" then .error (.help p.topic)
    else if name = "version" && p.inner.isNone then .error .version
    else .error (.usage (.unknownArgument ("--" ++ name)))
  | none, some _ => .error (.usage (.unknownArgument ("--" ++ name)))

/-- Reads the letters of a group of short options. -/
def readLetters (p : Reading) : List Char → Except Stop Reading
  | [] => .ok p
  | c :: rest =>
    if c = 'v' then do (← p.addSwitch .verbose).readLetters rest
    else if c = 'q' then do (← p.addSwitch .quiet).readLetters rest
    else if c = 'h' then .error (.help p.topic)
    else if c = 'V' && p.inner.isNone then .error .version
    else .error (.usage (.unknownArgument (String.ofList ['-', c])))

/-- The help that the words after `help` ask for. -/
def helpOn : List String → Stop
  | [] => .help none
  | word :: rest =>
    match Name.ofWord? word, rest with
    | some name, [] => .help (some name)
    | some _, other :: _ => .usage (.unknownSubcommand other)
    | none, _ => .usage (.unknownSubcommand word)

/-- Reads an argument that is no option; `escaped` says whether it comes after
`--`. -/
def readOperand (p : Reading) (escaped : Bool) (text : String) (rest : List String) :
    Except Stop Reading :=
  match p.inner with
  | none =>
    match Name.ofWord? text with
    | none => .error (.usage (.unknownSubcommand text))
    | some name =>
      if escaped then .error (.usage (.unknownArgument text))
      else if name = .help then .error (helpOn rest)
      else .ok { p with inner := some (name, {}) }
  | some (name, level) =>
    if name = .completions && level.shell.isNone then
      if completionShells.contains text then .ok (p.setLevel { level with shell := text })
      else .error (.usage (.invalidValue "<SHELL>" text))
    else .error (.usage (.unknownArgument text))

/-- Reads arguments that are no options. -/
def readOperands (p : Reading) : List String → Except Stop Reading
  | [] => .ok p
  | text :: rest => do (← p.readOperand true text rest).readOperands rest

/-- Whether an argument is written as an option. -/
def isOption (arg : String) : Bool :=
  arg.toList.head? == some '-' && arg != "-"

/-- The name of a long option and the value that is joined to it. -/
def splitLong (cs : List Char) : String × Option String :=
  (String.ofList (cs.takeWhile (· != '=')),
    match cs.dropWhile (· != '=') with
    | [] => none
    | _ :: value => some (String.ofList value))

/-- The way to read the value of a long option that takes one. -/
def valued? (name : String) : Option (Reading → String → Except Stop Reading) :=
  match name with
  | "color" => some setColor
  | "manifest-path" => some setManifestPath
  | _ => none

/-- Reads arguments. -/
def read (p : Reading) : List String → Except Stop Reading
  | [] => .ok p
  | arg :: rest =>
    match arg.toList with
    | ['-', '-'] => p.readOperands rest
    | '-' :: '-' :: long =>
      let (name, value) := splitLong long
      match valued? name, value, rest with
      | none, _, rest => do (← p.readWord name value).read rest
      | some set, some value, rest => do (← set p value).read rest
      | some set, none, value :: rest =>
        if isOption value then .error (.usage (.missingValue ("--" ++ name)))
        else do (← set p value).read rest
      | some _, none, [] => .error (.usage (.missingValue ("--" ++ name)))
    | '-' :: c :: letters => do (← p.readLetters (c :: letters)).read rest
    | _ => do (← p.readOperand false arg rest).read rest

end Reading

namespace Settings

/-- Refuses two options that exclude each other. -/
def checkPair (level : Settings) (a b : Switch) : Except Stop Unit :=
  if a ∈ level.switches && b ∈ level.switches then
    .error (.usage (.conflict a.word b.word))
  else .ok ()

/-- Refuses options of one level that exclude each other. -/
def check (level : Settings) : Except Stop Unit := do
  level.checkPair .quiet .verbose
  level.checkPair .flags .json

/-- How the options of a level ask for defines. -/
def format (level : Settings) : DefinesFormat :=
  if .json ∈ level.switches then .json
  else if .flags ∈ level.switches then .flags
  else .tokens

/-- The task of a subcommand with the options after its name. -/
def task (level : Settings) : Name → Except Stop Task
  | .generate => .ok .generate
  | .bootstrap => .ok .bootstrap
  | .build => .ok .build
  | .defines => .ok (.defines level.format)
  | .clean => .ok .clean
  | .completions =>
    match level.shell with
    | some shell => .ok (.completions shell)
    | none => .error (.usage (.missingArgument "<SHELL>"))
  | .help => .error (.help none)

end Settings

/-- Refuses an empty path in the environment, unless both levels set a path. -/
def checkEnvironment (outer inner : Settings) (environment : Option String) : Except Stop Unit :=
  if environment = some "" && !(outer.manifestPath.isSome && inner.manifestPath.isSome) then
    .error (.usage (.invalidValue "--manifest-path" ""))
  else .ok ()

/-- Reads the arguments of an invocation; `environment` is the path of the manifest
that the environment sets. -/
def Invocation.parse (args : List String) (environment : Option String) :
    Except Stop Invocation := do
  let p ← Reading.read {} args
  match p.inner with
  | none => throw (.usage .missingSubcommand)
  | some (name, inner) =>
    let task ← inner.task name
    inner.check
    p.outer.check
    checkEnvironment p.outer inner environment
    let given (switch : Switch) : Bool := switch ∈ inner.switches ++ p.outer.switches
    return {
      task
      verbose := given .verbose
      quiet := given .quiet
      color := (inner.color <|> p.outer.color).getD .auto
      manifestPath := inner.manifestPath <|> p.outer.manifestPath <|> environment }

end Autotree.CommandLine
