import Autotree.CommandLine.Invocation

/-!
# Help

The help on all subcommands or on one: what it does, how it is called, and its
arguments and options, each described in a column of its own.
-/

namespace Autotree.CommandLine

/-- The name of the program. -/
def programName : String := "amgen"

/-- What `--version` prints. -/
def versionText : String := programName ++ " 0.1.0\n"

/-- The environment variable that sets the path of the manifest. -/
def manifestVariable : String := "AMGEN_MANIFEST_PATH"

/-- What a subcommand does. -/
def Name.about : Name → String
  | .generate => "Resolve the config and write configure.ac and Makefile.am"
  | .bootstrap => "Generate, then run the autotools chain"
  | .build => "Generate, bootstrap, then run ./configure and make"
  | .defines => "Print the resolved preprocessor defines"
  | .clean => "Remove the build directory"
  | .completions => "Generate shell completions"
  | .help => "Print this message or the help of the given subcommand(s)"

/-- Lines in two columns, the first as wide as its widest entry. -/
def columns (rows : List (String × String)) : String :=
  let width := (rows.map fun (left, _) => left.length).foldl max 0
  String.join (rows.map fun (left, right) =>
    "  " ++ left ++ String.ofList (List.replicate (width - left.length) ' ') ++ "  " ++
      right ++ "\n")

/-- The options that every subcommand has, with those of its own in between. -/
def optionRows (topic : Option Name) (environment : Option String) : List (String × String) :=
  let own (row : String × String) := if topic = some .defines then [row] else []
  let path := manifestVariable ++ "=" ++ environment.getD ""
  own ("    --json", "Print as a JSON array") ++
    [("-v, --verbose", "Enable verbose output")] ++
    own ("    --flags", "Print as compiler flags (-DNAME) instead of bare tokens") ++
    [("-q, --quiet", "Print only errors"),
      ("    --color <WHEN>", "Coloring: auto, always, never [default: auto]"),
      ("    --manifest-path <PATH>", "Path to Amgen.toml [env: " ++ path ++ "]"),
      ("-h, --help", "Print help")] ++
    if topic.isNone then [("-V, --version", "Print version")] else []

/-- The positional arguments of a subcommand. -/
def argumentRows : Name → List (String × String)
  | .completions =>
    [("<SHELL>", "Shell to generate completions for [possible values: " ++
      ", ".intercalate completionShells ++ "]")]
  | .help => [("[COMMAND]...", "Print help for the subcommand(s)")]
  | _ => []

/-- The help on all subcommands. -/
def overview (environment : Option String) : String :=
  "Bootstrap an autotools build tree for a C project from a single config file\n\nUsage: " ++
    programName ++ " [OPTIONS] <COMMAND>\n\nCommands:\n" ++
    columns (Name.all.map fun name => (name.word, name.about)) ++
    "\nOptions:\n" ++ columns (optionRows none environment)

/-- The help on a subcommand. -/
def helpOn (name : Name) (environment : Option String) : String :=
  let arguments := argumentRows name
  let options := if name = .help then "" else " [OPTIONS]"
  name.about ++ "\n\nUsage: " ++ programName ++ " " ++ name.word ++ options ++
    String.join (arguments.map fun (argument, _) => " " ++ argument) ++ "\n" ++
    (if arguments.isEmpty then "" else "\nArguments:\n" ++ columns arguments) ++
    if name = .help then ""
    else "\nOptions:\n" ++ columns (optionRows (some name) environment)

/-- The help that was asked for. -/
def helpText (topic : Option Name) (environment : Option String) : String :=
  match topic with
  | none => overview environment
  | some name => helpOn name environment

end Autotree.CommandLine
