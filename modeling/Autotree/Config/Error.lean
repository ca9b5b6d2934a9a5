import Autotree.Diagnostic

/-!
# Errors of the configuration

The causes for which an option schema, a configuration file or a resolved value
is refused.  The wording of a cause is in `message`; `diagnostic` adds what the
user can do about it.
-/

namespace Autotree

/-- Why a schema or a configuration is refused. -/
inductive ConfigError where
  | malformedLine (lineNo : Nat) (line : String)
  | unknownKey (key : String)
  | missingValue (key : String)
  | unmappedValue (key value : String)
  | unsupportedType (key type : String)
  | invalidValue (key value expected : String)
  | duplicateOption (key : String)
  | mapNotAllowed (key : String)
deriving DecidableEq, Repr

namespace ConfigError

/-- The error in one line. -/
def message : ConfigError → String
  | malformedLine lineNo line => s!"failed to parse line {lineNo}: `{line}`"
  | unknownKey key => s!"cannot find the definition of `{key}`"
  | missingValue key => s!"`{key}` is not set"
  | unmappedValue key value => s!"`{key}` has no mapping for value `{value}`"
  | unsupportedType key type => s!"invalid type `{type}` for `{key}`"
  | invalidValue key value expected => s!"invalid value `{value}` for `{key}`: expected {expected}"
  | duplicateOption key => s!"option `{key}` is declared more than once"
  | mapNotAllowed key => s!"option `{key}` declares a value map, but only `int` options may"

/-- The error with its context and suggestions. -/
def diagnostic (e : ConfigError) : Diagnostic :=
  let d : Diagnostic := ⟨e.message, [], []⟩
  match e with
  | malformedLine _ _ =>
    { d with
      context := ["each line must have the form KEY=VALUE with a single `=`",
        "`=` inside a trailing `#` comment counts too"]
      suggestions := ["Remove the extra `=` characters from the line"] }
  | unknownKey key =>
    { d with
      context := [s!"`{key}` is not declared as an [[option]]"]
      suggestions := [Diagnostic.declareOption] }
  | missingValue key =>
    { d with
      context := [s!"`{key}` has no value in the config file and no default"]
      suggestions := [s!"Set `{key}=...` in the config file",
        "Add a `default` to the option in Amgen.toml"] }
  | unmappedValue key value =>
    { d with
      context := [s!"`{key}` only accepts values listed in its `map`"]
      suggestions := [s!"Add `{value} = \"...\"` to the map of `{key}`"] }
  | unsupportedType _ _ =>
    { d with suggestions := ["Use one of the supported option types: bool, str, int"] }
  | invalidValue _ _ _ => d
  | duplicateOption _ =>
    { d with suggestions := ["Option names are case-insensitive; remove one of them"] }
  | mapNotAllowed key =>
    { d with suggestions := [s!"Change `{key}` to `type = \"int\"` or drop its map"] }

end ConfigError

end Autotree
