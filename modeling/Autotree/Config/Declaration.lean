import Autotree.Config.Schema
import Autotree.Toml.Printer

/-!
# Option declarations

A manifest declares an option by a name, the word for its kind, and perhaps a
fallback and a value map of TOML scalars.  `Declaration.spec` turns a
declaration into an option; a bad literal of the map is reported before an
unknown kind, that before a map where none may be, and that before a bad
fallback.
-/

namespace Autotree

/-- An option as a manifest declares it; the map is in ascending key order. -/
structure Declaration where
  name : String
  type : String
  fallback : Option Toml.Value := none
  map : Option (List (String × Toml.Value)) := none

namespace Declaration

/-- The form that a scalar has in a configuration file. -/
def scalar (key : String) : Toml.Value → Except ConfigError String
  | .string s => .ok s
  | .integer n => .ok (toString n)
  | .boolean b => .ok (if b then "1" else "0")
  | v => .error (.invalidValue key v.text "a string, integer or boolean")

/-- A value map with one more literal, which replaces one under the same key. -/
def addLiteral (map : List (String × String)) (key literal : String) : List (String × String) :=
  map.filter (·.1 != key) ++ [(key, literal)]

/-- The value map of a declaration: keys are trimmed, a later one wins. -/
def literals (name : String) (map : List (String × Toml.Value)) :
    Except ConfigError (List (String × String)) :=
  map.foldlM
    (fun literals (key, v) => do return addLiteral literals (Text.trim key) (← scalar name v)) []

/-- The kind of an option, once its value map is known. -/
def kind (name type : String) (map : Option (List (String × String))) :
    Except ConfigError OptionKind :=
  match OptionKind.ofWord? (Text.lowerAscii (Text.trim type)), map with
  | none, _ => .error (.unsupportedType name type)
  | some (.integer _), map => .ok (.integer map)
  | some _, some _ => .error (.mapNotAllowed name)
  | some kind, none => .ok kind

/-- The option that a declaration declares. -/
def spec (d : Declaration) : Except ConfigError OptionSpec := do
  let name := OptionSpec.canonicalName d.name
  let map ← d.map.mapM (literals name)
  let kind ← kind name d.type map
  let fallback ← d.fallback.mapM (scalar name)
  return ⟨name, kind, fallback⟩

end Declaration

/-- The schema that declarations make, in declaration order. -/
def Schema.ofDeclarations (ds : List Declaration) : Except ConfigError Schema := do
  Schema.ofList (← ds.mapM Declaration.spec)

end Autotree
