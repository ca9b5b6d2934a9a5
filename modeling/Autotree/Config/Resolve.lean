import Autotree.Config.Entry
import Autotree.Config.Schema

/-!
# Resolution

Resolving a configuration gives every option of the schema a value: that of the
last entry for its name, or else its fallback.  A key that the schema does not
know is refused before any value is looked at; among options without a value the
first in schema order is reported.
-/

namespace Autotree

/-- An option with its value. -/
structure Argument where
  name : String
  kind : OptionKind
  value : String
deriving DecidableEq, Repr

/-- Every option of a schema with its value, in schema order. -/
structure Resolved where
  arguments : List Argument
deriving DecidableEq, Repr

namespace Resolved

/-- The value of an option. -/
def value? (resolved : Resolved) (name : String) : Option String :=
  (resolved.arguments.find? (·.name == name)).map (·.value)

/-- The number of options. -/
def size (resolved : Resolved) : Nat :=
  resolved.arguments.length

end Resolved

namespace Schema

/-- The value that the last entry for a name assigns. -/
def assigned? (entries : List Entry) (name : String) : Option String :=
  (entries.reverse.find? (·.key == name)).map (·.value)

/-- An option with its value among the entries. -/
def argument (entries : List Entry) (option : OptionSpec) : Except ConfigError Argument :=
  match assigned? entries option.name, option.fallback with
  | some value, _ => .ok ⟨option.name, option.kind, value⟩
  | none, some value => .ok ⟨option.name, option.kind, value⟩
  | none, none => .error (.missingValue option.name)

/-- Gives every option of the schema its value. -/
def resolve (schema : Schema) (entries : List Entry) : Except ConfigError Resolved :=
  match entries.find? (!schema.contains ·.key) with
  | some entry => .error (.unknownKey entry.key)
  | none => do
    let arguments ← schema.options.mapM (argument entries)
    return ⟨arguments⟩

/-- The options that take their fallback, with it, up to the first option that
has no value; none when a key is unknown. -/
def fallbacksUsed (schema : Schema) (entries : List Entry) : List (String × String) :=
  match entries.find? (!schema.contains ·.key) with
  | some _ => []
  | none =>
    let reached := schema.options.takeWhile fun option =>
      (assigned? entries option.name).isSome || option.fallback.isSome
    reached.filterMap fun option =>
      if (assigned? entries option.name).isSome then none
      else option.fallback.map (option.name, ·)

end Schema

end Autotree
