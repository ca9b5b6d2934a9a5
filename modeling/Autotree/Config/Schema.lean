import Autotree.Config.Error
import Autotree.Text.Blank
import Autotree.Text.LetterCase

/-!
# Option schemas

A schema lists the options that a configuration may set, in declaration order;
that order is the order in which defines are emitted.  No two options of a
schema have the same name: the type carries the proof, and `Schema.ofList`
names the first option that repeats a name.
-/

namespace Autotree

/-- The kind of an option, with what only that kind has. -/
inductive OptionKind where
  /-- Defined as a bare symbol when the value is true or a non-zero integer. -/
  | flag
  /-- Defined as a quoted string. -/
  | text
  /-- Defined as an integer, or as a literal that the value map assigns. -/
  | integer (map : Option (List (String × String)))
deriving DecidableEq, Repr

namespace OptionKind

/-- The word for the kind in a manifest. -/
def word : OptionKind → String
  | flag => "bool"
  | text => "str"
  | integer _ => "int"

/-- The kind for a word of a manifest, without a value map. -/
def ofWord? (word : String) : Option OptionKind :=
  if word = "bool" then some flag
  else if word = "str" then some text
  else if word = "int" then some (integer none)
  else none

end OptionKind

/-- An option that a configuration may set. -/
structure OptionSpec where
  name : String
  kind : OptionKind
  /-- The value of the option where the configuration does not set it. -/
  fallback : Option String := none
deriving DecidableEq, Repr

/-- The name under which an option is known: trimmed and in uppercase. -/
def OptionSpec.canonicalName (name : String) : String :=
  Text.upper (Text.trim name)

/-- The options of a configuration, in declaration order. -/
structure Schema where
  options : List OptionSpec
  names_nodup : (options.map (·.name)).Nodup := by decide
deriving DecidableEq, Repr

namespace Schema

/-- The first name in a list that occurs before its place. -/
def firstRepeated? : List String → List String → Option String
  | _, [] => none
  | seen, name :: rest =>
    if name ∈ seen then some name else firstRepeated? (name :: seen) rest

theorem nodup_of_firstRepeated?_eq_none {names seen : List String}
    (h : firstRepeated? seen names = none) :
    names.Nodup ∧ ∀ name ∈ names, name ∉ seen := by
  induction names generalizing seen with
  | nil => simp
  | cons name rest ih =>
    simp only [firstRepeated?] at h
    split at h
    · cases h
    · next hseen =>
      obtain ⟨hnodup, hdisjoint⟩ := ih h
      refine ⟨List.nodup_cons.2 ⟨fun hmem => ?_, hnodup⟩, ?_⟩
      · exact hdisjoint name hmem (List.mem_cons_self ..)
      · intro other hother
        rcases List.mem_cons.1 hother with rfl | hother
        · exact hseen
        · exact fun hmem => hdisjoint other hother (List.mem_cons_of_mem _ hmem)

/-- The schema of a list of options, unless a name repeats. -/
def ofList (options : List OptionSpec) : Except ConfigError Schema :=
  match h : firstRepeated? [] (options.map (·.name)) with
  | none => .ok ⟨options, (nodup_of_firstRepeated?_eq_none h).1⟩
  | some name => .error (.duplicateOption name)

/-- The option with a given name. -/
def get? (schema : Schema) (name : String) : Option OptionSpec :=
  schema.options.find? (·.name == name)

/-- Whether the schema has an option with a given name. -/
def contains (schema : Schema) (name : String) : Bool :=
  (schema.get? name).isSome

/-- The number of options. -/
def size (schema : Schema) : Nat :=
  schema.options.length

end Schema

end Autotree
