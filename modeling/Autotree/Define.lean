import Autotree.Config.Resolve
import Autotree.Number.Integer

/-!
# Preprocessor defines

Every resolved option yields at most one define.  A define has two texts: the
token that the user sees, and the compiler flag as it stands in `Makefile.am`,
where a string literal is quoted once more so that the shell which runs the
compiler leaves its double quotes alone.
-/

namespace Autotree

/-- A preprocessor define. -/
inductive Define where
  /-- A bare symbol. -/
  | symbol (name : String)
  /-- A symbol with an integer. -/
  | value (name value : String)
  /-- A symbol with a string literal. -/
  | str (name value : String)
  /-- A literal of a value map, taken as it is. -/
  | literal (text : String)
deriving DecidableEq, Repr

namespace Define

/-- The define as the user sees it. -/
def token : Define → String
  | symbol name => name
  | value name v => name ++ "=" ++ v
  | str name v => name ++ "=\"" ++ v ++ "\""
  | literal text => text

/-- The define as a compiler flag. -/
def flag : Define → String
  | str name v => "-D" ++ name ++ "='\"" ++ v ++ "\"'"
  | d => "-D" ++ d.token

/-- Whether the value of a flag option sets it: `true`, or an integer that is
not zero. -/
def flagValue? (value : String) : Option Bool :=
  let word := Text.lowerAscii value
  if word = "true" then some true
  else if word = "false" then some false
  else (Number.decimal? word).map (· != 0)

/-- Whether a value has a quote character. -/
def hasQuote (value : String) : Bool :=
  value.toList.any fun c => c == '"' || c == '\''

/-- The define of an argument, if its value yields one. -/
def ofArgument (arg : Argument) : Except ConfigError (Option Define) :=
  match arg.kind with
  | .flag =>
    match flagValue? arg.value with
    | some set => .ok (if set then some (.symbol arg.name) else none)
    | none => .error (.invalidValue arg.name arg.value "an integer or true/false")
  | .text =>
    if hasQuote arg.value then
      .error (.invalidValue arg.name arg.value "a string without quote characters")
    else .ok (some (.str arg.name arg.value))
  | .integer (some map) =>
    match map.lookup arg.value with
    | some text => .ok (some (.literal text))
    | none => .error (.unmappedValue arg.name arg.value)
  | .integer none =>
    if (Number.decimal? arg.value).isSome then .ok (some (.value arg.name arg.value))
    else .error (.invalidValue arg.name arg.value "an integer")

/-- Defines with one more, unless it is a symbol that is already a token. -/
def add (defines : List Define) : Define → List Define
  | .symbol name =>
    if defines.any (·.token == name) then defines else defines ++ [.symbol name]
  | d => defines ++ [d]

/-- The defines of a resolved configuration: first the initial symbols, then one
define at most for each option, in schema order. -/
def synthesize (initial : List String) (resolved : Resolved) : Except ConfigError (List Define) :=
  resolved.arguments.foldlM
    (fun defines arg => do
      match ← ofArgument arg with
      | some d => return add defines d
      | none => return defines)
    (initial.map .symbol)

end Define

end Autotree
