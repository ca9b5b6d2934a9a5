import Autotree.Config.Declaration
import Autotree.Failure
import Autotree.Manifest.Basic
import Autotree.Toml.Reader
import Autotree.Toml.Settled

/-!
# Reading a manifest

A manifest is a TOML document with the sections `project` and `build` and the
array `option`, all optional; any other top-level key is refused, and keys of a
section that it does not have are ignored.  A section may also be written as an
array, which gives its fields in order.  What is no such document is one failure,
whatever is wrong with it; a bad schema is a failure of its own.
-/

namespace Autotree.Manifest

open Toml (Value)

/-- The fields of a section, by name. -/
def fields? (names : List String) : Value → Option (List (String × Value))
  | .array elements => some (names.zip elements)
  | v => v.entries?

/-- A field that has a default. -/
def field? {α : Type} (decode? : Value → Option α) (default : α) (name : String)
    (fields : List (String × Value)) : Option α :=
  match fields.lookup name with
  | some v => decode? v
  | none => some default

/-- A string. -/
def string? : Value → Option String
  | .string s => some s
  | _ => none

/-- An array of strings. -/
def strings? : Value → Option (List String)
  | .array elements => elements.mapM string?
  | _ => none

/-- A table of any values, by ascending key. -/
def table? (v : Value) : Option (List (String × Value)) := do
  let entries ← v.entries?
  return Toml.sortEntries (← Toml.settleEntries? entries)

/-- The section `project`. -/
def metadata? (v : Value) : Option Metadata := do
  let fields ← fields? ["name", "version"] v
  let name ← field? (fun v => (string? v).map some) none "name" fields
  let version ← field? (fun v => (string? v).map some) none "version" fields
  return ⟨name, version⟩

/-- The section `build`. -/
def buildSettings? (v : Value) : Option BuildSettings := do
  let fields ← fields?
    ["config", "macro-dir", "build-dir", "libs", "include-dirs", "defines", "tools", "platforms"] v
  let d : BuildSettings := {}
  let config ← field? string? d.config "config" fields
  let macroDir ← field? string? d.macroDir "macro-dir" fields
  let buildDir ← field? string? d.buildDir "build-dir" fields
  let libs ← field? strings? d.libs "libs" fields
  let includeDirs ← field? strings? d.includeDirs "include-dirs" fields
  let defines ← field? strings? d.defines "defines" fields
  let tools ← field? strings? d.tools "tools" fields
  let platforms ← field? strings? d.platforms "platforms" fields
  return ⟨config, macroDir, buildDir, libs, includeDirs, defines, tools, platforms⟩

/-- An element of the array `option`. -/
def declaration? (v : Value) : Option Declaration := do
  let fields ← fields? ["name", "type", "default", "map"] v
  let name ← (fields.lookup "name").bind string?
  let type ← (fields.lookup "type").bind string?
  let fallback ← (fields.lookup "default").mapM Value.settle?
  let map ← field? (fun v => (table? v).map some) none "map" fields
  return ⟨name, type, fallback, map⟩

/-- The array `option`. -/
def declarations? : Value → Option (List Declaration)
  | .array elements => elements.mapM declaration?
  | _ => none

/-- A manifest as it is written, before its schema is made. -/
structure Draft where
  project : Metadata
  build : BuildSettings
  declarations : List Declaration

/-- The sections of a document. -/
def ofEntries? (entries : List (String × Value)) : Option Draft := do
  if entries.all fun entry => ["project", "build", "option"].contains entry.1 then
    let project ← field? metadata? {} "project" entries
    let build ← field? buildSettings? {} "build" entries
    let declarations ← field? declarations? [] "option" entries
    return ⟨project, build, declarations⟩
  else none

/-- Reads the text of a manifest with a given path. -/
def parse (text path : String) : Except Failure Manifest :=
  match (Toml.parse? text).bind ofEntries? with
  | none => .error (.manifestSyntax path)
  | some draft =>
    match Schema.ofDeclarations draft.declarations with
    | .error e => .error (.config e)
    | .ok schema => .ok ⟨draft.project, draft.build, schema, rootOf path⟩

end Autotree.Manifest
