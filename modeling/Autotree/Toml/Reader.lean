import Autotree.Toml.Draft
import Autotree.Toml.Reader.DateTime
import Autotree.Toml.Reader.Quoted

/-!
# TOML documents

`Toml.parse?` reads a document into its top-level entries, or nothing if the
text is no TOML document.  Arrays and inline tables nest at most 79 levels deep
and a key has at most 79 parts; every loop over a text is bounded by its length.
-/

namespace Autotree.Toml.Reader

/-- The number of levels that values and keys stay below. -/
def levelLimit : Nat := 80

/-- Reads one part of a key. -/
def keyPart? (cs : List Char) : Option (String × List Char) :=
  match cs with
  | '"' :: rest => (basic? rest).map fun (text, rest) => (String.ofList text, rest)
  | '\'' :: rest => (literal? rest).map fun (text, rest) => (String.ofList text, rest)
  | _ =>
    let bare := cs.takeWhile isBareKeyChar
    if bare.isEmpty then none else some (String.ofList bare, cs.dropWhile isBareKeyChar)
where
  /-- A character of a bare key. -/
  isBareKeyChar (c : Char) : Bool :=
    c.isAlphanum || c == '_' || c == '-'

/-- Reads the parts of a key, with the blanks around them. -/
def keyParts? : Nat → List Char → Option (List String × List Char)
  | 0, _ => none
  | fuel + 1, cs => do
    let (part, rest) ← keyPart? (skipSpaces cs)
    match skipSpaces rest with
    | '.' :: rest =>
      let (parts, rest) ← keyParts? fuel rest
      return (part :: parts, rest)
    | rest => return ([part], rest)

/-- Reads a key with its dots: the parts before the last, and the last. -/
def key? (cs : List Char) : Option ((List String × String) × List Char) := do
  let (parts, rest) ← keyParts? (levelLimit - 1) cs
  let last ← parts.getLast?
  return ((parts.dropLast, last), rest)

/-- Reads the elements of an array after its opening bracket. -/
def elements? (value? : List Char → Option (Value × List Char)) :
    Nat → List Char → Option (List Value × List Char)
  | 0, _ => none
  | fuel + 1, cs => do
    match ← skipTrivia? false cs with
    | ']' :: rest => return ([], rest)
    | cs =>
      let (v, rest) ← value? cs
      match ← skipTrivia? false rest with
      | ',' :: rest =>
        let (vs, rest) ← elements? value? fuel rest
        return (v :: vs, rest)
      | ']' :: rest => return ([v], rest)
      | _ => none

/-- Reads the entries of an inline table up to its closing brace, into the entries
read so far. -/
def inlineEntries? (value? : List Char → Option (Value × List Char)) :
    Nat → Draft.Entries → List Char → Option (Draft.Entries × List Char)
  | 0, _, _ => none
  | fuel + 1, entries, cs => do
    let ((path, key), rest) ← key? cs
    let rest ← expect? '=' rest
    let (v, rest) ← value? (skipSpaces rest)
    let entries ← Draft.assign? path key v .declared entries
    match skipSpaces rest with
    | ',' :: rest => inlineEntries? value? fuel entries rest
    | '\x7d' :: rest => return (entries, rest)
    | _ => none

/-- Reads an inline table after its opening brace. -/
def inlineTable? (value? : List Char → Option (Value × List Char)) (cs : List Char) :
    Option (Value × List Char) :=
  match skipSpaces cs with
  | '\x7d' :: rest => some (.table [], rest)
  | cs =>
    (inlineEntries? value? cs.length [] cs).map fun (entries, rest) =>
      ((Draft.table .declared entries).toValue, rest)

/-- Reads a value that may hold values of fewer than the given number of levels. -/
def value? : Nat → List Char → Option (Value × List Char)
  | 0, _ => none
  | levels + 1, cs =>
    match cs with
    | [] => none
    | c :: rest =>
      if c == '"' || c == '\'' then
        (string? cs).map fun (text, rest) => (.string text, rest)
      else if c == '[' then
        if levels = 0 then none
        else
          (elements? (value? levels) (rest.length + 1) rest).map fun (vs, rest) =>
            (.array vs, rest)
      else if c == '\x7b' then
        if levels = 0 then none else inlineTable? (value? levels) rest
      else
        match cs with
        | 't' :: 'r' :: 'u' :: 'e' :: rest => some (.boolean true, rest)
        | 'f' :: 'a' :: 'l' :: 's' :: 'e' :: rest => some (.boolean false, rest)
        | _ =>
          match dateTime? cs with
          | some (d, rest) => some (.dateTime d, rest)
          | none => number? cs

/-- A document being read: its entries, and the table that statements go to. -/
structure State where
  entries : Draft.Entries := []
  current : List String := []

/-- Reads a header `[path]` after its opening bracket. -/
def tableHeader? (state : State) (cs : List Char) : Option (State × List Char) := do
  let ((path, key), rest) ← key? cs
  let rest ← expect? ']' rest
  let rest ← endOfLine? rest
  let entries ←
    Draft.descend? false (fun _ => Draft.openTable? key) path .declared state.entries
  return (⟨entries, path ++ [key]⟩, rest)

/-- Reads a header `[[path]]` after its opening brackets. -/
def elementHeader? (state : State) (cs : List Char) : Option (State × List Char) := do
  let ((path, key), rest) ← key? cs
  let rest ← expect? ']' rest
  let rest ← expect? ']' rest
  let rest ← endOfLine? rest
  let entries ←
    Draft.descend? false (fun _ => Draft.openElement? key) path .declared state.entries
  return (⟨entries, path ++ [key]⟩, rest)

/-- Reads a statement `key = value`. -/
def assignment? (state : State) (cs : List Char) : Option (State × List Char) := do
  let ((path, key), rest) ← key? cs
  let rest ← expect? '=' rest
  let (v, rest) ← value? levelLimit (skipSpaces rest)
  let rest ← endOfLine? rest
  let entries ←
    Draft.descend? false (Draft.assign? path key v) state.current .declared state.entries
  return (⟨entries, state.current⟩, rest)

/-- Reads the statements of a document. -/
def statements? : Nat → State → List Char → Option State
  | 0, _, _ => none
  | fuel + 1, state, cs =>
    match skipSpaces cs with
    | [] => some state
    | '#' :: rest => (endOfLine? ('#' :: rest)).bind (statements? fuel state)
    | '\n' :: rest => statements? fuel state rest
    | '\r' :: '\n' :: rest => statements? fuel state rest
    | '[' :: '[' :: rest =>
      (elementHeader? state rest).bind fun (state, rest) => statements? fuel state rest
    | '[' :: rest =>
      (tableHeader? state rest).bind fun (state, rest) => statements? fuel state rest
    | cs => (assignment? state cs).bind fun (state, rest) => statements? fuel state rest

end Autotree.Toml.Reader

namespace Autotree.Toml

/-- The entries of a document in the order of their first mention, unless the text is
no document. -/
def parse? (text : String) : Option (List (String × Value)) :=
  let cs := text.toList
  let cs := if cs.head? == some '\uFEFF' then cs.tail else cs
  (Reader.statements? (cs.length + 1) {} cs).map fun state => Draft.entryValues state.entries

end Autotree.Toml
