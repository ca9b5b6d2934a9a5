import Autotree.Process.Script.Basic

/-!
# Reading shell scripts

A script is cut into words and operators, and these are grouped into commands.
Every loop is bounded by the length of the text.  A script that does not read is
a syntax error as a whole.
-/

namespace Autotree.Script

/-- A word or an operator. -/
inductive Token where
  | word (w : Word)
  | operator (text : String)
  /-- An operator that redirects a descriptor. -/
  | redirect (descriptor : Nat) (operator : String)
deriving DecidableEq, Repr

/-- A character of a parameter's name. -/
def isNameChar (c : Char) : Bool :=
  c.isAlphanum || c == '_'

/-- A character that ends a word. -/
def endsWord (c : Char) : Bool :=
  c == ' ' || c == '\t' || c == '\n' || c == ';' || c == '&' || c == '|' || c == '<' || c == '>' ||
    c == '(' || c == ')'

/-- Reads a parameter after its dollar sign. -/
def parameter (quoted : Bool) : List Char → Fragment × List Char
  | '\x7b' :: rest =>
    (.parameter (String.ofList (rest.takeWhile (· != '\x7d'))) quoted,
      (rest.dropWhile (· != '\x7d')).drop 1)
  | c :: rest =>
    if c.isDigit || ['@', '*', '#', '?', '$', '!', '-'].contains c then
      (.parameter c.toString quoted, rest)
    else if isNameChar c then
      (.parameter (String.ofList ((c :: rest).takeWhile isNameChar)) quoted,
        (c :: rest).dropWhile isNameChar)
    else (.text "$", c :: rest)
  | [] => (.text "$", [])

/-- Fragments with a text in front, joined to a text that they start with. -/
def addText (text : String) : List Fragment → List Fragment
  | .text t :: rest => .text (text ++ t) :: rest
  | fragments => .text text :: fragments

/-- Reads text between double quotes. -/
def doubleQuoted? : Nat → List Char → Option (List Fragment × List Char)
  | 0, _ => none
  | _, [] => none
  | fuel + 1, c :: rest =>
    if c == '"' then some ([], rest)
    else if c == '$' then
      let (fragment, rest) := parameter true rest
      (doubleQuoted? fuel rest).map fun (fragments, rest) => (fragment :: fragments, rest)
    else
      match c, rest with
      | '\\', d :: rest' =>
        let kept :=
          if d == '\n' then "" else if ['$', '"', '\\'].contains d || d.toNat == 96 then d.toString
          else String.ofList ['\\', d]
        (doubleQuoted? fuel rest').map fun (fragments, rest) => (addText kept fragments, rest)
      | _, _ =>
        (doubleQuoted? fuel rest).map fun (fragments, rest) =>
          (addText c.toString fragments, rest)

/-- Reads the rest of a word. -/
def word? : Nat → List Char → Option (Word × List Char)
  | 0, _ => none
  | _, [] => some (⟨[], false⟩, [])
  | fuel + 1, c :: rest =>
    if endsWord c then some (⟨[], false⟩, c :: rest)
    else if c == '\'' then
      let text := rest.takeWhile (· != '\'')
      match rest.dropWhile (· != '\'') with
      | [] => none
      | _ :: rest =>
        (word? fuel rest).map fun (w, rest) =>
          (⟨addText (String.ofList text) w.fragments, true⟩, rest)
    else if c == '"' then do
      let (inner, rest) ← doubleQuoted? fuel rest
      let (w, rest) ← word? fuel rest
      return (⟨inner ++ w.fragments, true⟩, rest)
    else if c == '$' then
      let (fragment, rest) := parameter false rest
      (word? fuel rest).map fun (w, rest) => (⟨fragment :: w.fragments, w.quoted⟩, rest)
    else
      match c, rest with
      | '\\', '\n' :: rest => word? fuel rest
      | '\\', d :: rest =>
        (word? fuel rest).map fun (w, rest) => (⟨addText d.toString w.fragments, true⟩, rest)
      | _, _ =>
        (word? fuel rest).map fun (w, rest) =>
          (⟨addText c.toString w.fragments, w.quoted⟩, rest)

/-- Reads a redirection operator after its first character. -/
def redirection (descriptor : Option Nat) (first : Char) (rest : List Char) : Token × List Char :=
  let default := if first == '<' then 0 else 1
  let found (operator : String) := Token.redirect (descriptor.getD default) operator
  match first, rest with
  | '>', '>' :: rest => (found ">>", rest)
  | '>', '&' :: rest => (found ">&", rest)
  | '>', rest => (found ">", rest)
  | _, rest => (found "<", rest)

/-- Cuts a script into words and operators. -/
def tokens? : Nat → List Char → Option (List Token)
  | 0, _ => none
  | _, [] => some []
  | fuel + 1, c :: rest =>
    if c == ' ' || c == '\t' then tokens? fuel rest
    else if c == '#' then tokens? fuel (rest.dropWhile (· != '\n'))
    else
      match c, rest with
      | '\\', '\n' :: rest => tokens? fuel rest
      | '&', '&' :: rest => (tokens? fuel rest).map (.operator "&&" :: ·)
      | '|', '|' :: rest => (tokens? fuel rest).map (.operator "||" :: ·)
      | '2', '>' :: rest =>
        let (token, rest) := redirection (some 2) '>' rest
        (tokens? fuel rest).map (token :: ·)
      | '1', '>' :: rest =>
        let (token, rest) := redirection (some 1) '>' rest
        (tokens? fuel rest).map (token :: ·)
      | _, _ =>
        if c == '>' || c == '<' then
          let (token, rest) := redirection none c rest
          (tokens? fuel rest).map (token :: ·)
        else if endsWord c then
          (tokens? fuel rest).map (.operator (if c == '\n' then ";" else c.toString) :: ·)
        else
          (word? (rest.length + 2) (c :: rest)).bind fun (w, rest) =>
            (tokens? fuel rest).map (.word w :: ·)

/-- The words that start or end a compound command. -/
def reserved : List String :=
  ["for", "in", "do", "done", "if", "then", "else", "fi"]

/-- The reserved word that a token is, if it is one. -/
def reserved? : Token → Option String
  | .word w => w.plain?.bind fun t => if reserved.contains t then some t else none
  | _ => none

/-- What follows separators. -/
def skipSeparators (ts : List Token) : List Token :=
  ts.dropWhile (· == .operator ";")

/-- What follows a reserved word, after separators. -/
def expectReserved? (text : String) (ts : List Token) : Option (List Token) :=
  match skipSeparators ts with
  | t :: rest => if reserved? t = some text then some rest else none
  | [] => none

/-- Reads the words and redirections of a simple command. -/
def simple? : Nat → List Token → Option ((List Word × List Redirection) × List Token)
  | 0, _ => none
  | fuel + 1, ts =>
    match ts with
    | .word w :: rest =>
      (simple? fuel rest).map fun ((ws, rs), rest) => ((w :: ws, rs), rest)
    | .redirect descriptor operator :: .word w :: rest => do
      let r ←
        if operator = ">&" then
          (w.plain?.bind (·.toNat?)).map (Redirection.toDescriptor descriptor)
        else if operator = "<" then some (.fromFile w)
        else some (.toFile descriptor (operator = ">>") w)
      let ((ws, rs), rest) ← simple? fuel rest
      return ((ws, r :: rs), rest)
    | .redirect _ _ :: _ => none
    | ts => some (([], []), ts)

mutual

/-- Reads one command. -/
def command? : Nat → List Token → Option (Program × List Token)
  | 0, _ => none
  | fuel + 1, ts =>
    match ts with
    | [] => none
    | t :: rest =>
      match reserved? t with
      | some "for" => do
        match rest with
        | .word v :: rest =>
          let name ← v.plain?
          let rest ← expectReserved? "in" rest
          let ((words, _), rest) ← simple? fuel rest
          let rest ← expectReserved? "do" rest
          let (body, rest) ← list? fuel rest
          let rest ← expectReserved? "done" rest
          return (.each name words body, rest)
        | _ => none
      | some "if" => do
        let (condition, rest) ← list? fuel rest
        let rest ← expectReserved? "then" rest
        let (yes, rest) ← list? fuel rest
        match expectReserved? "else" rest with
        | some rest =>
          let (no, rest) ← list? fuel rest
          let rest ← expectReserved? "fi" rest
          return (.branch condition yes no, rest)
        | none =>
          let rest ← expectReserved? "fi" rest
          return (.branch condition yes (.simple [] []), rest)
      | some _ => none
      | none => do
        let ((words, redirections), rest) ← simple? (ts.length + 1) ts
        if words.isEmpty && redirections.isEmpty then none
        else return (.simple words redirections, rest)

/-- Reads the rest of a chain of `&&` and `||` after its first command. -/
def chain? : Nat → Program → List Token → Option (Program × List Token)
  | 0, _, _ => none
  | fuel + 1, first, ts =>
    match ts with
    | .operator "&&" :: rest => do
      let (second, rest) ← command? fuel (skipSeparators rest)
      chain? fuel (.both first second) rest
    | .operator "||" :: rest => do
      let (second, rest) ← command? fuel (skipSeparators rest)
      chain? fuel (.either first second) rest
    | ts => some (first, ts)

/-- Reads commands up to the end or a reserved word that ends a list. -/
def list? : Nat → List Token → Option (Program × List Token)
  | 0, _ => none
  | fuel + 1, ts =>
    match skipSeparators ts with
    | [] => some (.skip, [])
    | t :: rest =>
      if (reserved? t).any (["do", "done", "then", "else", "fi", "in"].contains ·) then
        some (.skip, t :: rest)
      else do
        let (first, rest) ← command? fuel (t :: rest)
        let (first, rest) ← chain? fuel first rest
        match rest with
        | [] => return (first, [])
        | .operator ";" :: rest =>
          let (others, rest) ← list? fuel rest
          return (.seq first others, rest)
        | _ => none

end

/-- Reads a script. -/
def parse? (text : String) : Option Program := do
  let cs := text.toList
  let ts ← tokens? (cs.length + 1) cs
  let (program, rest) ← list? (3 * ts.length + 3) ts
  if rest.isEmpty then return program else none

end Autotree.Script
