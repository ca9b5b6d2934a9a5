/-!
# Shell scripts

The commands of a POSIX shell script: simple commands with redirections, lists,
`&&` and `||`, loops over words, and conditionals.  A word keeps apart what was
quoted and what was not, because only unquoted parameters are split into fields.
-/

namespace Autotree.Script

/-- A part of a word. -/
inductive Fragment where
  | text (text : String)
  | parameter (name : String) (quoted : Bool)
deriving DecidableEq, Repr

/-- A word, with whether any part of it was quoted. -/
structure Word where
  fragments : List Fragment
  quoted : Bool
deriving DecidableEq, Repr

/-- The text of a word that has neither quotes nor parameters. -/
def Word.plain? (w : Word) : Option String :=
  match w.quoted, w.fragments with
  | false, [.text t] => some t
  | _, _ => none

/-- What a redirection does to its descriptor. -/
inductive Redirection where
  /-- Write to a file, from its start or at its end. -/
  | toFile (descriptor : Nat) (append : Bool) (target : Word)
  /-- Write where another descriptor writes. -/
  | toDescriptor (descriptor target : Nat)
  /-- Read from a file. -/
  | fromFile (source : Word)
deriving DecidableEq, Repr

/-- A command of a script. -/
inductive Program where
  | skip
  /-- Redirections are made first; without any word nothing runs. -/
  | simple (words : List Word) (redirections : List Redirection)
  | seq (first second : Program)
  /-- The second command runs if the first succeeds. -/
  | both (first second : Program)
  /-- The second command runs if the first fails. -/
  | either (first second : Program)
  | each (name : String) (words : List Word) (body : Program)
  | branch (condition yes no : Program)
deriving Repr

end Autotree.Script
