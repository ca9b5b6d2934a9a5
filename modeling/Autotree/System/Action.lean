import Autotree.System.Basic

/-!
# Running commands as actions

A command is run with its output captured, or for its exit status alone; a
command that cannot be started fails with the context of the request.
-/

namespace Autotree.System

/-- Runs a command; a refusal is reported with a context. -/
def launch (sys : System) (context : String) (c : Command) : FileAction Finished := fun s =>
  let refuse (cause : FileCause) := .error (.file (s!"{context} `{c.program}`") cause)
  if c.hasNul then (refuse .nulByte, s)
  else
    match sys.run s c with
    | .ok f => (.ok f, f.store)
    | .error e => (refuse (.system e), s)

/-- Runs a command and captures its output. -/
def exec (sys : System) (c : Command) : FileAction Finished :=
  sys.launch "failed to spawn" c

/-- Runs a command, captures its output, and fails unless it succeeds. -/
def execChecked (sys : System) (c : Command) : FileAction Finished := do
  let f ← sys.exec c
  if f.ending.status.success then return f
  else throw (.commandFailed c.text f.ending.status (Text.Utf8.decode (f.text .errors)))

/-- Runs a command for its exit status; what it prints goes to the terminal. -/
def status (sys : System) (c : Command) : FileAction Finished :=
  sys.launch "failed to execute" c

/-- Runs a command for its exit status and discards what it prints. -/
def statusQuiet (sys : System) (c : Command) : FileAction Finished := do
  return { ← sys.status c with printed := [] }

/-- What a tool prints when it is asked for its version. -/
def versionOutput (sys : System) (path : String) : FileAction String := do
  let f ← sys.execChecked ⟨path, ["--version"], none⟩
  return Text.Utf8.decode (f.text .output)

end Autotree.System
