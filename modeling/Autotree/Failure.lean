import Autotree.Config.Error
import Autotree.Host.Error
import Autotree.Pipeline.Error
import Autotree.Store.Errno
import Autotree.Text.Raw

/-!
# Failures

Everything that can end an operation, as a cause.  `chain` gives the texts of a
failure from the outermost to the innermost; the first is its `message`.  The
failures a user can do something about have a diagnostic.
-/

namespace Autotree

/-- Why an operation on files is refused. -/
inductive FileCause where
  | system (e : Errno)
  /-- The bytes of a text are no UTF-8. -/
  | notText
  /-- What is to be copied is no regular file. -/
  | notRegular
  /-- The temporary file cannot be made or written. -/
  | temporary (e : Errno)
  /-- The temporary file cannot be moved into place. -/
  | persist (e : Errno)
  /-- A NUL byte, which ends every text given to a program, stands inside one. -/
  | nulByte
deriving DecidableEq, Repr

namespace FileCause

/-- The number of the system error behind a cause, if there is one. -/
def code : FileCause → Option Nat
  | system e => some e.code
  | persist e => some e.code
  | notText => none
  | notRegular => none
  | temporary _ => none
  | nulByte => none

/-- The texts of a cause, outermost first. -/
def chain : FileCause → List String
  | system e => [e.text]
  | notText => ["stream did not contain valid UTF-8"]
  | notRegular => ["the source path is neither a regular file nor a symlink to a regular file"]
  | temporary e => [e.text]
  | persist e => ["failed to persist temporary file: " ++ e.text, e.text]
  | nulByte => ["nul byte found in provided data"]

end FileCause

/-- Why a directory cannot be scanned. -/
inductive ScanCause where
  | system (path : String) (e : Errno)
  /-- A link leads back to a directory that it lies in. -/
  | linkLoop (path ancestor : String)
deriving DecidableEq, Repr

namespace ScanCause

/-- The texts of a cause, outermost first. -/
def chain : ScanCause → List String
  | system path e =>
    ["IO error for operation on " ++ Text.shown path ++ ": " ++ e.text, e.text]
  | linkLoop path ancestor =>
    ["File system loop found: " ++ Text.shown path ++ " points to an ancestor " ++
      Text.shown ancestor]

end ScanCause

/-- Why an operation ends without a result. -/
inductive Failure where
  | manifestNotFound (dir : String)
  | manifestSyntax (path : String)
  | config (e : ConfigError)
  | host (e : HostError)
  | step (e : StepError)
  | scan (dir : String) (cause : ScanCause)
  | file (context : String) (cause : FileCause)
  | sourceNotFound (dir : String)
  | commandFailed (command : String) (status : ExitStatus) (output : String)
deriving DecidableEq, Repr

namespace Failure

/-- The exit code of a command that failed, as its failure shows it. -/
def codeText (status : ExitStatus) : String :=
  match status.code with
  | some code => "Some(" ++ toString code ++ ")"
  | none => "None"

/-- The outermost text of a failure. -/
def message : Failure → String
  | manifestNotFound dir =>
    s!"could not find `Amgen.toml` in `{Text.shown dir}` or any parent directory"
  | manifestSyntax path => "failed to parse " ++ Text.shown path
  | config e => e.message
  | host e => e.message
  | step e => e.message
  | scan dir _ => "failed to scan directory: " ++ Text.shown dir
  | file context _ => context
  | sourceNotFound dir => "source directory not found: " ++ Text.shown dir
  | commandFailed command status output =>
    s!"`{command}` failed with exit code {codeText status}\n{output}"

/-- The texts of a failure, outermost first. -/
def chain (e : Failure) : List String :=
  match e with
  | scan _ cause => e.message :: cause.chain
  | file _ cause => e.message :: cause.chain
  | _ => [e.message]

/-- The diagnostic of a failure that the user can do something about. -/
def diagnostic? (e : Failure) : Option Diagnostic :=
  match e with
  | config e => some e.diagnostic
  | host e => some e.diagnostic
  | step e => some e.diagnostic
  | manifestNotFound _ => some ⟨e.message, [], [Diagnostic.createManifest]⟩
  | _ => none

end Failure

end Autotree
