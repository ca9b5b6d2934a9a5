import Autotree.CommandLine.Run
import Autotree.Disk

/-!
# The program

The program reads the working directory, or the nearest directory upward with a
manifest, from the disk, runs the command on it, and writes back what changed.
Programs outside that directory are the native ones of the base system.
-/

open Autotree

/-- The directory that is read for a run: the nearest one upward with a manifest, or
the working directory. -/
def workingTree (cwd : String) : IO String := do
  let candidates := Manifest.searchPath cwd.length cwd
  let hasManifest (dir : String) : IO Bool := do
    let entries ← ((← IO.currentDir) / dir).readDir
    return entries.any (·.fileName == Manifest.fileName)
  match ← candidates.findM? fun dir => if dir = "/" then return false else hasManifest dir with
  | some dir => return dir
  | none => return cwd

def main (args : List String) : IO UInt32 := do
  let cwd := (← IO.currentDir).toString
  let manifestPath ← IO.getEnv CommandLine.manifestVariable
  let path := ((← IO.getEnv "PATH").getD "").splitOn ":"
  let terminal ← (← IO.getStderr).isTty
  let store ← Disk.mount (← workingTree cwd) System.baseStore
  let env : CommandLine.Environment := ⟨⟨path⟩, manifestPath, terminal⟩
  let run := CommandLine.run env args (store.enter (Store.steps cwd))
  Disk.commit store run.store
  (← IO.getStdout).write run.output
  (← IO.getStderr).write run.errors
  return run.exitCode.toUInt32
