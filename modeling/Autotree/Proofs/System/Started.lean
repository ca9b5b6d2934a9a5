import Autotree.Manifest.Basic
import Autotree.Proofs.Store.Enter
import Autotree.System.Basic

/-!
# The file that a command starts

A program that is a relative path of several components is joined to the working directory of its
command, and what comes of it is looked up in that directory once the process is there
(`startedFile`).  Behind an absolute directory this is the program as it is meant, relative to
the directory.  A relative directory is followed twice: first by the process that enters it, and
then by the program (`startedFile_in_directory`).
-/

namespace Autotree

/-! ## Programs that are paths -/

theorem mem_join {left right : String} (h : '/' ∈ right.toList) :
    '/' ∈ (Path.join left right).toList := by
  unfold Path.join
  split
  · exact h
  · split <;> simp [h]

theorem join_of_isAbsolute {left right : String} (h : Path.isAbsolute right = true) :
    Path.join left right = right := by
  simp [Path.join, h]

theorem isAbsolute_join {left right : String} (h : Path.isAbsolute left = true)
    (hright : Path.isAbsolute right = false) : Path.isAbsolute (Path.join left right) = true := by
  have hne : left ≠ "" := by
    rintro rfl
    cases h
  unfold Path.join
  rw [if_neg (by simp [hright, hne])]
  split
  · rw [isAbsolute_append hne, h]
  · rw [String.append_assoc, isAbsolute_append hne, h]

/-- A program with several components has a slash. -/
theorem mem_of_components {path : String} (h : 1 < (Path.components path).length) :
    '/' ∈ path.toList := by
  by_contra hslash
  rw [Path.components_eq (pieces_of_not_mem hslash), isAbsolute_eq_false hslash] at h
  have hlength : (Path.firstComponents false path ++ Path.laterComponents []).length ≤ 1 := by
    simp [Path.firstComponents, Path.laterComponents, Option.length_toList_le]
  omega

namespace Command

variable {c : Command} {cwd : String}

theorem resolvedProgram_relative (hcwd : c.cwd = some cwd)
    (hlength : 1 < (Path.components c.program).length) (habs : Path.isAbsolute c.program = false) :
    c.resolvedProgram = Path.join cwd c.program := by
  rw [resolvedProgram, hcwd]
  exact if_pos ⟨hlength, by rw [habs]; rfl⟩

/-- A bare name and an absolute path are left as they are. -/
theorem resolvedProgram_eq
    (h : (Path.components c.program).length ≤ 1 ∨ Path.isAbsolute c.program = true) :
    c.resolvedProgram = c.program := by
  unfold resolvedProgram
  split
  · refine if_neg ?_
    rintro ⟨hlength, hrelative⟩
    rcases h with h | h
    · omega
    · simp [h] at hrelative
  · rfl

end Command

namespace System

variable {s : Store} {c : Command} {sys : System} {cwd program : String} {place : Place}
  {entries : List (String × Node)} {e : Errno}

/-- What the program of a command leads to, once the process is in the directory of the command. -/
def startedFile (s : Store) (c : Command) : Except Errno (Place × Node) := do
  let inner ← enterFor s c.cwd
  inner.locate c.resolvedProgram

/-- Starting a program by a path goes on with the file at the path. -/
def runFile (sys : System) (depth : Nat) (s : Store) (self : String) (args : List String)
    (path : String) : Node → Except Errno Finished
  | .file content executable =>
    let launcher : Script.Launcher := fun s name args =>
      sys.startByName (sys.startFile depth s name args) name
    if !executable then .error .denied
    else
      match interpreter? content, native? content with
      | some (program, argument), _ =>
        if program = "" then .error .execFormat
        else sys.startFile depth s program (argument ++ path :: args) program
      | none, some name => .ok (runNative launcher s name self args)
      | none, none => .error .execFormat
  | _ => .error .denied

theorem startFile_eq (sys : System) (depth : Nat) (s : Store) (self : String) (args : List String)
    (path : String) :
    sys.startFile (depth + 1) s self args path =
      (s.locate path).bind fun found => sys.runFile depth s self args path found.2 := by
  rw [startFile]
  cases s.locate path with
  | error e => rfl
  | ok found =>
    obtain ⟨place, node⟩ := found
    cases node <;> rfl

theorem start_eq (h : isPath program = true) (s : Store) (args : List String) :
    sys.start s program args =
      (s.locate program).bind fun found =>
        sys.runFile (depthLimit - 1) s program args program found.2 := by
  have hne : program ≠ "" := by
    rintro rfl
    cases h
  rw [start, startByName, if_neg hne, if_pos h]
  exact startFile_eq sys (depthLimit - 1) s program args program

/-- A program that is a path is run as the file that it starts, or fails for the want of one. -/
theorem run_eq (h : isPath c.resolvedProgram = true) :
    sys.run s c = (enterFor s c.cwd).bind fun inner =>
      (startedFile s c).bind fun found =>
        (sys.runFile (depthLimit - 1) inner c.resolvedProgram c.args c.resolvedProgram found.2).map
          fun f => { f with store := f.store.enter s.cwd } := by
  unfold run startedFile
  cases enterFor s c.cwd with
  | error e => rfl
  | ok inner =>
    simp only [Except.bind, bind, start_eq h]
    cases inner.locate c.resolvedProgram with
    | error e => rfl
    | ok found =>
      simp only
      cases sys.runFile (depthLimit - 1) inner c.resolvedProgram c.args c.resolvedProgram
        found.2 <;> rfl

theorem enterFor_of_shared (h : s.shared.locate cwd = .ok (place, .dir entries)) :
    enterFor s (some cwd) = .ok (s.enter place) := by
  obtain ⟨entries', hlocate⟩ := Store.locate_dir_of_shared h
  simp only [enterFor, hlocate]

theorem join_program_ne_empty (hlength : 1 < (Path.components program).length) :
    Path.join cwd program ≠ "" := by
  refine join_ne_empty ?_
  rintro rfl
  simp [Path.components_empty] at hlength

section Directory

variable (args : List String) (hlength : 1 < (Path.components program).length)
  (hrelative : Path.isAbsolute program = false)

include hlength hrelative

theorem resolvedProgram_of_relative (cwd : String) :
    (Command.mk program args (some cwd)).resolvedProgram = Path.join cwd program :=
  Command.resolvedProgram_relative rfl hlength hrelative

/-- What is run is the file that is started. -/
theorem run_of_relative (hcwd : s.shared.locate cwd = .ok (place, .dir entries)) (sys : System) :
    sys.run s ⟨program, args, some cwd⟩ =
      (startedFile s ⟨program, args, some cwd⟩).bind fun found =>
        (sys.runFile (depthLimit - 1) (s.enter place) (Path.join cwd program) args
          (Path.join cwd program) found.2).map
            fun f => { f with store := f.store.enter s.cwd } := by
  have hresolved := resolvedProgram_of_relative args hlength hrelative cwd
  have hpath : isPath (Command.mk program args (some cwd)).resolvedProgram = true := by
    rw [hresolved]
    exact List.contains_iff_mem.2 (mem_join (mem_of_components hlength))
  rw [run_eq hpath, hresolved, enterFor_of_shared hcwd]
  rfl

/-- The directory is followed by the process, and by the program once more. -/
theorem startedFile_of_shared (hcwd : s.shared.locate cwd = .ok (place, .dir entries)) {q : Place}
    {content : ByteArray} {executable : Bool}
    (hfile : s.shared.locate (Path.join cwd (Path.join cwd program)) =
      .ok (q, .file content executable)) :
    startedFile s ⟨program, args, some cwd⟩ = .ok (q, .file content executable) := by
  unfold startedFile
  rw [enterFor_of_shared hcwd, resolvedProgram_of_relative args hlength hrelative]
  exact Store.locate_enter hcwd (join_program_ne_empty hlength) hfile

theorem startedFile_of_no_self (hself : s.at? ["proc", "self"] ≠ some .dir)
    (hcwd : s.locate cwd = .ok (place, .dir entries)) :
    startedFile s ⟨program, args, some cwd⟩ =
      { s with cwd := place }.locate (Path.join cwd program) := by
  unfold startedFile
  simp only [enterFor, hcwd, Store.enter_eq hself,
    resolvedProgram_of_relative args hlength hrelative]
  rfl

end Directory

/-- What a command with a directory starts.  A bare name and an absolute path are left as they are,
and any other program is run as the file at its path behind the directory.  An absolute directory
leads there as it does for everybody; a relative one is followed twice, and the file at the path
behind both is run.  This holds of files that are found without the link of the process, and where
it has no place also of the errors, unless the path behind both is too long or leads over too many
links. -/
theorem startedFile_in_directory (hcwd : s.shared.locate cwd = .ok (place, .dir entries))
    (program : String) (args : List String) :
    ((Path.components program).length ≤ 1 ∨ Path.isAbsolute program = true →
      (Command.mk program args (some cwd)).resolvedProgram = program) ∧
    (1 < (Path.components program).length → Path.isAbsolute program = false →
      (∀ sys : System, sys.run s ⟨program, args, some cwd⟩ =
        (startedFile s ⟨program, args, some cwd⟩).bind fun found =>
          (sys.runFile (depthLimit - 1) (s.enter place) (Path.join cwd program) args
            (Path.join cwd program) found.2).map
              fun f => { f with store := f.store.enter s.cwd }) ∧
      (∀ q content executable, Path.isAbsolute cwd = true →
        s.shared.locate (Path.join cwd program) = .ok (q, .file content executable) →
          s.locate (Path.join cwd program) = .ok (q, .file content executable) ∧
          startedFile s ⟨program, args, some cwd⟩ = .ok (q, .file content executable)) ∧
      (∀ q content executable,
        s.shared.locate (Path.join cwd (Path.join cwd program)) =
            .ok (q, .file content executable) →
          startedFile s ⟨program, args, some cwd⟩ = .ok (q, .file content executable)) ∧
      (s.at? ["proc", "self"] ≠ some .dir →
        (Path.isAbsolute cwd = true →
          startedFile s ⟨program, args, some cwd⟩ = s.locate (Path.join cwd program)) ∧
        (Text.byteSize (Path.join cwd (Path.join cwd program)) < Store.pathLimit →
          s.locate (Path.join cwd (Path.join cwd program)) ≠ .error .linkLoop →
          startedFile s ⟨program, args, some cwd⟩ =
            s.locate (Path.join cwd (Path.join cwd program))))) := by
  refine ⟨Command.resolvedProgram_eq (c := ⟨program, args, some cwd⟩),
    fun hlength hrelative => ⟨run_of_relative args hlength hrelative hcwd, ?_, ?_, ?_⟩⟩
  · intro q content executable habs hfile
    refine ⟨Store.locate_of_shared hfile, startedFile_of_shared args hlength hrelative hcwd ?_⟩
    rwa [join_of_isAbsolute (isAbsolute_join habs hrelative)]
  · exact fun q content executable hfile =>
      startedFile_of_shared args hlength hrelative hcwd hfile
  · intro hself
    rw [Store.shared_eq hself] at hcwd
    rw [startedFile_of_no_self args hlength hrelative hself hcwd]
    refine ⟨fun habs => ?_, fun htaken hloop => ?_⟩
    · exact Store.locate_of_isAbsolute (isAbsolute_join habs hrelative) place
    · exact Store.locate_from_dir hcwd (join_program_ne_empty hlength) htaken hloop

/-- A project with two files of one name, one of them in a directory of the other's directory. -/
def nestedStore : Store :=
  let dirs : List Place := [["work"], ["work", "build"], ["work", "build", "build"]]
  let s : Store := { dirs.foldl Store.putDir .empty with cwd := ["work"] }
  (s.putFile ["work", "build", "configure"] .empty true).putFile
    ["work", "build", "build", "configure"] .empty true

theorem nestedStore_started :
    startedFile nestedStore ⟨"./configure", [], some "/work/build"⟩ =
        .ok (["work", "build", "configure"], .file .empty true) ∧
      startedFile nestedStore ⟨"./configure", [], some "./build"⟩ =
        .ok (["work", "build", "build", "configure"], .file .empty true) ∧
      startedFile nestedStore ⟨"./configure", [], some "./build"⟩ =
        nestedStore.locate "./build/./build/./configure" := by
  have hlength : 1 < (Path.components "./configure").length := by decide
  have habsolute : nestedStore.shared.locate "/work/build" = .ok (["work", "build"], .dir
      [("build", .dir [("configure", .file .empty true)]), ("configure", .file .empty true)]) := rfl
  have hrelative : nestedStore.shared.locate "./build" = .ok (["work", "build"], .dir
      [("build", .dir [("configure", .file .empty true)]), ("configure", .file .empty true)]) := rfl
  obtain ⟨-, hstart⟩ := startedFile_in_directory habsolute "./configure" []
  obtain ⟨-, hstart'⟩ := startedFile_in_directory hrelative "./configure" []
  obtain ⟨-, honce, -⟩ := hstart hlength (by decide)
  obtain ⟨-, -, htwice, hno⟩ := hstart' hlength (by decide)
  exact ⟨(honce _ _ _ (by decide) rfl).2, htwice _ _ _ rfl,
    (hno (by decide)).2 (by decide) (by nofun)⟩

/-- A project with a script in its build tree, and the link of the process. -/
def configuredStore : Store :=
  let dirs : List Place := [["proc"], ["proc", "self"], ["work"], ["work", "build"]]
  let s := (dirs.foldl Store.putDir .empty).enter ["work"]
  s.putFile ["work", "build", "configure"] .empty true

/-- The build tree of a manifest that is given by its bare name is a relative directory, and so is
in effect an absolute one over the link of the process.  Neither command starts the file that is
there. -/
theorem configure_not_started :
    Path.join (Manifest.rootOf Manifest.fileName) "build" = "./build" ∧
      ∀ cwd ∈ ["./build", "/proc/self/cwd/build"],
        configuredStore.locate (Path.join cwd "./configure") =
            .ok (["work", "build", "configure"], .file .empty true) ∧
          startedFile configuredStore ⟨"./configure", [], some cwd⟩ = .error .noEntry ∧
          ∀ sys : System,
            sys.run configuredStore ⟨"./configure", [], some cwd⟩ = .error .noEntry := by
  refine ⟨by decide, ?_⟩
  rw [List.forall_mem_cons, List.forall_mem_singleton]
  refine ⟨⟨rfl, rfl, fun sys => ?_⟩, rfl, rfl, fun sys => ?_⟩
  · rw [run_eq (by decide)]
    rfl
  · rw [run_eq (by decide)]
    rfl

end System

end Autotree
