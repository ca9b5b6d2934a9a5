import Mathlib.Data.List.Infix
import Autotree.Proofs.Pipeline.Account
import Autotree.System.Local

/-!
# What a run reports

Whoever listens to a run, it does the same.  Without a reporter, or with a quiet one, nothing is
reported; any two others report the same up to colors: the lines that are due for what happens
(`lineFor`), and that for a command right before it is run (`Narrative.before_ran`).
-/

namespace Autotree

/-! ## Lines without colors -/

/-- What is left of a text without its color codes, each of which runs from an escape character to
the next `m`.  The flag tells whether the text begins inside of a code. -/
def uncolored : Bool → List Char → List Char
  | _, [] => []
  | true, c :: cs => uncolored (c != 'm') cs
  | false, c :: cs => if c = '\x1b' then uncolored true cs else c :: uncolored false cs

/-- A line without its color codes. -/
def plain (line : String) : String :=
  String.ofList (uncolored false line.toList)

theorem uncolored_word {word : List Char} (h : '\x1b' ∉ word) (rest : List Char) :
    uncolored false (word ++ rest) = word ++ uncolored false rest := by
  induction word with
  | nil => rfl
  | cons c word ih =>
    rw [List.mem_cons, not_or] at h
    rw [List.cons_append, uncolored, if_neg (Ne.symm h.1), ih h.2, List.cons_append]

theorem uncolored_code {code : List Char} (h : 'm' ∉ code) (rest : List Char) :
    uncolored true (code ++ 'm' :: rest) = uncolored false rest := by
  induction code with
  | nil => rfl
  | cons c code ih =>
    rw [List.mem_cons, not_or] at h
    rw [List.cons_append, uncolored, bne_iff_ne.2 (Ne.symm h.1), ih h.2]

theorem plain_paint {color : Nat} {word : String} (hcolor : 'm' ∉ (toString color).toList)
    (hword : '\x1b' ∉ word.toList) (rest : String) :
    plain (Diagnostic.paint color word ++ rest) = plain (word ++ rest) := by
  have hcode : 'm' ∉ '[' :: '1' :: ';' :: (toString color).toList := by simpa using hcolor
  have hchars : (Diagnostic.paint color word ++ rest).toList =
      '\x1b' :: ('[' :: '1' :: ';' :: (toString color).toList ++
        'm' :: (word.toList ++ '\x1b' :: (['[', '0'] ++ 'm' :: rest.toList))) := by
    simp [Diagnostic.paint]
  rw [plain, hchars, uncolored, if_pos rfl, uncolored_code hcode, uncolored_word hword, uncolored,
    if_pos rfl, uncolored_code (by decide), ← uncolored_word hword, ← String.toList_append, plain]

/-- The words for the statuses, each in its column. -/
theorem Status.aligned_eq (status : Status) : status.aligned =
    match status with
    | .created => "     Created"
    | .finished => "    Finished"
    | .removed => "     Removed"
    | .resolving => "   Resolving"
    | .generating => "  Generating"
    | .running => "     Running"
    | .building => "    Building"
    | .skipped => "     Skipped" := by
  cases status <;> rfl

namespace Reporter

variable {r : Reporter} {status : Status} {message : String}

theorem line?_of_quiet (h : r.verbosity = .quiet) : r.line? status message = none :=
  if_pos (decide_eq_true h)

theorem line?_of_uncolored (h : r.verbosity ≠ .quiet) (hcolor : r.useColor = false) :
    r.line? status message = some (status.aligned ++ " " ++ message) := by
  simp [line?, isQuiet, h, hcolor]

/-- The line for a status is the same for all reporters that are not quiet, up to colors. -/
theorem plain_line (h : r.verbosity ≠ .quiet) (status : Status) (message : String) :
    ∃ line, r.line? status message = some line ∧
      plain line = plain (status.aligned ++ " " ++ message) := by
  have hquiet : r.isQuiet = false := decide_eq_false h
  unfold line?
  rw [hquiet]
  refine ⟨_, rfl, ?_⟩
  split
  · have hcolor : 'm' ∉ (toString status.color).toList := by cases status <;> decide
    have hword : '\x1b' ∉ status.aligned.toList := by cases status <;> decide
    rw [String.append_assoc, plain_paint hcolor hword, String.append_assoc]
  · rfl

end Reporter

/-- The lines of progress on a trace. -/
def Machine.progress (trace : List Event) : List String :=
  trace.filterMap fun
    | .reported line => some line
    | _ => none

@[simp] theorem Machine.progress_append (xs ys : List Event) :
    progress (xs ++ ys) = progress xs ++ progress ys :=
  List.filterMap_append

namespace Pipeline

open Autotree.Action Machine Stateful BuildTree

variable {reporter : Option Reporter} {account : List Item} {entered : List Stage}
  {captions : Stage → Option (Status × String)}

/-- The statuses of an account, with their messages. -/
def reports (account : List Item) : List (Status × String) :=
  account.filterMap fun
    | .report status message => some (status, message)
    | _ => none

@[simp] theorem reports_append (account more : List Item) :
    reports (account ++ more) = reports account ++ reports more :=
  List.filterMap_append

theorem Narrative.not_reported (h : Narrative captions entered account) (line : String) :
    Item.event (.reported line) ∉ account := by
  induction h with
  | nil => exact List.not_mem_nil
  | @minor e stages rest h _ ih =>
    rw [List.mem_cons, not_or]
    exact ⟨fun heq => by cases heq; exact h, ih⟩
  | timing _ ih => simpa using ih
  | entered _ _ ih => simpa using ih
  | announced _ _ ih => simpa using ih
  | ran _ ih => simpa using ih

/-- What is reported are the statuses of the account. -/
theorem progress_tell (h : ∀ line, Item.event (.reported line) ∉ account)
    (reporter : Option Reporter) :
    progress (tell reporter account) =
      (reports account).filterMap fun x => reporter.bind (·.line? x.1 x.2) := by
  induction account with
  | nil => rfl
  | cons item account ih =>
    have hitem : progress (item.tell reporter) =
        (reports [item]).filterMap fun x => reporter.bind (·.line? x.1 x.2) := by
      cases item with
      | event e =>
        cases e with
        | reported line => exact absurd List.mem_cons_self (h line)
        | _ => rfl
      | report status message =>
        cases hline : reporter.bind (·.line? status message) <;>
          simp [Item.tell, progress, reports, hline]
      | timing command elapsed => cases reporter <;> rfl
    rw [← List.singleton_append, tell_append, reports_append, progress_append,
      List.filterMap_append, ih fun line hline => h line (List.mem_cons_of_mem _ hline), ← hitem]
    simp [tell]

/-- The line that is due when something happens in a run, if one is. -/
def lineFor (m : Manifest) (project : Project) : Event → Option String
  | .entered .configure => some ("   Resolving options from " ++ m.build.config)
  | .entered .generate => some ("  Generating " ++ project.name ++ " v" ++ project.version)
  | .entered .build => some ("    Building " ++ project.name)
  | .ran command _ => some ("     Running " ++ " ".intercalate (command.program :: command.args))
  | _ => none

/-- The statuses of an account are in the lines that are due. -/
theorem Narrative.map_reports {m : Manifest} {project : Project}
    (h : Narrative (captionsOf m project) entered account) :
    (reports account).map (fun x => x.1.aligned ++ " " ++ x.2) =
      (tell none account).filterMap (lineFor m project) := by
  induction h with
  | nil => rfl
  | @minor e stages rest h hrest ih =>
    have hnone : lineFor m project e = none := by cases e <;> first | rfl | exact h.elim
    exact ih.trans (List.filterMap_cons_none hnone).symm
  | timing hrest ih => exact ih
  | @entered stage stages rest h hrest ih =>
    have hnone : lineFor m project (.entered stage) = none := by
      cases stage <;> first | rfl | cases h
    exact ih.trans (List.filterMap_cons_none hnone).symm
  | @announced stage status message stages rest h hrest ih =>
    have hline : lineFor m project (.entered stage) =
        some (status.aligned ++ " " ++ message) := by
      cases stage <;> cases h <;> simp [lineFor, Status.aligned_eq, ← String.append_assoc]
    exact (congrArg _ ih).trans (List.filterMap_cons_some hline).symm
  | @ran command quiet stages rest hrest ih =>
    have hline : lineFor m project (.ran command quiet) =
        some (Status.running.aligned ++ " " ++ command.text) := by
      rw [Status.aligned_eq]
      rfl
    exact (congrArg _ ih).trans (List.filterMap_cons_some hline).symm

/-- A command among some events stands behind those in front that are no command. -/
theorem eq_append_of_ran {front rest before after : List Event} {command : Command} {quiet : Bool}
    (hfront : calls front = []) (h : front ++ rest = before ++ .ran command quiet :: after) :
    ∃ behind, before = front ++ behind ∧ rest = behind ++ .ran command quiet :: after := by
  rcases List.append_eq_append_iff.1 h with ⟨behind, rfl, hrest⟩ | ⟨more, rfl, hmore⟩
  · exact ⟨behind, rfl, hrest⟩
  · cases more with
    | nil => exact ⟨[], by simp, by simpa using hmore.symm⟩
    | cons e more =>
      obtain ⟨rfl, -⟩ := List.cons.inj hmore
      rw [calls_append] at hfront
      exact absurd (List.append_eq_nil_iff.1 hfront).2 (List.cons_ne_nil _ _)

theorem getLast?_append_of_some {front behind : List Event} {e : Event}
    (h : behind.getLast? = some e) : (front ++ behind).getLast? = some e := by
  rw [List.getLast?_append, h, Option.some_or]

/-- The line for a command stands right before it. -/
theorem Narrative.before_ran (h : Narrative captions entered account) {before after : List Event}
    {command : Command} {quiet : Bool} {line : String}
    (htell : tell reporter account = before ++ .ran command quiet :: after)
    (hline : reporter.bind (·.line? .running command.text) = some line) :
    before.getLast? = some (.reported line) := by
  induction h generalizing before with
  | nil => exact absurd htell.symm (List.append_ne_nil_of_right_ne_nil _ (List.cons_ne_nil _ _))
  | @minor e stages rest h hrest ih =>
    have hfront : calls [e] = [] := by cases e <;> first | rfl | exact h.elim
    obtain ⟨behind, rfl, hbehind⟩ := eq_append_of_ran hfront htell
    exact getLast?_append_of_some (ih hbehind)
  | @timing text elapsed stages rest hrest ih =>
    have hfront : calls ((Item.timing text elapsed).tell reporter) = [] := by
      cases reporter <;> rfl
    obtain ⟨behind, rfl, hbehind⟩ := eq_append_of_ran hfront htell
    exact getLast?_append_of_some (ih hbehind)
  | @entered stage stages rest h hrest ih =>
    have hfront : calls [.entered stage] = [] := rfl
    obtain ⟨behind, rfl, hbehind⟩ := eq_append_of_ran hfront htell
    exact getLast?_append_of_some (ih hbehind)
  | @announced stage status message stages rest h hrest ih =>
    have hfront : calls (.entered stage :: (Item.report status message).tell reporter) = [] := by
      cases h : reporter.bind (·.line? status message) <;> simp [Item.tell, h, calls]
    have hsplit : tell reporter (.event (.entered stage) :: .report status message :: rest) =
      .entered stage :: (Item.report status message).tell reporter ++ tell reporter rest := rfl
    obtain ⟨behind, rfl, hbehind⟩ := eq_append_of_ran hfront (hsplit ▸ htell)
    exact getLast?_append_of_some (ih hbehind)
  | @ran command' quiet' stages rest hrest ih =>
    have hfront : calls ((Item.report .running command'.text).tell reporter) = [] := by
      cases h : reporter.bind (·.line? .running command'.text) <;> simp [Item.tell, h, calls]
    obtain ⟨behind, rfl, hbehind⟩ := eq_append_of_ran hfront htell
    cases behind with
    | nil =>
      obtain ⟨⟨⟩, -⟩ := List.cons.inj hbehind
      simp [Item.tell, hline]
    | cons e behind =>
      obtain ⟨rfl, hrest⟩ := List.cons.inj hbehind
      have hlast : ([Event.ran command' quiet'] ++ behind).getLast? = some (.reported line) :=
        getLast?_append_of_some (ih hrest)
      exact getLast?_append_of_some hlast

/-! ## All reporters -/

theorem tell_sublist (reporter : Option Reporter) (account : List Item) :
    (tell none account).Sublist (tell reporter account) := by
  induction account with
  | nil => exact List.Sublist.refl _
  | cons item account ih =>
    have hitem : (item.tell none).Sublist (item.tell reporter) := by
      cases item with
      | event e => exact List.Sublist.refl _
      | report status message => exact List.nil_sublist _
      | timing command elapsed => exact List.nil_sublist _
    exact hitem.append ih

/-- Events that are the same, apart from notes to the user that some have in addition. -/
structure SameWork (events told : List Event) : Prop where
  sublist : events.Sublist told
  activity_eq : activity told = activity events
  stages_eq : stages told = stages events
  calls_eq : calls told = calls events
  hostCalls_eq : hostCalls told = hostCalls events

theorem sameWork_tell (reporter : Option Reporter) (account : List Item) :
    SameWork (tell none account) (tell reporter account) := by
  have hactivity := activity_tell reporter account
  refine ⟨tell_sublist reporter account, hactivity, ?_, ?_, ?_⟩
  · rw [← stages_activity, hactivity, stages_activity]
  · rw [← calls_activity, hactivity, calls_activity]
  · rw [← hostCalls_activity, hactivity, hostCalls_activity]

theorem progress_of_quiet (hnot : ∀ line, Item.event (.reported line) ∉ account)
    (hquiet : ∀ r ∈ reporter, r.verbosity = .quiet) : progress (tell reporter account) = [] := by
  rw [progress_tell hnot, List.filterMap_eq_nil_iff]
  intro x _
  cases reporter with
  | none => rfl
  | some r => exact Reporter.line?_of_quiet (hquiet r rfl)

theorem progress_of_uncolored (hnot : ∀ line, Item.event (.reported line) ∉ account)
    {r : Reporter} (hr : r.verbosity ≠ .quiet) (hcolor : r.useColor = false) :
    progress (tell (some r) account) =
      (reports account).map fun x => x.1.aligned ++ " " ++ x.2 := by
  rw [progress_tell hnot, ← List.filterMap_eq_map]
  congr 1
  funext x
  exact Reporter.line?_of_uncolored hr hcolor

theorem progress_of_loud (hnot : ∀ line, Item.event (.reported line) ∉ account) {r : Reporter}
    (hr : r.verbosity ≠ .quiet) : (progress (tell (some r) account)).map plain =
      ((reports account).map fun x => x.1.aligned ++ " " ++ x.2).map plain := by
  rw [progress_tell hnot, List.map_filterMap, List.map_map, ← List.filterMap_eq_map]
  congr 1
  funext x
  obtain ⟨line, hline, hplain⟩ := Reporter.plain_line hr x.1 x.2
  simp [hline, hplain]

/-- The runner of the system answers a command whatever happened before. -/
theorem ignoresNotes_system (sys : System) : sys.runner.IgnoresNotes :=
  fun _ _ _ _ _ _ => rfl

/-- A run does the same whoever listens: it has the same result, store and clock, and with a
reporter its trace has nothing more than status lines and timings in it.  Without one, or with one
that is quiet, there are no lines.  All others print one line when the run begins, one when the tree
is prepared, one when the build begins and one right before each command. -/
theorem run_whoever_listens (p : Pipeline) (hrunner : p.runner.IgnoresNotes) (m : Manifest)
    (last : Stage) (σ : Machine) :
    ∃ result store clock account project entered,
      (∀ reporter, (p.reportingTo reporter).run m last σ =
          (result, ⟨store, σ.trace ++ tell reporter account, clock⟩) ∧
        SameWork (tell none account) (tell reporter account)) ∧
      (∀ reporter : Option Reporter, (∀ r ∈ reporter, r.verbosity = .quiet) →
        progress (tell reporter account) = []) ∧
      (∀ r : Reporter, r.verbosity ≠ .quiet →
        (r.useColor = false → progress (tell (some r) account) =
          (tell none account).filterMap (lineFor m project)) ∧
        (progress (tell (some r) account)).map plain =
          ((tell none account).filterMap (lineFor m project)).map plain ∧
        ∀ before command quiet after,
          tell (some r) account = before ++ .ran command quiet :: after →
          ∃ line, before.getLast? = some (.reported line) ∧
            plain line =
              plain ("     Running " ++ " ".intercalate (command.program :: command.args))) ∧
      stages (tell none account) = .configure :: entered ∧
      (∀ e, (prepare m p.host σ).1 = .error e → entered = []) ∧
      ∀ prepared, (prepare m p.host σ).1 = .ok prepared → project = prepared.project ∧
        ∃ rest, entered = .generate :: rest ∧ rest <+: [.bootstrap, .build, .done] := by
  obtain ⟨result, store, clock, account, ⟨project, entered, hrecounts⟩, hrun⟩ :=
    told_run hrunner m last σ
  have hnot := hrecounts.narrative.not_reported
  have hlines := hrecounts.narrative.map_reports
  obtain ⟨later, hentered⟩ : ∃ later, entered = .configure :: later := by
    cases hprepare : (prepare m p.host σ).1 with
    | error e => exact ⟨[], hrecounts.of_error e hprepare⟩
    | ok prepared =>
      obtain ⟨-, rest, hentered, -⟩ := hrecounts.of_ok prepared hprepare
      exact ⟨_, hentered⟩
  refine ⟨result, store, clock, account, project, later, ?_, ?_, ?_, ?_, ?_, ?_⟩
  · exact fun reporter => ⟨hrun reporter σ.trace rfl, sameWork_tell reporter account⟩
  · exact fun reporter hquiet => progress_of_quiet hnot hquiet
  · intro r hr
    rw [← hlines]
    refine ⟨progress_of_uncolored hnot hr, progress_of_loud hnot hr, ?_⟩
    intro before command quiet after htell
    obtain ⟨line, hline, hplain⟩ := Reporter.plain_line hr .running command.text
    rw [Status.aligned_eq] at hplain
    exact ⟨line, hrecounts.narrative.before_ran htell hline, hplain⟩
  · exact hrecounts.narrative.stagesOf_eq.trans hentered
  · intro e hprepare
    exact (List.cons.inj (hentered.symm.trans (hrecounts.of_error e hprepare))).2
  · intro prepared hprepare
    obtain ⟨hproject, rest, hall, hrest⟩ := hrecounts.of_ok prepared hprepare
    exact ⟨hproject, rest, (List.cons.inj (hentered.symm.trans hall)).2, hrest⟩

/-- The small project on a system without programs. -/
def bareSystem : Pipeline where
  runner := System.runner ⟨["/usr/bin"]⟩
  host := readyHost

theorem prepare_small : (prepare smallManifest readyHost smallMachine).1 =
    .ok ⟨smallGeneration.project, smallGeneration.defines⟩ := by
  decide +kernel

theorem small_runs_whoever_listens :
    (makeFails.runner.IgnoresNotes ∧ ∃ account,
      (makeFails.run smallManifest .build smallMachine).2.trace = tell none account ∧
      progress (tell (some ⟨.quiet, true⟩) account) = [] ∧
      progress (tell (some ⟨.normal, false⟩) account) =
        ["   Resolving options from conf/build.cfg", "  Generating p v0.0",
          "     Running aclocal", "     Running autoconf", "     Running autoheader",
          "     Running touch NEWS README AUTHORS ChangeLog",
          "     Running automake --add-missing", "     Running autoreconf -if",
          "    Building p", "     Running ./configure", "     Running make"]) ∧
    bareSystem.runner.IgnoresNotes ∧ ∃ account,
      (bareSystem.run smallManifest .build smallMachine).2.trace = tell none account ∧
      progress (tell (some ⟨.verbose, false⟩) account) =
        ["   Resolving options from conf/build.cfg", "  Generating p v0.0",
          "     Running aclocal"] := by
  constructor
  · have hrunner : makeFails.runner.IgnoresNotes := fun _ _ _ _ _ _ => rfl
    obtain ⟨result, store, clock, account, project, entered, hrun, hquiet, hloud, -, -, hproject⟩ :=
      run_whoever_listens makeFails hrunner smallManifest .build smallMachine
    obtain ⟨rfl, -⟩ := hproject _ prepare_small
    have hsame : makeFails.reportingTo none = makeFails := rfl
    have hsilent := (hrun none).1
    rw [hsame] at hsilent
    have htrace : (makeFails.run smallManifest .build smallMachine).2.trace =
        tell none account := by
      rw [hsilent]
      exact List.nil_append _
    refine ⟨hrunner, account, htrace, hquiet (some _) (by simp), ?_⟩
    rw [(hloud ⟨.normal, false⟩ (by decide)).1 rfl, ← htrace]
    decide +kernel
  · have hrunner : bareSystem.runner.IgnoresNotes := ignoresNotes_system _
    obtain ⟨result, store, clock, account, project, entered, hrun, -, hloud, -, -, hproject⟩ :=
      run_whoever_listens bareSystem hrunner smallManifest .build smallMachine
    obtain ⟨rfl, -⟩ := hproject _ prepare_small
    have hsame : bareSystem.reportingTo none = bareSystem := rfl
    have hsilent := (hrun none).1
    rw [hsame] at hsilent
    have htrace : (bareSystem.run smallManifest .build smallMachine).2.trace =
        tell none account := by
      rw [hsilent]
      exact List.nil_append _
    refine ⟨hrunner, account, htrace, ?_⟩
    rw [(hloud ⟨.verbose, false⟩ (by decide)).1 rfl, ← htrace]
    decide +kernel

end Pipeline

end Autotree
