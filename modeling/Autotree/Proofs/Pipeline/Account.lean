import Autotree.Proofs.BuildTree.Oblivious
import Autotree.Proofs.Pipeline.Schedule

/-!
# The account of a run

Two runs that differ in their reporters only do the same.  What they have in common is an account:
what happens, with the places where there is something to report (`Item`).  A reporter tells the
account in its own way (`tell`), and a run leaves what its reporter tells (`ToldAt`).  Commands are
the one place where what was told could matter later on; a runner that does not look at notes
(`IgnoresNotes`) answers alike.
-/

namespace Autotree

theorem Machine.stages_activity (trace : List Event) : stages (activity trace) = stages trace := by
  rw [stages, activity, List.filterMap_filter]
  refine List.filterMap_congr fun e _ => ?_
  cases e <;> simp [Event.IsNote]

theorem Machine.calls_activity (trace : List Event) : calls (activity trace) = calls trace := by
  rw [calls, activity, List.filterMap_filter]
  refine List.filterMap_congr fun e _ => ?_
  cases e <;> simp [Event.IsNote]

theorem Machine.hostCalls_activity (trace : List Event) :
    hostCalls (activity trace) = hostCalls trace := by
  rw [hostCalls, activity, List.filterMap_filter]
  refine List.filterMap_congr fun e _ => ?_
  cases e <;> simp [Event.IsNote]

/-- The answers of the runner do not depend on the notes to the user. -/
def Runner.IgnoresNotes (runner : Runner) : Prop :=
  ∀ before before' s command quiet, Machine.activity before = Machine.activity before' →
    runner.run before s command quiet = runner.run before' s command quiet

namespace Pipeline

open Autotree.Action Machine Stateful BuildTree

/-! ## Accounts -/

/-- What there is to tell of a run. -/
inductive Item where
  /-- Something that happens whoever listens. -/
  | event (event : Event)
  /-- A status to report. -/
  | report (status : Status) (message : String)
  /-- The time that a command took. -/
  | timing (command : String) (elapsed : Duration)

/-- What a run with a reporter, or with none, leaves on the trace. -/
def Item.tell (reporter : Option Reporter) : Item → List Event
  | event e => [e]
  | report status message =>
    ((reporter.bind (·.line? status message)).map Event.reported).toList
  | timing command elapsed =>
    if reporter.isSome then [.logged .debug ("`" ++ command ++ "` took " ++ elapsed.text)] else []

/-- An item that is no step of a run, and has nothing to report. -/
def Item.IsAside : Item → Prop
  | event e => e.IsMinor
  | report _ _ => False
  | timing _ _ => True

/-- What is told of an account. -/
def tell (reporter : Option Reporter) (account : List Item) : List Event :=
  account.flatMap (Item.tell reporter)

variable {reporter : Option Reporter} {account more : List Item} {σ τ : Machine}

@[simp] theorem tell_append (reporter : Option Reporter) (account more : List Item) :
    tell reporter (account ++ more) = tell reporter account ++ tell reporter more :=
  List.flatMap_append

@[simp] theorem tell_events (reporter : Option Reporter) (events : List Event) :
    tell reporter (events.map .event) = events := by
  simp [tell, List.flatMap_map, Item.tell]

theorem isAside_events {events : List Event} (h : ∀ e ∈ events, e.IsMinor) :
    ∀ item ∈ events.map Item.event, item.IsAside :=
  List.forall_mem_map.2 h

/-- All reporters tell of the same activity. -/
theorem activity_tell (reporter : Option Reporter) (account : List Item) :
    activity (tell reporter account) = activity (tell none account) := by
  induction account with
  | nil => rfl
  | cons item account ih =>
    have hitem : activity (item.tell reporter) = activity (item.tell none) := by
      cases item with
      | event e => rfl
      | report status message =>
        cases h : reporter.bind (·.line? status message) <;>
          simp [Item.tell, h, activity, Event.IsNote]
      | timing command elapsed => cases reporter <;> simp [Item.tell, activity, Event.IsNote]
    change activity (item.tell reporter ++ tell reporter account) =
      activity (item.tell none ++ tell none account)
    rw [activity_append, activity_append, hitem, ih]

/-! ## Actions with an account -/

section

variable {α β : Type} {x : Option Reporter → Action α} {f : α → Option Reporter → Action β}
  {Q Q' : Except Failure α → List Item → Prop} {R : Except Failure β → List Item → Prop}

/-- From a machine on, and from any other one that differs from it in notes only, the action does
the same for all reporters, and what each leaves is told from one account. -/
def ToldAt (σ : Machine) (Q : Except Failure α → List Item → Prop)
    (x : Option Reporter → Action α) : Prop :=
  ∃ r s c account, Q r account ∧ ∀ reporter trace, activity trace = activity σ.trace →
    x reporter ⟨σ.store, trace, σ.clock⟩ = (r, ⟨s, trace ++ tell reporter account, c⟩)

theorem ToldAt.mono (h : ToldAt σ Q x) (hQ : ∀ r account, Q r account → Q' r account) :
    ToldAt σ Q' x := by
  obtain ⟨r, s, c, account, hq, hrun⟩ := h
  exact ⟨r, s, c, account, hQ r account hq, hrun⟩

/-- What comes second begins where the first without a reporter ends. -/
theorem ToldAt.bind (hx : ToldAt σ Q x)
    (herror : ∀ e account τ, x none σ = (.error e, τ) → Q (.error e) account → R (.error e) account)
    (hok : ∀ a account τ, x none σ = (.ok a, τ) → Q (.ok a) account →
      ToldAt τ (fun r more => R r (account ++ more)) (f a)) :
    ToldAt σ R fun reporter => x reporter >>= fun a => f a reporter := by
  obtain ⟨r, s, c, account, hq, hrun⟩ := hx
  have hsilent := hrun none σ.trace rfl
  cases r with
  | error e =>
    exact ⟨.error e, s, c, account, herror e account _ hsilent hq,
      fun reporter trace htrace => bind_error (hrun reporter trace htrace)⟩
  | ok a =>
    obtain ⟨r, s', c', more, hr, hrun'⟩ := hok a account _ hsilent hq
    refine ⟨r, s', c', account ++ more, hr, fun reporter trace htrace => ?_⟩
    have hactivity : activity (trace ++ tell reporter account) =
        activity (σ.trace ++ tell none account) := by
      rw [activity_append, activity_append, htrace, activity_tell]
    simp only [bind_ok (hrun reporter trace htrace), hrun' reporter _ hactivity, tell_append,
      List.append_assoc]

theorem ToldAt.pure (a : α) (hq : Q (.ok a) []) : ToldAt σ Q fun _ => (pure a : Action α) :=
  ⟨.ok a, σ.store, σ.clock, [], hq, fun reporter trace _ => by
    change _ = (_, Machine.mk _ (trace ++ []) _)
    rw [List.append_nil]
    rfl⟩

theorem ToldAt.throw {e : Failure} (hq : Q (.error e) []) :
    ToldAt σ Q fun _ => (throw e : Action α) :=
  ⟨.error e, σ.store, σ.clock, [], hq, fun reporter trace _ => by
    change _ = (_, Machine.mk _ (trace ++ []) _)
    rw [List.append_nil]
    rfl⟩

theorem ToldAt.of_oblivious {y : Action α} (hy : Oblivious y)
    (hq : ∀ account, (∀ item ∈ account, item.IsAside) → Q (y σ).1 account) :
    ToldAt σ Q fun _ => y := by
  obtain ⟨r, s, events, hevents, hrun⟩ := hy σ.store
  have hresult : (y σ).1 = r := congrArg Prod.fst (hrun σ.trace σ.clock)
  refine ⟨r, s, σ.clock, events.map .event, hresult ▸ hq _ (isAside_events hevents), ?_⟩
  intro reporter trace _
  rw [tell_events]
  exact hrun trace σ.clock

end

/-! ## Narratives -/

/-- The stages that an account enters. -/
def stagesOf (account : List Item) : List Stage :=
  stages (tell none account)

/-- An account that enters these stages one after the other.  It reports a stage, if that has a
caption, right where it is entered, and a command right before it is run, and nothing else. -/
inductive Narrative (captions : Stage → Option (Status × String)) : List Stage → List Item → Prop
  | nil : Narrative captions [] []
  | minor {e : Event} {stages : List Stage} {rest : List Item} (h : e.IsMinor)
    (hrest : Narrative captions stages rest) : Narrative captions stages (.event e :: rest)
  | timing {command : String} {elapsed : Duration} {stages : List Stage} {rest : List Item}
    (hrest : Narrative captions stages rest) :
    Narrative captions stages (.timing command elapsed :: rest)
  | entered {stage : Stage} {stages : List Stage} {rest : List Item} (h : captions stage = none)
    (hrest : Narrative captions stages rest) :
    Narrative captions (stage :: stages) (.event (.entered stage) :: rest)
  | announced {stage : Stage} {status : Status} {message : String} {stages : List Stage}
    {rest : List Item} (h : captions stage = some (status, message))
    (hrest : Narrative captions stages rest) :
    Narrative captions (stage :: stages)
      (.event (.entered stage) :: .report status message :: rest)
  | ran {command : Command} {quiet : Bool} {stages : List Stage} {rest : List Item}
    (hrest : Narrative captions stages rest) :
    Narrative captions stages (.report .running command.text :: .event (.ran command quiet) :: rest)

namespace Narrative

variable {captions : Stage → Option (Status × String)} {entered later : List Stage}

theorem append (h : Narrative captions entered account) (h' : Narrative captions later more) :
    Narrative captions (entered ++ later) (account ++ more) := by
  induction h with
  | nil => exact h'
  | minor h _ ih => exact .minor h ih
  | timing _ ih => exact .timing ih
  | entered h _ ih => exact .entered h ih
  | announced h _ ih => exact .announced h ih
  | ran _ ih => exact .ran ih

theorem of_asides (h : ∀ item ∈ account, item.IsAside) : Narrative captions [] account := by
  induction account with
  | nil => exact .nil
  | cons item account ih =>
    obtain ⟨hitem, haccount⟩ := List.forall_mem_cons.1 h
    cases item with
    | event e => exact .minor hitem (ih haccount)
    | report status message => exact hitem.elim
    | timing command elapsed => exact .timing (ih haccount)

theorem stagesOf_eq (h : Narrative captions entered account) : stagesOf account = entered := by
  induction h with
  | nil => rfl
  | @minor e entered rest h _ ih =>
    rw [← ih]
    cases e <;> first | rfl | exact h.elim
  | timing _ ih => exact ih
  | entered _ _ ih => exact congrArg (_ :: ·) ih
  | announced _ _ ih => exact congrArg (_ :: ·) ih
  | ran _ ih => exact ih

end Narrative

variable {captions : Stage → Option (Status × String)}

/-! ## The account of a step -/

/-- The pipeline with another reporter. -/
def reportingTo (p : Pipeline) (reporter : Option Reporter) : Pipeline :=
  { p with reporter }

variable {p : Pipeline}

theorem report_apply (p : Pipeline) (status : Status) (message : String) (σ : Machine) :
    p.report status message σ =
      (.ok (), { σ with trace := σ.trace ++ (Item.report status message).tell p.reporter }) := by
  unfold report
  simp only [Item.tell]
  cases p.reporter.bind (·.line? status message) with
  | none =>
    rw [Option.map_none, Option.toList_none, List.append_nil]
    rfl
  | some line => rfl

theorem isMinor_output (answer : Answer) : ∀ e ∈ output answer, e.IsMinor := by
  intro e he
  rcases List.mem_append.1 he with he | he <;> obtain ⟨_, -, rfl⟩ := List.mem_map.1 he <;> trivial

theorem told_runCommand (hrunner : p.runner.IgnoresNotes) (command : Command) (quiet : Bool) :
    ToldAt σ (fun r account => ∃ answer, r = .ok answer ∧
      account = .event (.ran command quiet) :: (output answer).map .event)
      fun reporter => (p.reportingTo reporter).runCommand command quiet := by
  let answer := p.runner.run σ.trace σ.store command quiet
  refine ⟨.ok answer, answer.store, σ.clock.add answer.elapsed,
    .event (.ran command quiet) :: (output answer).map .event, ⟨answer, rfl, rfl⟩, ?_⟩
  intro reporter trace htrace
  have hanswer : (p.reportingTo reporter).runner.run trace σ.store command quiet = answer :=
    hrunner _ _ _ _ _ htrace
  have hrun := (p.reportingTo reporter).runCommand_apply command quiet ⟨σ.store, trace, σ.clock⟩
  rw [hanswer] at hrun
  have htell : tell reporter (.event (.ran command quiet) :: (output answer).map .event) =
      .ran command quiet :: output answer :=
    tell_events reporter (.ran command quiet :: output answer)
  rw [htell]
  exact hrun

theorem told_report (p : Pipeline) (status : Status) (message : String) :
    ToldAt σ (fun r account => r = .ok () ∧ account = [.report status message])
      fun reporter => (p.reportingTo reporter).report status message := by
  refine ⟨.ok (), σ.store, σ.clock, [.report status message], ⟨rfl, rfl⟩, ?_⟩
  intro reporter trace _
  simp only [report_apply, tell, List.flatMap_singleton]
  rfl

theorem oblivious_judge (step : Step) (status : ExitStatus) : Oblivious (judge step status) := by
  unfold judge
  split
  · exact .pure ()
  · exact .ite (.log _ _) (.throw _)

theorem told_conclude (p : Pipeline) (step : Step) (answer : Answer) :
    ToldAt σ (fun _ account => ∀ item ∈ account, item.IsAside)
      fun reporter => (p.reportingTo reporter).conclude step answer := by
  unfold conclude
  cases answer.outcome with
  | notStarted causes => exact .throw nofun
  | ended status =>
    obtain ⟨r, s, events, hevents, hrun⟩ := oblivious_judge step status σ.store
    let timings : List Item :=
      if step.policy.isQuiet then [.timing step.text answer.elapsed] else []
    have htimings : ∀ item ∈ timings, item.IsAside := by
      cases h : step.policy.isQuiet <;> simp [timings, h, Item.IsAside]
    refine ⟨r, s, σ.clock, timings ++ events.map .event,
      List.forall_mem_append.2 ⟨htimings, isAside_events hevents⟩, fun reporter trace _ => ?_⟩
    rw [tell_append, tell_events, ← List.append_assoc, ← hrun]
    cases h : step.policy.isQuiet <;> cases reporter <;>
      simp [reportingTo, h, timings, tell, Item.tell]
    rfl

/-- A step is reported right before its command is run, and enters no stage. -/
theorem told_runStep (hrunner : p.runner.IgnoresNotes) (step : Step) (cwd : String) :
    ToldAt σ (fun _ account => Narrative captions [] account)
      fun reporter => (p.reportingTo reporter).runStep step cwd := by
  simp only [runStep_eq]
  refine (told_report p .running step.text).bind (fun e account τ _ h => nomatch h.1) ?_
  rintro _ _ τ - ⟨-, rfl⟩
  refine (told_runCommand hrunner _ _).bind (fun e account τ _ ⟨_, h, _⟩ => nomatch h) ?_
  rintro answer _ υ - ⟨_, ⟨⟩, rfl⟩
  refine (told_conclude p step answer).mono fun r account haccount => ?_
  have hrest : ∀ item ∈ (output answer).map .event ++ account, item.IsAside :=
    List.forall_mem_append.2 ⟨isAside_events (isMinor_output answer), haccount⟩
  have htext : step.text = (step.command cwd).text := Step.text_eq step
  rw [htext]
  exact .ran (.of_asides hrest)

theorem told_runSteps (hrunner : p.runner.IgnoresNotes) (steps : List Step) (cwd : String) :
    ToldAt σ (fun _ account => Narrative captions [] account)
      fun reporter => (p.reportingTo reporter).runSteps steps cwd := by
  induction steps generalizing σ with
  | nil => exact .pure () .nil
  | cons step steps ih =>
    change ToldAt σ _ fun reporter => (p.reportingTo reporter).runStep step cwd >>= fun _ =>
      (p.reportingTo reporter).runSteps steps cwd
    refine (told_runStep hrunner step cwd).bind (fun _ _ _ _ h => h) fun _ account τ _ h => ?_
    exact ih.mono fun r more h' => h.append h'

/-! ## The account of a run -/

/-- What is reported of the stages of a run. -/
def captionsOf (m : Manifest) (project : Project) : Stage → Option (Status × String)
  | .configure => some (.resolving, "options from " ++ m.build.config)
  | .generate => some (.generating, project.name ++ " v" ++ project.version)
  | .bootstrap => none
  | .build => some (.building, project.name)
  | .done => none

/-- The account of entering a stage, without what is reported of it. -/
def entry (stage : Stage) : List Item :=
  [.event (.logged .info ("stage: " ++ stage.word)), .event (.entered stage)]

theorem told_enter (stage : Stage) :
    ToldAt σ (fun r account => r = .ok () ∧ account = entry stage) fun _ => enter stage :=
  ⟨.ok (), σ.store, σ.clock, entry stage, ⟨rfl, rfl⟩, fun _ trace _ =>
    enter_apply stage ⟨σ.store, trace, σ.clock⟩⟩

theorem told_enter_report (p : Pipeline) (stage : Stage) (status : Status) (message : String) :
    ToldAt σ (fun r account => r = .ok () ∧ account = entry stage ++ [.report status message])
      fun reporter => enter stage >>= fun _ => (p.reportingTo reporter).report status message := by
  refine (told_enter stage).bind (fun _ _ _ _ h => nomatch h.1) ?_
  rintro _ _ τ - ⟨-, rfl⟩
  refine (told_report p status message).mono ?_
  rintro r account ⟨hr, rfl⟩
  exact ⟨hr, rfl⟩

theorem Narrative.entry {stage : Stage} (h : captions stage = none) :
    Narrative captions [stage] (entry stage) :=
  .minor trivial (.entered h .nil)

theorem Narrative.entry_report {stage : Stage} {status : Status} {message : String}
    (h : captions stage = some (status, message)) :
    Narrative captions [stage] (Pipeline.entry stage ++ [.report status message]) :=
  .minor trivial (.announced h .nil)

/-- Entering a stage and running its steps. -/
theorem told_stage {x : Option Reporter → Action Unit} {stage : Stage} {opening : List Item}
    (hx : ToldAt σ (fun r account => r = .ok () ∧ account = opening) x)
    (hopening : Narrative captions [stage] opening) (hrunner : p.runner.IgnoresNotes)
    (steps : List Step) (cwd : String) :
    ToldAt σ (fun _ account => Narrative captions [stage] account)
      fun reporter => x reporter >>= fun _ => (p.reportingTo reporter).runSteps steps cwd := by
  refine hx.bind (fun _ _ _ _ h => nomatch h.1) ?_
  rintro _ _ τ - ⟨-, rfl⟩
  exact (told_runSteps hrunner steps cwd).mono fun r account h => hopening.append h

theorem told_build (hrunner : p.runner.IgnoresNotes) (m : Manifest) (g : Generation) :
    ToldAt σ (fun _ account => ∃ stages, stages <+: [.build, .done] ∧
        Narrative (captionsOf m g.project) stages account) fun reporter => (do
      enter .build
      (p.reportingTo reporter).report .building g.project.name
      (p.reportingTo reporter).runSteps Step.buildSteps g.dir
      enter .done) := by
  have hopening : Narrative (captionsOf m g.project) [.build] _ := .entry_report rfl
  have hdone : Narrative (captionsOf m g.project) [.done] _ := .entry rfl
  have hreported : ToldAt σ _ _ := told_enter_report p .build .building g.project.name
  have hall := (told_stage hreported hopening hrunner Step.buildSteps g.dir).bind
    (R := fun _ account => ∃ stages, stages <+: [.build, .done] ∧
      Narrative (captionsOf m g.project) stages account) (f := fun _ _ => enter .done) ?_ ?_
  · simpa only [bind_assoc] using hall
  · exact fun e account _ _ h => ⟨[.build], ⟨_, rfl⟩, h⟩
  · intro _ account τ _ h
    refine (told_enter .done).mono ?_
    rintro r more ⟨-, rfl⟩
    exact ⟨[.build, .done], List.prefix_refl _, h.append hdone⟩

/-- After the tree is generated, no stage is left out and none is entered twice. -/
theorem told_back (hrunner : p.runner.IgnoresNotes) (m : Manifest) (last : Stage) (g : Generation) :
    ToldAt σ (fun _ account => ∃ stages, stages <+: [.bootstrap, .build, .done] ∧
        Narrative (captionsOf m g.project) stages account)
      fun reporter => (p.reportingTo reporter).back last g := by
  by_cases hbootstrap : Stage.bootstrap ≤ last
  · simp only [back_of_bootstrap hbootstrap]
    have hopening : Narrative (captionsOf m g.project) [.bootstrap] _ := .entry rfl
    refine (told_stage (told_enter .bootstrap) hopening hrunner _ _).bind
      (fun e account _ _ h => ⟨[.bootstrap], ⟨_, rfl⟩, h⟩) fun _ account τ _ h => ?_
    by_cases hbuild : Stage.build ≤ last
    · simp only [if_pos hbuild]
      refine (told_build hrunner m g).mono ?_
      rintro r more ⟨stages, hstages, h'⟩
      exact ⟨.bootstrap :: stages, List.cons_prefix_cons.2 ⟨rfl, hstages⟩, h.append h'⟩
    · simp only [if_neg hbuild]
      exact .pure () ⟨[.bootstrap], ⟨_, rfl⟩, h.append .nil⟩
  · simp only [back_of_front hbootstrap]
    exact .pure () ⟨[], List.nil_prefix, .nil⟩

theorem told_generating (p : Pipeline) (m : Manifest) (ready : Prepared) :
    ToldAt σ (fun r account => Narrative (captionsOf m ready.project) [.generate] account ∧
        ∀ g, r = .ok g → g.project = ready.project)
      fun reporter => (p.reportingTo reporter).generating m ready := by
  have hopening : Narrative (captionsOf m ready.project) [.generate] _ := .entry_report rfl
  simp only [generating, ← bind_assoc]
  refine (told_enter_report p .generate .generating _).bind (fun _ _ _ _ h => nomatch h.1) ?_
  rintro _ _ τ - ⟨-, rfl⟩
  refine .of_oblivious (oblivious_write m ready) fun account h => ?_
  refine ⟨hopening.append (.of_asides h), fun g hg => ?_⟩
  exact (descriptors_of_write (Prod.ext hg rfl)).1

/-- What follows once the tree is prepared. -/
theorem told_after_prepare (hrunner : p.runner.IgnoresNotes) (m : Manifest) (last : Stage)
    (ready : Prepared) :
    ToldAt σ (fun _ account => ∃ rest, rest <+: [.bootstrap, .build, .done] ∧
        Narrative (captionsOf m ready.project) (.generate :: rest) account)
      fun reporter => (p.reportingTo reporter).generating m ready >>= fun g =>
        (p.reportingTo reporter).back last g >>= fun _ => pure g := by
  refine (told_generating p m ready).bind
    (fun _ _ _ _ h => ⟨[], List.nil_prefix, h.1⟩) fun g account τ _ h => ?_
  obtain ⟨hnarrative, hproject⟩ := h
  have hback := told_back (σ := τ) hrunner m last g
  rw [hproject g rfl] at hback
  refine hback.bind (fun e more _ _ h => ?_) fun _ more _ _ h => .pure g ?_
  all_goals obtain ⟨rest, hrest, h⟩ := h
  · exact ⟨rest, hrest, hnarrative.append h⟩
  · rw [List.append_nil]
    exact ⟨rest, hrest, hnarrative.append h⟩

/-- The account of a run that enters these stages, when it is known what came of preparing the
tree. -/
structure Recounts (m : Manifest) (prepared : Except Failure Prepared) (project : Project)
    (stages : List Stage) (account : List Item) : Prop where
  narrative : Narrative (captionsOf m project) stages account
  of_error : ∀ e, prepared = .error e → stages = [.configure]
  of_ok : ∀ ready, prepared = .ok ready → project = ready.project ∧
    ∃ rest, stages = .configure :: .generate :: rest ∧ rest <+: [.bootstrap, .build, .done]

theorem told_run (hrunner : p.runner.IgnoresNotes) (m : Manifest) (last : Stage) (σ : Machine) :
    ToldAt σ (fun _ account => ∃ project stages,
        Recounts m (prepare m p.host σ).1 project stages account)
      fun reporter => (p.reportingTo reporter).run m last := by
  have hopening {project : Project} : Narrative (captionsOf m project) [.configure] _ :=
    .entry_report rfl
  simp only [run_eq, front, bind_assoc]
  refine (told_enter_report p .configure .resolving _).bind (fun _ _ _ _ h => nomatch h.1) ?_
  rintro _ _ τ hτ ⟨-, rfl⟩
  have hstore : τ.store = σ.store := by
    obtain ⟨ρ, hρ, hentered, -⟩ := (p.reportingTo none).enter_report_apply .configure .resolving
      ("options from " ++ m.build.config) σ
    cases hτ.symm.trans hρ
    exact hentered.store_eq
  have hsame := (oblivious_prepare m p.host).result_eq hstore.symm
  rw [hsame]
  have hprepare : ToldAt τ (fun _ account => ∀ item ∈ account, item.IsAside)
      fun _ => prepare m p.host := .of_oblivious (oblivious_prepare m p.host) fun _ h => h
  refine hprepare.bind ?_ ?_
  · intro e account υ hrun haccount
    refine ⟨⟨"", "", "", []⟩, [.configure], hopening.append (.of_asides haccount),
      fun _ _ => rfl, ?_⟩
    rw [hrun]
    nofun
  · intro ready account υ hrun haccount
    rw [hrun]
    refine (told_after_prepare hrunner m last ready).mono fun r more h => ?_
    obtain ⟨rest, hrest, h⟩ := h
    refine ⟨ready.project, _, hopening.append ((Narrative.of_asides haccount).append h), nofun, ?_⟩
    rintro _ ⟨⟩
    exact ⟨rfl, rest, rfl, hrest⟩

end Pipeline

end Autotree
