import Autotree.Proofs.Pipeline.Parts

/-!
# Running steps

Whether a step is fatal depends on its policy and on what the runner answers (`Step.Fatal`).  A
runner answers a command from everything that happened before, so its answers can be read off
the trace of a run: `answers` replays them.  A list of steps is run up to the first that is fatal
(`StopsAt`), and what is issued are the commands of the steps up to there (`runSteps_conducted`).
-/

namespace Autotree

/-- Why a step is fatal when its command comes out as told, if it is. -/
def Step.fatal? (step : Step) : Outcome → Option StepError
  | .notStarted causes => some (.notStarted step.text (": ".intercalate causes))
  | .ended status =>
    if status.success then none
    else if step.policy = .quietIgnore then none
    else some (.failed step.text status)

/-- The call of a step in a directory: its command, and whether the output is discarded. -/
def Step.call (step : Step) (cwd : String) : Command × Bool :=
  (step.command cwd, step.policy.isQuiet)

namespace Step

variable {step : Step} {outcome : Outcome} {e : StepError}

/-- The error of a step that is fatal.  A command that ends does so with an exit code other than
zero or by a signal, and the policy does not ignore it; a command that cannot be started is fatal
under every policy. -/
inductive Fatal (step : Step) : Outcome → StepError → Prop where
  | failed {status : ExitStatus} (hstatus : status.code ≠ some 0)
    (hpolicy : step.policy = .loud ∨ step.policy = .quiet) :
    Fatal step (.ended status) (.failed (" ".intercalate (step.program :: step.args)) status)
  | notStarted {causes : List String} :
    Fatal step (.notStarted causes)
      (.notStarted (" ".intercalate (step.program :: step.args)) (": ".intercalate causes))

/-- A step that is fatal when its command comes out as told. -/
def IsFatal (step : Step) (outcome : Outcome) : Prop :=
  ∃ e, step.Fatal outcome e

theorem text_eq (step : Step) : step.text = " ".intercalate (step.program :: step.args) := by
  change String.join (step.program :: step.args.map (" " ++ ·)) = _
  generalize step.program = word
  induction step.args generalizing word with
  | nil => simp
  | cons arg args ih => simp [String.intercalate_cons_cons, ← ih, String.append_assoc]

theorem call_eq (step : Step) (cwd : String) :
    step.call cwd = (⟨step.program, step.args, some cwd⟩, decide (step.policy ≠ .loud)) := by
  rw [call, command]
  cases step.policy <;> rfl

theorem fatal?_eq_some_iff : step.fatal? outcome = some e ↔ step.Fatal outcome e := by
  constructor
  · intro h
    cases outcome with
    | notStarted causes =>
      obtain rfl := Option.some.inj h
      rw [text_eq]
      exact .notStarted
    | ended status =>
      simp only [fatal?] at h
      split at h
      · cases h
      · next hsuccess =>
        split at h
        · cases h
        · next hpolicy =>
          obtain rfl := Option.some.inj h
          rw [text_eq]
          refine .failed (by simpa [ExitStatus.success] using hsuccess) ?_
          cases hstep : step.policy with
          | loud => exact .inl rfl
          | quiet => exact .inr rfl
          | quietIgnore => exact absurd hstep hpolicy
  · intro h
    cases h with
    | notStarted => rw [fatal?, text_eq]
    | @failed status hstatus hpolicy =>
      have hsuccess : ¬status.success = true := by simpa [ExitStatus.success] using hstatus
      have hignore : step.policy ≠ .quietIgnore := by
        rcases hpolicy with h | h <;> simp [h]
      simp only [fatal?, if_neg hsuccess, if_neg hignore, text_eq]

theorem fatal?_eq_none_iff : step.fatal? outcome = none ↔ ¬step.IsFatal outcome := by
  simp [IsFatal, ← fatal?_eq_some_iff, Option.eq_none_iff_forall_ne_some]

end Step

/-- Answers to the first of the steps, one for each, up to the first that makes its step fatal. -/
inductive StopsAt : List Step → List Answer → Option StepError → Prop
  | done : StopsAt [] [] none
  | fatal {step : Step} {rest : List Step} {answer : Answer} {e : StepError}
      (h : step.fatal? answer.outcome = some e) : StopsAt (step :: rest) [answer] (some e)
  | next {step : Step} {rest : List Step} {answer : Answer} {given : List Answer}
      {r : Option StepError} (h : step.fatal? answer.outcome = none)
      (hrest : StopsAt rest given r) : StopsAt (step :: rest) (answer :: given) r

namespace StopsAt

variable {steps others : List Step} {given more : List Answer} {r : Option StepError}
  {e : StepError}

theorem length_le (h : StopsAt steps given r) : given.length ≤ steps.length := by
  induction h with
  | done => exact Nat.le_refl _
  | fatal h => simp
  | next h hrest ih => simpa using ih

theorem append_of_none (h : StopsAt steps given none) (h' : StopsAt others more r) :
    StopsAt (steps ++ others) (given ++ more) r := by
  generalize hnone : (none : Option StepError) = r' at h
  induction h with
  | done => exact h'
  | fatal h => cases hnone
  | next h hrest ih => exact .next h (ih hnone)

theorem append_of_some (h : StopsAt steps given (some e)) :
    StopsAt (steps ++ others) given (some e) := by
  generalize hsome : some e = r' at h
  induction h with
  | done => cases hsome
  | fatal h => exact .fatal h
  | next h hrest ih => exact .next h (ih hsome)

/-- No step is fatal exactly if each was answered so that it is not. -/
theorem eq_none_iff (h : StopsAt steps given r) :
    r = none ↔ given.length = steps.length ∧
      ∀ x ∈ steps.zip given, x.1.fatal? x.2.outcome = none := by
  induction h with
  | done => simp
  | fatal h =>
    simp [h]
  | next h hrest ih =>
    rw [ih]
    simp [h]

/-- A step that is fatal is the last that was answered, and the first that is. -/
theorem exists_of_some (h : StopsAt steps given (some e)) :
    ∃ front step answer, steps.zip given = front ++ [(step, answer)] ∧
      step.fatal? answer.outcome = some e ∧ ∀ x ∈ front, x.1.fatal? x.2.outcome = none := by
  generalize hsome : some e = r' at h
  induction h with
  | done => cases hsome
  | fatal h =>
    cases hsome
    exact ⟨[], _, _, by simp, h, by simp⟩
  | next h hrest ih =>
    obtain ⟨front, step, answer, hzip, hfatal, hfront⟩ := ih hsome
    refine ⟨_ :: front, step, answer, by rw [List.zip_cons_cons, hzip]; rfl, hfatal, ?_⟩
    intro x hx
    rcases List.mem_cons.1 hx with rfl | hx
    · exact h
    · exact hfront x hx

/-- The error of a run of steps is that of the last step which was answered, when it is the first
that is fatal. -/
theorem eq_some_iff (h : StopsAt steps given r) :
    r = some e ↔ ∃ front step answer, steps.zip given = front ++ [(step, answer)] ∧
      step.fatal? answer.outcome = some e ∧ ∀ x ∈ front, x.1.fatal? x.2.outcome = none := by
  refine ⟨fun hr => (hr ▸ h).exists_of_some, ?_⟩
  rintro ⟨front, step, answer, hzip, hfatal, -⟩
  cases r with
  | none =>
    have hnone := (h.eq_none_iff.1 rfl).2 (step, answer) (by simp [hzip])
    cases hnone.symm.trans hfatal
  | some e' =>
    obtain ⟨front', step', answer', hzip', hfatal', -⟩ := h.exists_of_some
    obtain ⟨-, hlast⟩ := List.append_inj' (hzip.symm.trans hzip') rfl
    cases hlast
    exact hfatal'.symm.trans hfatal

end StopsAt

/-! ## The answers of a runner -/

namespace Runner

open Machine

/-- The answers that a runner gave to the commands among some events, when the events before these
and the store then are known. -/
def answers (runner : Runner) : Store → List Event → List Event → List Answer
  | _, _, [] => []
  | s, before, .ran command quiet :: rest =>
    let answer := runner.run before s command quiet
    answer :: runner.answers answer.store (before ++ [.ran command quiet]) rest
  | s, before, event :: rest => runner.answers s (before ++ [event]) rest

/-- The store that the last of some answers left. -/
def storeAfter (s : Store) (given : List Answer) : Store :=
  given.foldl (fun _ answer => answer.store) s

variable {runner : Runner} {s : Store} {before events more : List Event}

theorem answers_append (runner : Runner) (s : Store) (before events more : List Event) :
    runner.answers s before (events ++ more) = runner.answers s before events ++
      runner.answers (storeAfter s (runner.answers s before events)) (before ++ events) more := by
  induction events generalizing s before with
  | nil => simp [answers, storeAfter]
  | cons event events ih =>
    rw [List.cons_append]
    cases event <;> simp [answers, ih, storeAfter]

theorem answers_of_calls (h : calls events = []) : runner.answers s before events = [] := by
  induction events generalizing before with
  | nil => rfl
  | cons event events ih =>
    cases event with
    | ran command quiet => cases h
    | _ => exact ih h

end Runner

namespace Pipeline

open Autotree.Action Machine Stateful

variable {p : Pipeline} {σ τ υ : Machine} {steps others : List Step} {cwd : String}

theorem forM_emit_apply {α : Type} (l : List α) (event : α → Event) (σ : Machine) :
    l.forM (fun a => emit (event a)) σ = (.ok (), { σ with trace := σ.trace ++ l.map event }) := by
  induction l generalizing σ with
  | nil => simp [List.forM]
  | cons a l ih =>
    change (emit (event a) >>= fun _ => l.forM fun a => emit (event a)) σ = _
    rw [bind_ok (emit_apply ..), ih]
    simp

/-- What a runner says and shows of a command. -/
def output (answer : Answer) : List Event :=
  answer.notes.map (.logged .debug) ++ answer.printed.map fun x => .printed x.1 x.2

theorem isOutput_output (answer : Answer) : ∀ e ∈ output answer, e.IsOutput := by
  intro e he
  rcases List.mem_append.1 he with he | he <;> obtain ⟨_, -, rfl⟩ := List.mem_map.1 he <;> trivial

/-- The machine once a command was answered. -/
def answered (command : Command) (quiet : Bool) (answer : Answer) (σ : Machine) : Machine where
  store := answer.store
  trace := σ.trace ++ .ran command quiet :: output answer
  clock := σ.clock.add answer.elapsed

theorem runCommand_apply (p : Pipeline) (command : Command) (quiet : Bool) (σ : Machine) :
    p.runCommand command quiet σ = (.ok (p.runner.run σ.trace σ.store command quiet),
      answered command quiet (p.runner.run σ.trace σ.store command quiet) σ) := by
  unfold runCommand
  rw [get_bind]
  generalize p.runner.run σ.trace σ.store command quiet = answer
  have hnotes := forM_emit_apply answer.notes (.logged .debug)
  have hprinted := forM_emit_apply answer.printed fun x => .printed x.1 x.2
  rw [bind_ok (emit_apply ..)]
  refine (bind_ok (hnotes _)).trans ((bind_ok (hprinted _)).trans ?_)
  rw [modify_bind]
  simp [output, answered]

/-- The result of steps, from the error of the one that is fatal. -/
def resultOf : Option StepError → Except Failure Unit
  | some e => .error (.step e)
  | none => .ok ()

theorem judge_apply (step : Step) (status : ExitStatus) (σ : Machine) :
    ∃ τ, judge step status σ = (resultOf (step.fatal? (.ended status)), τ) ∧
      Steady Event.IsOutput σ τ := by
  unfold judge Step.fatal?
  by_cases hsuccess : status.success = true
  · simp only [hsuccess, if_true]
    exact ⟨σ, rfl, .refl σ⟩
  · simp only [hsuccess, if_false, Bool.false_eq_true]
    by_cases hignore : step.policy = .quietIgnore
    · simp only [hignore, if_true]
      obtain ⟨τ, hlog, hτ⟩ := (Reads.log .debug
        ("ignoring failure of `" ++ step.text ++ "` (" ++ status.text ++ ")")).apply σ
      exact ⟨τ, hlog, hτ.mono fun _ => Event.IsNote.isOutput⟩
    · simp only [hignore, if_false]
      exact ⟨σ, rfl, .refl σ⟩

/-- A command was run with output before and after it, and left the store that its answer tells. -/
structure Issued (runner : Runner) (command : Command) (quiet : Bool) (answer : Answer)
    (notes output : List Event) (σ τ : Machine) : Prop where
  answer_eq : answer = runner.run (σ.trace ++ notes) σ.store command quiet
  trace_eq : τ.trace = σ.trace ++ (notes ++ .ran command quiet :: output)
  store_eq : τ.store = answer.store
  isOutput_notes : ∀ e ∈ notes, e.IsOutput
  isOutput_output : ∀ e ∈ output, e.IsOutput

/-- More output may come after a command. -/
theorem Issued.steady {runner : Runner} {command : Command} {quiet : Bool} {answer : Answer}
    {notes output : List Event} (h : Issued runner command quiet answer notes output σ τ)
    (h' : Steady Event.IsOutput τ υ) :
    ∃ more, Issued runner command quiet answer notes (output ++ more) σ υ := by
  obtain ⟨more, htrace, hmore⟩ := h'.grown
  refine ⟨more, h.answer_eq, ?_, h'.store_eq.trans h.store_eq, h.isOutput_notes, ?_⟩
  · rw [htrace, h.trace_eq]
    simp
  · intro e he
    rcases List.mem_append.1 he with he | he
    · exact h.isOutput_output e he
    · exact hmore e he

/-- What is left of a step once its command was answered. -/
def conclude (p : Pipeline) (step : Step) (answer : Answer) : Action Unit :=
  match answer.outcome with
  | .notStarted causes => throw (.step (.notStarted step.text (": ".intercalate causes)))
  | .ended status => do
    if step.policy.isQuiet && p.reporter.isSome then
      Action.log .debug ("`" ++ step.text ++ "` took " ++ answer.elapsed.text)
    judge step status

theorem runStep_eq (p : Pipeline) (step : Step) (cwd : String) :
    p.runStep step cwd = (do
      p.report .running step.text
      let answer ← p.runCommand (step.command cwd) step.policy.isQuiet
      p.conclude step answer) := by
  rfl

/-- Concluding a step only writes to the log. -/
theorem conclude_apply (p : Pipeline) (step : Step) (answer : Answer) (σ : Machine) :
    ∃ τ, p.conclude step answer σ = (resultOf (step.fatal? answer.outcome), τ) ∧
      Steady Event.IsOutput σ τ := by
  unfold conclude
  cases answer.outcome with
  | notStarted causes => exact ⟨σ, rfl, .refl σ⟩
  | ended status =>
    simp only
    split
    · obtain ⟨υ, hlog, hυ⟩ := (Reads.log .debug
        ("`" ++ step.text ++ "` took " ++ answer.elapsed.text)).apply σ
      obtain ⟨τ, hjudge, hτ⟩ := judge_apply step status υ
      rw [bind_ok hlog]
      exact ⟨τ, hjudge, (hυ.mono fun _ => Event.IsNote.isOutput).trans hτ⟩
    · exact judge_apply step status σ

theorem runStep_apply (p : Pipeline) (step : Step) (cwd : String) (σ : Machine) :
    ∃ τ notes output answer, p.runStep step cwd σ = (resultOf (step.fatal? answer.outcome), τ) ∧
      Issued p.runner (step.command cwd) step.policy.isQuiet answer notes output σ τ := by
  obtain ⟨ρ, hreport, hρ⟩ := (reads_report p .running step.text).apply σ
  obtain ⟨notes, htrace, hnotes⟩ := (hρ.mono fun _ => Event.IsNote.isOutput).grown
  have hrun := p.runCommand_apply (step.command cwd) step.policy.isQuiet ρ
  let answer := p.runner.run ρ.trace ρ.store (step.command cwd) step.policy.isQuiet
  let υ := answered (step.command cwd) step.policy.isQuiet answer ρ
  obtain ⟨τ, hconclude, hτ⟩ := p.conclude_apply step answer υ
  have hissued : Issued p.runner (step.command cwd) step.policy.isQuiet answer notes
      (output answer) σ υ := by
    refine ⟨by rw [← htrace, ← hρ.store_eq], ?_, rfl, hnotes, isOutput_output answer⟩
    simp [υ, answered, htrace]
  obtain ⟨more, hall⟩ := hissued.steady hτ
  refine ⟨τ, notes, output answer ++ more, answer, ?_, hall⟩
  rw [runStep_eq, bind_ok hreport, bind_ok hrun, hconclude]

/-- A run of steps issues the calls of the first of them, up to the one that is fatal. -/
structure Conducted (runner : Runner) (steps : List Step) (cwd : String) (σ τ : Machine)
    (r : Option StepError) (events : List Event) : Prop where
  trace_eq : τ.trace = σ.trace ++ events
  store_eq : τ.store = Runner.storeAfter σ.store (runner.answers σ.store σ.trace events)
  stops : StopsAt steps (runner.answers σ.store σ.trace events) r
  calls_eq : calls events =
    (steps.take (runner.answers σ.store σ.trace events).length).map (·.call cwd)

namespace Conducted

variable {runner : Runner} {r : Option StepError} {e : StepError} {events mid more : List Event}

/-- Steps that were run without a fatal one, then others after something that issues nothing. -/
theorem append (h : Conducted runner steps cwd σ τ none events) (htrace : υ.trace = τ.trace ++ mid)
    (hstore : υ.store = τ.store) (hmid : calls mid = []) {ω : Machine}
    (h' : Conducted runner others cwd υ ω r more) :
    Conducted runner (steps ++ others) cwd σ ω r (events ++ mid ++ more) := by
  have hanswers : runner.answers σ.store σ.trace (events ++ mid ++ more) =
      runner.answers σ.store σ.trace events ++ runner.answers υ.store υ.trace more := by
    rw [Runner.answers_append, Runner.answers_append, Runner.answers_of_calls hmid,
      List.append_nil, ← h.store_eq, hstore, htrace, h.trace_eq, List.append_assoc]
  -- without a fatal step all of the first ones were answered
  have hlength : (runner.answers σ.store σ.trace events).length = steps.length :=
    (h.stops.eq_none_iff.1 rfl).1
  constructor
  · rw [h'.trace_eq, htrace, h.trace_eq]
    simp
  · rw [h'.store_eq, hanswers, hstore, h.store_eq]
    simp [Runner.storeAfter]
  · rw [hanswers]
    exact h.stops.append_of_none h'.stops
  · rw [hanswers, calls_append, calls_append, h.calls_eq, h'.calls_eq, hmid, List.append_nil,
      List.length_append, hlength, List.take_length, List.take_length_add_append, List.map_append]

/-- What comes after the steps does not matter once one of them is fatal. -/
theorem append_of_some (h : Conducted runner steps cwd σ τ (some e) events) :
    Conducted runner (steps ++ others) cwd σ τ (some e) events := by
  refine ⟨h.trace_eq, h.store_eq, h.stops.append_of_some, ?_⟩
  rw [h.calls_eq, List.take_append_of_le_length h.stops.length_le]

/-- Something that issues nothing may come before and after the steps. -/
theorem surround {before after : List Event} {κ ω : Machine}
    (h : Conducted runner steps cwd σ τ r events) (hκ : σ.trace = κ.trace ++ before)
    (hstore : σ.store = κ.store) (hbefore : calls before = []) (hω : ω.trace = τ.trace ++ after)
    (hstore' : ω.store = τ.store) (hafter : calls after = []) :
    Conducted runner steps cwd κ ω r (before ++ events ++ after) := by
  have hanswers : runner.answers κ.store κ.trace (before ++ events ++ after) =
      runner.answers σ.store σ.trace events := by
    rw [Runner.answers_append, Runner.answers_append, Runner.answers_of_calls hbefore,
      Runner.answers_of_calls hafter, List.append_nil, List.nil_append, hκ, hstore]
    rfl
  refine ⟨?_, ?_, ?_, ?_⟩
  · rw [hω, h.trace_eq, hκ]
    simp
  · rw [hanswers, hstore', h.store_eq, hstore]
  · rw [hanswers]
    exact h.stops
  · rw [hanswers, calls_append, calls_append, hbefore, hafter, h.calls_eq]
    simp

end Conducted

theorem runStep_conducted (p : Pipeline) (step : Step) (cwd : String) (σ : Machine) :
    ∃ τ r events, p.runStep step cwd σ = (resultOf r, τ) ∧
      Conducted p.runner [step] cwd σ τ r events ∧ stages events = [] := by
  obtain ⟨τ, notes, output, answer, hrun, hanswer, htrace, hstore, hnotes, houtput⟩ :=
    p.runStep_apply step cwd σ
  have hnotes' : calls notes = [] := calls_eq_nil fun e he => .inr (hnotes e he)
  have houtput' : calls output = [] := calls_eq_nil fun e he => .inr (houtput e he)
  have hanswers : p.runner.answers σ.store σ.trace
      (notes ++ .ran (step.command cwd) step.policy.isQuiet :: output) = [answer] := by
    rw [Runner.answers_append, Runner.answers_of_calls hnotes']
    simp only [Runner.answers, Runner.storeAfter, List.foldl_nil, List.nil_append,
      Runner.answers_of_calls houtput', ← hanswer]
  refine ⟨τ, _, _, hrun, ⟨htrace, ?_, ?_, ?_⟩, ?_⟩
  · rw [hanswers, hstore]
    rfl
  · rw [hanswers]
    cases hfatal : step.fatal? answer.outcome with
    | none => exact .next hfatal .done
    | some e => exact .fatal hfatal
  · rw [hanswers, calls_append, hnotes']
    change _ :: calls output = _
    rw [houtput']
    rfl
  · rw [stages_append, stages_eq_nil fun e he => .inr (hnotes e he)]
    change stages output = _
    exact stages_eq_nil fun e he => .inr (houtput e he)

theorem runSteps_conducted (p : Pipeline) (steps : List Step) (cwd : String) (σ : Machine) :
    ∃ τ r events, p.runSteps steps cwd σ = (resultOf r, τ) ∧
      Conducted p.runner steps cwd σ τ r events ∧ stages events = [] := by
  induction steps generalizing σ with
  | nil =>
    exact ⟨σ, none, [], rfl, ⟨(List.append_nil _).symm, rfl, .done, rfl⟩, rfl⟩
  | cons step steps ih =>
    obtain ⟨τ, r, events, hstep, hconducted, hstages⟩ := p.runStep_conducted step cwd σ
    change ∃ ω r events, (p.runStep step cwd >>= fun _ => p.runSteps steps cwd) σ = _ ∧ _
    cases r with
    | some e =>
      rw [bind_error hstep]
      exact ⟨τ, some e, events, rfl, hconducted.append_of_some, hstages⟩
    | none =>
      obtain ⟨ω, r, more, hsteps, hmore, hstages'⟩ := ih τ
      rw [bind_ok hstep]
      refine ⟨ω, r, events ++ [] ++ more, hsteps,
        hconducted.append (List.append_nil _).symm rfl rfl hmore, ?_⟩
      rw [List.append_nil, stages_append, hstages, hstages']
      rfl

end Pipeline

end Autotree
