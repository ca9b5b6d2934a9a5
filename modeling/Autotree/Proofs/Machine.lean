import Autotree.Proofs.Action

/-!
# What a run leaves on the machine

The trace of a machine only grows.  `Grown P` says that it grew by events that `P` allows, and
`Steady P` that nothing but the trace changed.  An action that only reads (`Reads`) has a result
that is a function of the store, and notes aside it leaves the machine as it was; so it can be
replaced by that function wherever a result is computed.
-/

namespace Autotree

namespace Event

/-- An event that only tells the user something. -/
def IsNote : Event → Prop
  | logged _ _ => True
  | reported _ => True
  | _ => False

/-- A note, or a question put to the host. -/
def IsInquiry : Event → Prop
  | lookedUp _ => True
  | askedVersion _ => True
  | e => e.IsNote

/-- A note, or what a command printed. -/
def IsOutput : Event → Prop
  | printed _ _ => True
  | e => e.IsNote

theorem IsNote.isInquiry {e : Event} (h : e.IsNote) : e.IsInquiry := by
  cases e <;> first | exact h | trivial

theorem IsNote.isOutput {e : Event} (h : e.IsNote) : e.IsOutput := by
  cases e <;> first | exact h | trivial

end Event

instance : DecidablePred Event.IsNote
  | .logged _ _ => isTrue trivial
  | .reported _ => isTrue trivial
  | .entered _ => isFalse id
  | .lookedUp _ => isFalse id
  | .askedVersion _ => isFalse id
  | .ran _ _ => isFalse id
  | .printed _ _ => isFalse id

/-- The events of a trace that are more than notes to the user. -/
def Machine.activity (trace : List Event) : List Event :=
  trace.filter (¬·.IsNote)

namespace Machine

variable {P Q : Event → Prop} {σ τ υ : Machine} {xs ys events : List Event}

/-! ## Projections of the trace -/

@[simp] theorem stages_append (xs ys : List Event) : stages (xs ++ ys) = stages xs ++ stages ys :=
  List.filterMap_append

@[simp] theorem calls_append (xs ys : List Event) : calls (xs ++ ys) = calls xs ++ calls ys :=
  List.filterMap_append

@[simp] theorem hostCalls_append (xs ys : List Event) :
    hostCalls (xs ++ ys) = hostCalls xs ++ hostCalls ys :=
  List.filterMap_append

@[simp] theorem activity_append (xs ys : List Event) :
    activity (xs ++ ys) = activity xs ++ activity ys :=
  List.filter_append _ _

theorem activity_eq_nil (h : ∀ e ∈ events, e.IsNote) : activity events = [] :=
  List.filter_eq_nil_iff.2 fun e he => by simpa using h e he

/-- Neither questions nor output enter a stage. -/
theorem stages_eq_nil (h : ∀ e ∈ events, e.IsInquiry ∨ e.IsOutput) : stages events = [] := by
  apply List.filterMap_eq_nil_iff.2
  intro e he
  have hpassive := h e he
  cases e <;> first | rfl | (rcases hpassive with h | h <;> cases h)

/-- Neither questions nor output issue a command. -/
theorem calls_eq_nil (h : ∀ e ∈ events, e.IsInquiry ∨ e.IsOutput) : calls events = [] := by
  apply List.filterMap_eq_nil_iff.2
  intro e he
  have hpassive := h e he
  cases e <;> first | rfl | (rcases hpassive with h | h <;> cases h)

theorem hostCalls_eq_nil (h : ∀ e ∈ events, e.IsNote) : hostCalls events = [] := by
  apply List.filterMap_eq_nil_iff.2
  intro e he
  have hnote := h e he
  cases e <;> first | rfl | cases hnote

/-! ## Growth -/

/-- The trace grew by events that the predicate allows. -/
def Grown (P : Event → Prop) (σ τ : Machine) : Prop :=
  ∃ events, τ.trace = σ.trace ++ events ∧ ∀ e ∈ events, P e

theorem Grown.refl (σ : Machine) : Grown P σ σ :=
  ⟨[], (List.append_nil _).symm, nofun⟩

theorem Grown.trans (h : Grown P σ τ) (h' : Grown P τ υ) : Grown P σ υ := by
  obtain ⟨xs, hxs, hP⟩ := h
  obtain ⟨ys, hys, hP'⟩ := h'
  refine ⟨xs ++ ys, by rw [hys, hxs, List.append_assoc], ?_⟩
  intro e he
  rcases List.mem_append.1 he with he | he
  · exact hP e he
  · exact hP' e he

theorem Grown.mono (hPQ : ∀ e, P e → Q e) (h : Grown P σ τ) : Grown Q σ τ := by
  obtain ⟨xs, hxs, hP⟩ := h
  exact ⟨xs, hxs, fun e he => hPQ e (hP e he)⟩

theorem Grown.stages_eq (h : Grown Event.IsInquiry σ τ) : stages τ.trace = stages σ.trace := by
  obtain ⟨xs, hxs, hP⟩ := h
  rw [hxs, stages_append, stages_eq_nil fun e he => .inl (hP e he), List.append_nil]

theorem Grown.calls_eq (h : Grown Event.IsInquiry σ τ) : calls τ.trace = calls σ.trace := by
  obtain ⟨xs, hxs, hP⟩ := h
  rw [hxs, calls_append, calls_eq_nil fun e he => .inl (hP e he), List.append_nil]

theorem Grown.hostCalls_eq (h : Grown Event.IsNote σ τ) :
    hostCalls τ.trace = hostCalls σ.trace := by
  obtain ⟨xs, hxs, hP⟩ := h
  rw [hxs, hostCalls_append, hostCalls_eq_nil hP, List.append_nil]

/-- The trace grew by these questions, notes aside. -/
def Asked (questions : List Event) (σ τ : Machine) : Prop :=
  ∃ events, τ.trace = σ.trace ++ events ∧ activity events = questions

theorem Asked.trans {questions questions' : List Event} (h : Asked questions σ τ)
    (h' : Asked questions' τ υ) : Asked (questions ++ questions') σ υ := by
  obtain ⟨xs, hxs, rfl⟩ := h
  obtain ⟨ys, hys, rfl⟩ := h'
  exact ⟨xs ++ ys, by rw [hys, hxs, List.append_assoc], activity_append xs ys⟩

theorem Grown.asked (h : Grown Event.IsNote σ τ) : Asked [] σ τ := by
  obtain ⟨xs, hxs, hP⟩ := h
  exact ⟨xs, hxs, activity_eq_nil hP⟩

theorem Asked.grown {questions : List Event} (hquestions : ∀ e ∈ questions, e.IsInquiry)
    (h : Asked questions σ τ) : Grown Event.IsInquiry σ τ := by
  obtain ⟨xs, hxs, rfl⟩ := h
  refine ⟨xs, hxs, fun e he => ?_⟩
  by_cases hnote : e.IsNote
  · exact hnote.isInquiry
  · exact hquestions e (List.mem_filter.2 ⟨he, decide_eq_true hnote⟩)

theorem Asked.activity_eq {questions : List Event} (h : Asked questions σ τ) :
    activity τ.trace = activity σ.trace ++ questions := by
  obtain ⟨xs, hxs, rfl⟩ := h
  rw [hxs, activity_append]

/-- Nothing but the trace changed, and that grew by events that the predicate allows. -/
structure Steady (P : Event → Prop) (σ τ : Machine) : Prop where
  store_eq : τ.store = σ.store
  clock_eq : τ.clock = σ.clock
  grown : Grown P σ τ

theorem Steady.refl (σ : Machine) : Steady P σ σ :=
  ⟨rfl, rfl, .refl σ⟩

theorem Steady.trans (h : Steady P σ τ) (h' : Steady P τ υ) : Steady P σ υ :=
  ⟨h'.store_eq.trans h.store_eq, h'.clock_eq.trans h.clock_eq, h.grown.trans h'.grown⟩

theorem Steady.mono (hPQ : ∀ e, P e → Q e) (h : Steady P σ τ) : Steady Q σ τ :=
  ⟨h.store_eq, h.clock_eq, h.grown.mono hPQ⟩

end Machine

namespace Action

open Machine Stateful

variable {α β : Type} {P Q : Event → Prop} {σ τ : Machine}

/-! ## Single actions -/

@[simp] theorem emit_apply (event : Event) (σ : Machine) :
    emit event σ = (.ok (), { σ with trace := σ.trace ++ [event] }) := rfl

@[simp] theorem log_apply (level : Level) (text : String) (σ : Machine) :
    log level text σ = (.ok (), { σ with trace := σ.trace ++ [.logged level text] }) := rfl

theorem onStore_apply (action : FileAction α) (σ : Machine) :
    onStore action σ = ((action σ.store).1, { σ with store := (action σ.store).2 }) := rfl

theorem onStore_eq {action : FileAction α} {r : Except Failure α}
    (h : onStore action σ = (r, τ)) :
    action σ.store = (r, τ.store) ∧ τ = { σ with store := τ.store } := by
  rcases hrun : action σ.store with ⟨r', s⟩
  rw [onStore_apply, hrun] at h
  cases h
  exact ⟨rfl, rfl⟩

theorem ofExcept_eq_ok {ε : Type} {wrap : ε → Failure} {r : Except ε α} {a : α}
    (h : ofExcept wrap r σ = (.ok a, τ)) : r = .ok a ∧ τ = σ := by
  cases r with
  | error e => cases h
  | ok b =>
    cases h
    exact ⟨rfl, rfl⟩

@[simp] theorem ofExcept_apply {ε : Type} (wrap : ε → Failure) (r : Except ε α) (σ : Machine) :
    ofExcept wrap r σ = (r.mapError wrap, σ) := by
  cases r <;> rfl

theorem eq_ok_of_mapError {ε : Type} {wrap : ε → Failure} {r : Except ε α} {a : α}
    (h : r.mapError wrap = .ok a) : r = .ok a := by
  cases r with
  | error e => cases h
  | ok b => exact congrArg _ (Except.ok.inj h)

theorem keeps_emit {event : Event} (h : P event) : Keeps (Steady P) (emit event) := fun σ =>
  ⟨rfl, rfl, [event], rfl, by simpa using h⟩

theorem keeps_log (level : Level) (text : String) : Keeps (Steady Event.IsNote) (log level text) :=
  keeps_emit trivial

theorem failsWith_onStore {R : Failure → Prop} {action : FileAction α} (h : FailsWith R action) :
    FailsWith R (onStore action) := by
  intro σ e τ hrun
  rw [onStore_apply, Prod.mk.injEq] at hrun
  exact h _ e _ (Prod.ext hrun.1 rfl)

/-! ## Actions that only read -/

/-- The action only reads: its result is a function of the store, and events aside it leaves the
machine as it was. -/
def Reads (P : Event → Prop) (ask : Store → Except Failure α) (x : Action α) : Prop :=
  ∀ σ, (x σ).1 = ask σ.store ∧ Steady P σ (x σ).2

variable {ask : Store → Except Failure α} {x : Action α}

theorem Reads.apply (h : Reads P ask x) (σ : Machine) :
    ∃ τ, x σ = (ask σ.store, τ) ∧ Steady P σ τ :=
  ⟨(x σ).2, Prod.ext (h σ).1 rfl, (h σ).2⟩

theorem Reads.mono (hPQ : ∀ e, P e → Q e) (h : Reads P ask x) : Reads Q ask x := fun σ =>
  ⟨(h σ).1, (h σ).2.mono hPQ⟩

theorem Reads.pure (a : α) : Reads P (fun _ => .ok a) (pure a : Action α) := fun σ =>
  ⟨rfl, .refl σ⟩

theorem Reads.ofExcept {ε : Type} (wrap : ε → Failure) (r : Except ε α) :
    Reads P (fun _ => r.mapError wrap) (ofExcept wrap r) := fun σ => by
  rw [ofExcept_apply]
  exact ⟨rfl, .refl σ⟩

theorem Reads.emit {event : Event} (h : P event) : Reads P (fun _ => .ok ()) (emit event) :=
  fun σ => ⟨rfl, keeps_emit h σ⟩

theorem Reads.log (level : Level) (text : String) :
    Reads Event.IsNote (fun _ => .ok ()) (log level text) :=
  Reads.emit trivial

theorem Reads.bind {f : α → Action β} {next : α → Store → Except Failure β}
    (hx : Reads P ask x) (hf : ∀ a, Reads P (next a) (f a)) :
    Reads P (fun s => ask s >>= fun a => next a s) (x >>= f) := by
  intro σ
  obtain ⟨τ, hrun, hsteady⟩ := hx.apply σ
  cases hask : ask σ.store with
  | error e =>
    rw [hask] at hrun
    rw [bind_error hrun]
    exact ⟨by simp only [hask]; rfl, hsteady⟩
  | ok a =>
    rw [hask] at hrun
    rw [bind_ok hrun]
    obtain ⟨hresult, hsteady'⟩ := hf a τ
    rw [hsteady.store_eq] at hresult
    exact ⟨by simp only [hask, hresult]; rfl, hsteady.trans hsteady'⟩

/-- An action without a result of its own, then one that only reads. -/
theorem Reads.andThen {y : Action PUnit} {f : PUnit → Action β} {next : Store → Except Failure β}
    (hy : Reads P (fun _ => .ok ⟨⟩) y) (hf : Reads P next (f ⟨⟩)) : Reads P next (y >>= f) :=
  hy.bind fun _ => hf

theorem Reads.get_bind {f : Machine → Action β} {next : Store → Except Failure β}
    (h : ∀ σ, (f σ σ).1 = next σ.store ∧ Steady P σ (f σ σ).2) : Reads P next (get >>= f) :=
  h

theorem Reads.forM {l : List β} {f : β → Action PUnit}
    (h : ∀ b ∈ l, Reads P (fun _ => .ok ⟨⟩) (f b)) : Reads P (fun _ => .ok ⟨⟩) (l.forM f) := by
  induction l with
  | nil => exact Reads.pure _
  | cons b l ih =>
    exact Reads.bind (h b List.mem_cons_self) fun _ =>
      ih fun c hc => h c (List.mem_cons_of_mem _ hc)

end Action

end Autotree
