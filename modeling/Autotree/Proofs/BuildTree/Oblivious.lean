import Autotree.Proofs.BuildTree.Write

/-!
# Actions that do not look at the trace

Generating a build tree never looks at what happened before: what it does is determined by the
store alone (`Oblivious`), whatever the trace and the clock are.  So it does the same in two runs
that tell the user different things.
-/

namespace Autotree

/-- An event that is no step of a run: no stage, no command and no line that reports one. -/
def Event.IsMinor : Event → Prop
  | reported _ => False
  | entered _ => False
  | ran _ _ => False
  | _ => True

namespace Action

open Machine Stateful

variable {α β : Type} {x : Action α} {f : α → Action β}

/-- What the action does depends on the store only, and it takes no step of a run. -/
def Oblivious (x : Action α) : Prop :=
  ∀ s : Store, ∃ r s' events, (∀ e ∈ events, e.IsMinor) ∧
    ∀ trace clock, x ⟨s, trace, clock⟩ = (r, ⟨s', trace ++ events, clock⟩)

namespace Oblivious

theorem pure (a : α) : Oblivious (pure a : Action α) := fun s =>
  ⟨.ok a, s, [], nofun, fun trace clock => by rw [List.append_nil]; rfl⟩

theorem throw (e : Failure) : Oblivious (throw e : Action α) := fun s =>
  ⟨.error e, s, [], nofun, fun trace clock => by rw [List.append_nil]; rfl⟩

theorem emit {event : Event} (h : event.IsMinor) : Oblivious (emit event) := fun s =>
  ⟨.ok (), s, [event], by simpa using h, fun _ _ => rfl⟩

theorem log (level : Level) (text : String) : Oblivious (log level text) :=
  emit trivial

theorem onStore (action : FileAction α) : Oblivious (onStore action) := fun s =>
  ⟨(action s).1, (action s).2, [], nofun, fun trace clock => by
    rw [List.append_nil, onStore_apply]⟩

theorem setStore (s : Store) :
    Oblivious (modify fun m => { m with store := s } : Action PUnit) := fun _ =>
  ⟨.ok (), s, [], nofun, fun trace clock => by rw [List.append_nil]; rfl⟩

theorem ofExcept {ε : Type} (wrap : ε → Failure) (r : Except ε α) :
    Oblivious (ofExcept wrap r) := by
  cases r with
  | ok a => exact pure a
  | error e => exact throw (wrap e)

theorem bind (hx : Oblivious x) (hf : ∀ a, Oblivious (f a)) : Oblivious (x >>= f) := by
  intro s
  obtain ⟨r, s', events, hevents, hrun⟩ := hx s
  cases r with
  | error e =>
    exact ⟨.error e, s', events, hevents, fun trace clock => bind_error (hrun trace clock)⟩
  | ok a =>
    obtain ⟨r, s'', more, hmore, hrun'⟩ := hf a s'
    refine ⟨r, s'', events ++ more, ?_, fun trace clock => ?_⟩
    · exact List.forall_mem_append.2 ⟨hevents, hmore⟩
    · rw [bind_ok (hrun trace clock), hrun', List.append_assoc]

/-- The machine may be asked for its store. -/
theorem get_bind {f : Machine → Action β} (hf : ∀ m, Oblivious (f m))
    (hstore : ∀ s trace clock, f ⟨s, trace, clock⟩ = f ⟨s, [], .zero⟩) :
    Oblivious (get >>= f) := by
  intro s
  obtain ⟨r, s', events, hevents, hrun⟩ := hf ⟨s, [], .zero⟩ s
  refine ⟨r, s', events, hevents, fun trace clock => ?_⟩
  rw [Stateful.get_bind, hstore, hrun]

theorem ite {c : Prop} [Decidable c] {y : Action α} (hx : Oblivious x) (hy : Oblivious y) :
    Oblivious (if c then x else y) := by
  split
  · exact hx
  · exact hy

theorem forM {l : List β} {f : β → Action PUnit} (hf : ∀ b, Oblivious (f b)) :
    Oblivious (l.forM f) := by
  induction l with
  | nil => exact pure _
  | cons b l ih => exact bind (hf b) fun _ => ih

theorem mapM {l : List α} (hf : ∀ a, Oblivious (f a)) : Oblivious (l.mapM f) := by
  induction l with
  | nil =>
    rw [List.mapM_nil]
    exact pure _
  | cons a l ih =>
    rw [List.mapM_cons]
    exact bind (hf a) fun _ => bind ih fun _ => pure _

theorem result_eq (hx : Oblivious x) {σ τ : Machine} (hstore : σ.store = τ.store) :
    (x σ).1 = (x τ).1 := by
  obtain ⟨s, trace, clock⟩ := σ
  obtain ⟨s', trace', clock'⟩ := τ
  obtain rfl : s = s' := hstore
  obtain ⟨r, s', events, -, hrun⟩ := hx s
  rw [hrun, hrun]

end Oblivious

end Action

open Autotree.Action

/-! ## Hosts -/

namespace Host

theorem oblivious_lookUp (host : Host) (name : String) : Oblivious (host.lookUp name) := by
  refine .bind (.emit trivial) fun _ => .get_bind (fun m => ?_) fun _ _ _ => rfl
  cases host.findTool m.store name with
  | none => exact .throw _
  | some path => exact .bind (.log _ _) fun _ => .pure _

theorem oblivious_askVersion (host : Host) (tool path : String) :
    Oblivious (host.askVersion tool path) := by
  refine .bind (.emit trivial) fun _ => .get_bind (fun m => ?_) fun _ _ _ => rfl
  refine .bind (.setStore _) fun _ => ?_
  cases (host.version m.store path).text.bind parseVersion with
  | none => exact .throw _
  | some version => exact .pure _

theorem oblivious_validate (host : Host) (m : Manifest) : Oblivious (host.validate m) := by
  refine .bind (.ofExcept _ _) fun _ => .bind (.log _ _) fun _ => ?_
  refine .bind (.mapM fun name => host.oblivious_lookUp name) fun tools => ?_
  simp only
  cases tools.lookup Descriptor.versionTool with
  | none => exact .throw _
  | some found =>
    refine .bind (host.oblivious_askVersion _ _) fun version => .bind (.log _ _) fun _ => ?_
    exact .get_bind (fun _ => .pure _) fun _ _ _ => rfl

end Host

/-! ## Build trees -/

namespace BuildTree

theorem oblivious_loadConfig (path : String) : Oblivious (loadConfig path) := by
  refine .get_bind (fun m => ?_) fun _ _ _ => rfl
  split
  · exact .bind (.log _ _) fun _ => .pure _
  · exact .bind (.onStore _) fun _ => .ofExcept _ _

theorem oblivious_resolveDefines (m : Manifest) : Oblivious (resolveDefines m) := by
  refine .bind ?_ fun _ => .ofExcept _ _
  refine .bind (oblivious_loadConfig _) fun entries => ?_
  exact .bind (.forM fun _ => .log _ _) fun _ => .ofExcept _ _

/-- Configuring does the same whatever happened before. -/
theorem oblivious_prepare (m : Manifest) (host : Host) : Oblivious (prepare m host) := by
  refine .bind (oblivious_resolveDefines m) fun _ => .bind (.log _ _) fun _ => ?_
  exact .bind (host.oblivious_validate m) fun _ => .pure _

theorem oblivious_copySources (root dir : String) : Oblivious (copySources root dir) := by
  refine .get_bind (fun m => ?_) fun _ _ _ => rfl
  have hmirror : Oblivious (mirror root dir) := by
    refine .bind (.onStore _) fun _ => .get_bind (fun m => ?_) fun _ _ _ => rfl
    exact .ite (.onStore _) (.log _ _)
  simp only
  cases m.store.isDir (Path.join root Layout.sourceDir)
  · exact .throw _
  · exact hmirror

theorem oblivious_discoverLayout (dir : String) : Oblivious (discoverLayout dir) := by
  rw [discoverLayout_eq]
  refine .bind (.onStore _) fun mainSources => .bind (.onStore _) fun units => ?_
  have hunits : Oblivious (do
      units.forM fun unit =>
        Action.log .debug
          ("library " ++ unit.name ++ ": " ++ toString unit.sources.length ++ " source(s)")
      return (⟨mainSources, units⟩ : Layout)) := .bind (.forM fun _ => .log _ _) fun _ => .pure _
  unfold noteLayout
  split
  · exact .bind (.log _ _) fun _ => hunits
  · exact hunits

theorem oblivious_installMacros (macros dir : String) : Oblivious (installMacros macros dir) := by
  refine .bind (.onStore _) fun _ => .get_bind (fun m => ?_) fun _ _ _ => rfl
  exact .ite (.onStore _) (.log _ _)

/-- Generating does the same whatever happened before. -/
theorem oblivious_write (m : Manifest) (prepared : Prepared) : Oblivious (write m prepared) := by
  refine .bind (oblivious_copySources _ _) fun _ => .bind (oblivious_discoverLayout _) fun _ => ?_
  refine .bind (.ofExcept _ _) fun _ => .bind (oblivious_installMacros _ _) fun _ => ?_
  refine .bind (.onStore _) fun _ => .bind (.onStore _) fun _ => ?_
  exact .bind (.log _ _) fun _ => .pure _

end BuildTree

end Autotree
