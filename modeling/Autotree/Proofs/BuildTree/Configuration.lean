import Autotree.BuildTree
import Autotree.Proofs.Host.Verdict

/-!
# What the configuration amounts to

Loading, parsing, resolving and synthesizing the configuration only read the store.  `definesOf`
is the function that they compute together, and `reads_resolveDefines` replaces the actions by it:
nothing but log lines is left of them.  Preparing is that function, then the verdict of the host
(`prepare_of_error`, `prepare_of_ok`).
-/

namespace Autotree

namespace FileAction

/-- The text of a file, with a context for the failures to read it. -/
def textAt (context path : String) (s : Store) : Except Failure String :=
  match s.content path with
  | .error e => .error (.file context (.system e))
  | .ok bytes =>
    match String.fromUTF8? bytes with
    | some text => .ok text
    | none => .error (.file context .notText)

theorem readText_apply (context path : String) (s : Store) :
    readText context path s = (textAt context path s, s) := by
  unfold readText textAt
  cases hcontent : s.content path with
  | error e =>
    have hquery : query context (·.content path) s = (.error (.file context (.system e)), s) := by
      simp only [query, hcontent]
    rw [Stateful.bind_error hquery]
  | ok bytes =>
    have hquery : query context (·.content path) s = (.ok bytes, s) := by
      simp only [query, hcontent]
    rw [Stateful.bind_ok hquery]
    cases htext : String.fromUTF8? bytes with
    | none =>
      simp only [htext]
      rfl
    | some text =>
      simp only [htext]
      rfl

end FileAction

namespace BuildTree

open Autotree.Action Machine

/-- The entries of a configuration file; a file that does not exist has none. -/
def entriesOf (path : String) (s : Store) : Except Failure (List Entry) :=
  match s.content path with
  | .error .noEntry => .ok []
  | _ => do
    let text ← FileAction.textAt ("failed to read config: " ++ Text.shown path) path s
    (Entry.parse text).mapError .config

/-- The options of a configuration file with their values. -/
def resolvedOf (schema : Schema) (path : String) (s : Store) : Except Failure Resolved := do
  let entries ← entriesOf path s
  (schema.resolve entries).mapError .config

/-- The defines of a project, or the first failure on the way to them. -/
def definesOf (m : Manifest) (s : Store) : Except Failure (List Define) := do
  let resolved ← resolvedOf m.schema m.configPath s
  (Define.synthesize m.build.defines resolved).mapError .config

/-! ## Failures -/

section Failures

variable {α β : Type} {m : Manifest} {path context : String} {s : Store}
  {e : Failure}

/-- A failure of the configuration, or of reading its file. -/
def OfConfig (e : Failure) : Prop :=
  (∃ cause, e = .config cause) ∨ ∃ context cause, e = .file context cause

theorem except_bind_eq_error {x : Except Failure α} {f : α → Except Failure β}
    (h : (x >>= f) = .error e) : x = .error e ∨ ∃ a, x = .ok a ∧ f a = .error e := by
  cases x with
  | error e' =>
    cases h
    exact .inl rfl
  | ok a => exact .inr ⟨a, rfl, h⟩

theorem ofConfig_of_mapError {r : Except ConfigError α} (h : r.mapError Failure.config = .error e) :
    OfConfig e := by
  cases r with
  | error cause =>
    cases h
    exact .inl ⟨cause, rfl⟩
  | ok a => cases h

theorem ofConfig_of_textAt (h : FileAction.textAt context path s = .error e) : OfConfig e := by
  unfold FileAction.textAt at h
  split at h
  · cases h
    exact .inr ⟨_, _, rfl⟩
  · split at h
    · cases h
    · cases h
      exact .inr ⟨_, _, rfl⟩

theorem ofConfig_of_entriesOf (h : entriesOf path s = .error e) : OfConfig e := by
  unfold entriesOf at h
  split at h
  · cases h
  · rcases except_bind_eq_error h with h | ⟨text, -, h⟩
    · exact ofConfig_of_textAt h
    · exact ofConfig_of_mapError h

theorem ofConfig_of_definesOf (h : definesOf m s = .error e) : OfConfig e := by
  rcases except_bind_eq_error h with h | ⟨resolved, -, h⟩
  · rcases except_bind_eq_error h with h | ⟨entries, -, h⟩
    · exact ofConfig_of_entriesOf h
    · exact ofConfig_of_mapError h
  · exact ofConfig_of_mapError h

end Failures

/-! ## The actions -/

theorem reads_readText (P : Event → Prop) (context path : String) :
    Reads P (FileAction.textAt context path) (onStore (FileAction.readText context path)) := by
  intro σ
  rw [onStore_apply, FileAction.readText_apply]
  exact ⟨rfl, .refl σ⟩

theorem reads_loadConfig (path : String) :
    Reads Event.IsNote (entriesOf path) (loadConfig path) := by
  apply Reads.get_bind
  intro σ
  have hread : Reads Event.IsNote
      (fun s => do
        let text ← FileAction.textAt ("failed to read config: " ++ Text.shown path) path s
        (Entry.parse text).mapError .config)
      (do
        let text ← onStore (FileAction.readText ("failed to read config: " ++ Text.shown path) path)
        ofExcept .config (Entry.parse text)) :=
    Reads.bind (reads_readText _ _ path) fun text => Reads.ofExcept _ _
  unfold entriesOf
  cases hcontent : σ.store.content path with
  | ok bytes => exact hread σ
  | error e =>
    cases e with
    | noEntry => exact Reads.bind (Reads.log .debug _) (fun _ => Reads.pure []) σ
    | _ => exact hread σ

theorem reads_resolveFile (schema : Schema) (path : String) :
    Reads Event.IsNote (resolvedOf schema path) (resolveFile schema path) := by
  apply Reads.bind (reads_loadConfig path)
  intro entries
  exact Reads.andThen (Reads.forM fun _ _ => Reads.log .debug _) (Reads.ofExcept _ _)

theorem reads_resolveDefines (m : Manifest) :
    Reads Event.IsNote (definesOf m) (resolveDefines m) :=
  Reads.bind (reads_resolveFile m.schema m.configPath) fun _ => Reads.ofExcept _ _

/-! ## Preparing -/

section Preparing

open Stateful

variable {m : Manifest} {host : Host} {σ τ : Machine} {e : Failure} {defines : List Define}
  {prepared : Prepared}

/-- When the configuration fails, preparing ends there, whatever the host. -/
theorem prepare_of_error (h : definesOf m σ.store = .error e) :
    ∃ τ, Steady Event.IsNote σ τ ∧ ∀ host, prepare m host σ = (.error e, τ) := by
  obtain ⟨τ, hrun, hsteady⟩ := (reads_resolveDefines m).apply σ
  rw [h] at hrun
  exact ⟨τ, hsteady, fun host => bind_error hrun⟩

/-- When the configuration is fine, preparing ends as validating the host does. -/
theorem prepare_of_ok (h : definesOf m σ.store = .ok defines) (host : Host) :
    ∃ τ, prepare m host σ =
        ((host.verdict m σ.store).1.mapError Failure.host |>.map (⟨·, defines⟩), τ) ∧
      τ.store = (host.verdict m σ.store).2 ∧ τ.clock = σ.clock ∧ Grown Event.IsInquiry σ τ := by
  obtain ⟨ρ, hdefines, hρ⟩ := (reads_resolveDefines m).apply σ
  rw [h] at hdefines
  obtain ⟨υ, hlog, hυ⟩ :=
    (Reads.log .debug (toString defines.length ++ " define(s) resolved")).apply ρ
  obtain ⟨τ, hvalidate, hstore, hclock, hasked⟩ := host.validate_apply m υ
  have hgrown := hasked.grown Host.isInquiry_of_mem_questions
  have hsteady := hρ.trans hυ
  rw [hsteady.store_eq] at hvalidate hstore
  have hnotes : Grown Event.IsInquiry σ υ := hsteady.grown.mono fun _ => Event.IsNote.isInquiry
  refine ⟨τ, ?_, hstore, hclock.trans hsteady.clock_eq, hnotes.trans hgrown⟩
  unfold prepare
  rw [bind_ok hdefines, bind_ok hlog]
  cases hverdict : (host.verdict m σ.store).1 with
  | error e =>
    rw [hverdict] at hvalidate
    exact bind_error hvalidate
  | ok project =>
    rw [hverdict] at hvalidate
    exact bind_ok hvalidate

/-- Preparing with a host that leaves the files alone leaves them alone. -/
theorem prepare_store (m : Manifest) (hhost : host.LeavesFiles) (σ : Machine) :
    (prepare m host σ).2.store = σ.store := by
  cases hdefines : definesOf m σ.store with
  | error e =>
    obtain ⟨ρ, hsteady, hrun⟩ := prepare_of_error hdefines
    rw [hrun host, hsteady.store_eq]
  | ok defines =>
    obtain ⟨ρ, hrun, hstore, -, -⟩ := prepare_of_ok hdefines host
    rw [hrun, hstore, Host.verdict_store hhost]

theorem store_of_prepare (hhost : host.LeavesFiles)
    (h : prepare m host σ = (.ok prepared, τ)) : τ.store = σ.store := by
  have hstore := prepare_store m hhost σ
  rwa [h] at hstore

/-- After generating, the store is as it was or as writing left it. -/
theorem generate_store_or_write (m : Manifest) (hhost : host.LeavesFiles) (σ : Machine) :
    (generate m host σ).2.store = σ.store ∨
      ∃ prepared τ, τ.store = σ.store ∧ (generate m host σ).2 = (write m prepared τ).2 := by
  have hstore := prepare_store m hhost σ
  rcases hprepare : prepare m host σ with ⟨e | prepared, τ⟩
  all_goals rw [hprepare] at hstore
  · left
    rw [generate, bind_error hprepare, hstore]
  · right
    exact ⟨prepared, τ, hstore, by rw [generate, bind_ok hprepare]⟩

end Preparing

end BuildTree

end Autotree
