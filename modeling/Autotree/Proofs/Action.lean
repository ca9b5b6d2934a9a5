import Autotree.Pipeline.Basic

/-!
# Running actions

An action takes a state to a result and a state.  This module says how the steps of an action
follow one another: `bind_ok` and `bind_error` run it forwards, `bind_eq_ok` and `bind_eq_error`
take a finished run apart.  `Keeps R` says that every run of an action leads to a state in the
relation `R`, `FailsWith P` that every failure of it is one that `P` allows; both are closed under
sequencing, so they are proved of an action by going through its text once.
-/

namespace Autotree

/-- An operation on a state that may fail, keeping what it did until then. -/
abbrev Stateful (σ α : Type) := ExceptT Failure (StateM σ) α

namespace Stateful

variable {σ α β : Type} {x : Stateful σ α} {f : α → Stateful σ β} {s t u : σ} {a : α} {b : β}
  {e : Failure}

/-! ## Sequencing -/

theorem bind_ok (h : x s = (.ok a, t)) : (x >>= f) s = f a t := by
  simp only [bind, ExceptT.bind, ExceptT.mk, StateT.bind, h, ExceptT.bindCont]

theorem bind_error (h : x s = (.error e, t)) : (x >>= f) s = (.error e, t) := by
  simp only [bind, ExceptT.bind, ExceptT.mk, StateT.bind, h, ExceptT.bindCont]
  rfl

theorem bind_eq_ok :
    (x >>= f) s = (.ok b, u) ↔ ∃ a t, x s = (.ok a, t) ∧ f a t = (.ok b, u) := by
  constructor
  · intro h
    rcases hx : x s with ⟨e | a, t⟩
    · rw [bind_error hx] at h
      cases h
    · rw [bind_ok hx] at h
      exact ⟨a, t, rfl, h⟩
  · rintro ⟨a, t, hx, h⟩
    rw [bind_ok hx, h]

theorem bind_eq_error :
    (x >>= f) s = (.error e, u) ↔
      x s = (.error e, u) ∨ ∃ a t, x s = (.ok a, t) ∧ f a t = (.error e, u) := by
  constructor
  · intro h
    rcases hx : x s with ⟨e' | a, t⟩
    · rw [bind_error hx] at h
      cases h
      exact .inl rfl
    · rw [bind_ok hx] at h
      exact .inr ⟨a, t, rfl, h⟩
  · rintro (hx | ⟨a, t, hx, h⟩)
    · exact bind_error hx
    · rw [bind_ok hx, h]

@[simp] theorem get_bind (f : σ → Stateful σ β) (s : σ) : (get >>= f) s = f s s := rfl

@[simp] theorem modify_bind (g : σ → σ) (f : Unit → Stateful σ β) (s : σ) :
    (modify g >>= f) s = f () (g s) := rfl

@[simp] theorem pure_apply (a : α) (s : σ) : (pure a : Stateful σ α) s = (.ok a, s) := rfl

/-- Steps that leave the state alone, one for each element of a list. -/
theorem mapM_apply {γ : Type} {l : List γ} {i : γ → α} {g : γ → β}
    (h : ∀ c ∈ l, f (i c) s = (.ok (g c), s)) : (l.map i).mapM f s = (.ok (l.map g), s) := by
  induction l with
  | nil => rw [List.map_nil, List.mapM_nil, List.map_nil, pure_apply]
  | cons c l ih =>
    rw [List.map_cons, List.mapM_cons, bind_ok (h c List.mem_cons_self),
      bind_ok (ih fun d hd => h d (List.mem_cons_of_mem _ hd)), pure_apply, List.map_cons]

/-! ## What every run keeps -/

/-- Every run leads to a state in the relation. -/
def Keeps (R : σ → σ → Prop) (x : Stateful σ α) : Prop :=
  ∀ s, R s (x s).2

theorem Keeps.run {R : σ → σ → Prop} {r : Except Failure α} (hx : Keeps R x) (h : x s = (r, t)) :
    R s t := by
  have hst := hx s
  rwa [h] at hst

/-- Every failure is one that the predicate allows. -/
def FailsWith (P : Failure → Prop) (x : Stateful σ α) : Prop :=
  ∀ s e t, x s = (.error e, t) → P e

section Keeps

variable {R : σ → σ → Prop} (hrefl : ∀ s, R s s) (htrans : ∀ {a b c}, R a b → R b c → R a c)

omit hrefl htrans in
/-- What a step keeps from an earlier state on, the steps after it keep as well; they may keep
less. -/
theorem Keeps.bind_from {R' : σ → σ → Prop} (hweak : ∀ {a b}, R a b → R' a b)
    (hthen : ∀ {a b c}, R a b → R' b c → R' a c) (hx : R u (x s).2) (hf : ∀ a, Keeps R' (f a)) :
    R' u ((x >>= f) s).2 := by
  rcases h : x s with ⟨e | a, t⟩
  · rw [bind_error h]
    rw [h] at hx
    exact hweak hx
  · rw [bind_ok h]
    rw [h] at hx
    exact hthen hx (hf a t)

include htrans in
theorem Keeps.bind (hx : Keeps R x) (hf : ∀ a, Keeps R (f a)) : Keeps R (x >>= f) :=
  fun s => Keeps.bind_from id htrans (hx s) hf

include htrans in
/-- What comes after a step need only keep the relation for results that the step has. -/
theorem Keeps.bind_of_result (hx : Keeps R x)
    (hf : ∀ s a t, x s = (.ok a, t) → Keeps R (f a)) : Keeps R (x >>= f) := by
  intro s
  rcases h : x s with ⟨e | a, t⟩
  · rw [bind_error h]
    simpa only [h] using hx s
  · rw [bind_ok h]
    have hst : R s t := by simpa only [h] using hx s
    exact htrans hst (hf s a t h t)

include hrefl in
theorem Keeps.pure (a : α) : Keeps R (pure a : Stateful σ α) := fun s => hrefl s

include hrefl in
theorem Keeps.throw (e : Failure) : Keeps R (throw e : Stateful σ α) := fun s => hrefl s

omit hrefl htrans in
theorem Keeps.get_bind {f : σ → Stateful σ β} (hf : ∀ a, Keeps R (f a)) :
    Keeps R (get >>= f) := fun s => hf s s

include hrefl htrans in
theorem Keeps.forM {l : List α} {f : α → Stateful σ PUnit} (hf : ∀ a ∈ l, Keeps R (f a)) :
    Keeps R (l.forM f) := by
  induction l with
  | nil => exact Keeps.pure hrefl _
  | cons a l ih =>
    change Keeps R (f a >>= fun _ => l.forM f)
    exact Keeps.bind htrans (hf a List.mem_cons_self)
      fun _ => ih fun b hb => hf b (List.mem_cons_of_mem _ hb)

include hrefl htrans in
theorem Keeps.mapM {l : List α} {f : α → Stateful σ β} (hf : ∀ a ∈ l, Keeps R (f a)) :
    Keeps R (l.mapM f) := by
  induction l with
  | nil =>
    rw [List.mapM_nil]
    exact Keeps.pure hrefl _
  | cons a l ih =>
    rw [List.mapM_cons]
    refine Keeps.bind htrans (hf a List.mem_cons_self) fun _ => ?_
    exact Keeps.bind htrans (ih fun b hb => hf b (List.mem_cons_of_mem _ hb))
      fun _ => Keeps.pure hrefl _

/-- Steps that succeed and leave the state alone gave a result for each element, and no others. -/
theorem mapM_eq_ok {f : α → Stateful σ β} {l : List α} {bs : List β}
    (hkeep : ∀ a, Keeps Eq (f a)) (h : l.mapM f s = (.ok bs, t)) :
    (∀ a ∈ l, ∃ b ∈ bs, f a s = (.ok b, s)) ∧ ∀ b ∈ bs, ∃ a ∈ l, f a s = (.ok b, s) := by
  induction l generalizing bs with
  | nil =>
    rw [List.mapM_nil, pure_apply] at h
    cases h
    exact ⟨List.forall_mem_nil _, List.forall_mem_nil _⟩
  | cons a l ih =>
    rw [List.mapM_cons] at h
    obtain ⟨b, u, hfirst, h⟩ := bind_eq_ok.1 h
    obtain ⟨bs', v, hrest, h⟩ := bind_eq_ok.1 h
    cases h
    obtain rfl := (hkeep a).run hfirst
    obtain ⟨hleft, hright⟩ := ih hrest
    constructor
    · refine List.forall_mem_cons.2 ⟨⟨b, List.mem_cons_self, hfirst⟩, fun c hc => ?_⟩
      obtain ⟨d, hd, hrun⟩ := hleft c hc
      exact ⟨d, List.mem_cons_of_mem b hd, hrun⟩
    · refine List.forall_mem_cons.2 ⟨⟨a, List.mem_cons_self, hfirst⟩, fun d hd => ?_⟩
      obtain ⟨c, hc, hrun⟩ := hright d hd
      exact ⟨c, List.mem_cons_of_mem a hc, hrun⟩

end Keeps

section FailsWith

variable {P : Failure → Prop}

theorem FailsWith.bind (hx : FailsWith P x) (hf : ∀ a, FailsWith P (f a)) :
    FailsWith P (x >>= f) := by
  intro s e t h
  rcases bind_eq_error.1 h with h | ⟨a, u, -, h⟩
  · exact hx s e t h
  · exact hf a u e t h

theorem FailsWith.pure (a : α) : FailsWith P (pure a : Stateful σ α) := by
  intro s e t h
  cases h

theorem FailsWith.throw (he : P e) : FailsWith P (throw e : Stateful σ α) := by
  intro s e' t h
  cases h
  exact he

theorem FailsWith.get_bind {f : σ → Stateful σ β} (hf : ∀ a, FailsWith P (f a)) :
    FailsWith P (get >>= f) := fun s => hf s s

theorem FailsWith.modify_bind {g : σ → σ} {f : Unit → Stateful σ β} (hf : FailsWith P (f ())) :
    FailsWith P (modify g >>= f) := fun s => hf (g s)

theorem FailsWith.forM {l : List α} {f : α → Stateful σ PUnit} (hf : ∀ a, FailsWith P (f a)) :
    FailsWith P (l.forM f) := by
  induction l with
  | nil => exact FailsWith.pure _
  | cons a l ih =>
    change FailsWith P (f a >>= fun _ => l.forM f)
    exact FailsWith.bind (hf a) fun _ => ih

theorem FailsWith.mapM {l : List α} {f : α → Stateful σ β} (hf : ∀ a, FailsWith P (f a)) :
    FailsWith P (l.mapM f) := by
  induction l with
  | nil =>
    rw [List.mapM_nil]
    exact FailsWith.pure _
  | cons a l ih =>
    rw [List.mapM_cons]
    exact FailsWith.bind (hf a) fun _ => FailsWith.bind ih fun _ => FailsWith.pure _

end FailsWith

end Stateful

end Autotree
