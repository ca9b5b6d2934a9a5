import Autotree.Proofs.Path.Names
import Autotree.Proofs.Store.Reach
import Autotree.Proofs.Text.Raw

/-!
# Paths that names were joined to

Steps that stay where they are do not matter on the way to a directory, and neither does a slash
after it (`reachFrom_congr_dots`).  So a path whose components are names leads from a directory
where the names lead (`locate_names`), and from there names lead to what stands below
(`locate_foldl_join`).
-/

namespace Autotree.Store

variable {s : Store} {place start trail p : Place} {node : Node} {base dir : String}
  {names xs ys : List String} {slash : Bool} {links : Nat} {entries : List (String × Node)}

/-! ## Dots -/

/-- Steps without those that stay where they are. -/
def dotless (xs : List String) : List String :=
  xs.filter (· != ".")

theorem dotless_append (xs ys : List String) : dotless (xs ++ ys) = dotless xs ++ dotless ys :=
  List.filter_append ..

theorem dotless_of_isEntryName (h : ∀ name ∈ names, isEntryName name = true) :
    dotless names = names :=
  List.filter_eq_self.2 fun name hname => bne_iff_ne.2 (isEntryName_iff.1 (h name hname)).2.1

theorem eq_dot_of_dotless_eq_nil (h : dotless xs = []) : ∀ x ∈ xs, x = "." := by
  intro x hx
  simpa using List.filter_eq_nil_iff.1 h x hx

/-- The same steps, dots aside, come to a step after some dots. -/
theorem dotless_eq_cons {step : String} (hstep : step ≠ ".")
    (h : dotless (step :: xs) = dotless ys) :
    ∃ dots rest, ys = dots ++ step :: rest ∧ (∀ x ∈ dots, x = ".") ∧ dotless xs = dotless rest := by
  have hcons : dotless (step :: xs) = step :: dotless xs :=
    List.filter_cons_of_pos (p := (· != ".")) (bne_iff_ne.2 hstep)
  rw [hcons] at h
  obtain ⟨dots, rest, rfl, hdots, -, hrest⟩ := List.filter_eq_cons_iff.1 h.symm
  exact ⟨dots, rest, rfl, by simpa using hdots, hrest.symm⟩

/-- Walks over the same steps, dots aside, end at the same directory or meet the same link. -/
theorem walk_congr_dots (slash slash' : Bool) (h : dotless xs = dotless ys) :
    (∀ place entries, s.walk true slash trail node xs = .ended (.found place (.dir entries)) →
      s.walk true slash' trail node ys = .ended (.found place (.dir entries))) ∧
    ∀ target dir rest, s.walk true slash trail node xs = .atLink target dir rest →
      ∃ rest', s.walk true slash' trail node ys = .atLink target dir rest' ∧
        dotless rest = dotless rest' := by
  induction xs generalizing trail node ys with
  | nil =>
    rw [walk_eq_of_dots (eq_dot_of_dotless_eq_nil h.symm), walk]
    exact ⟨fun _ _ => id, fun _ _ _ h => Walk.noConfusion h⟩
  | cons step xs ih =>
    by_cases hdot : step = "."
    · subst hdot
      rw [walk_dot]
      exact ih h
    · obtain ⟨dots, ys, rfl, hdots, hys⟩ := dotless_eq_cons hdot h
      rw [walk_dots hdots, walk, walk, if_neg hdot, if_neg hdot]
      split
      · split
        · exact ih hys
        · exact ⟨fun _ _ h => Walk.noConfusion h, fun _ _ _ h => Walk.noConfusion h⟩
      · split
        · exact ⟨fun _ _ h => Walk.noConfusion h, fun _ _ _ h => Walk.noConfusion h⟩
        split
        · split <;> exact ⟨fun _ _ h => (by cases h), fun _ _ _ h => Walk.noConfusion h⟩
        · exact ih hys
        · split <;> exact ⟨fun _ _ h => (by cases h), fun _ _ _ h => Walk.noConfusion h⟩
        · simp only [Bool.not_true, Bool.and_false, Bool.false_eq_true, if_false]
          refine ⟨fun _ _ h => Walk.noConfusion h, ?_⟩
          intro target dir rest h
          cases h
          exact ⟨ys, rfl, hys⟩

/-- A way to a directory is the same over the same steps, dots and a slash at its end aside. -/
theorem reachFrom_congr_dots {slash' : Bool}
    (h : s.reachFrom true links slash start xs = .ok (.found place (.dir entries)))
    (hdots : dotless xs = dotless ys) :
    s.reachFrom true links slash' start ys = .ok (.found place (.dir entries)) := by
  fun_induction reachFrom s true links slash start xs generalizing ys slash' with
  | case1 => cases h
  | case2 links slash start xs node hnode r hw =>
    cases h
    rw [reachFrom, hnode]
    simp only [(walk_congr_dots slash slash' hdots).1 place entries hw]
  | case3 => cases h
  | case4 => cases h
  | case5 => cases h
  | case6 slash start xs node hnode target dir rest hw links htarget ih =>
    obtain ⟨rest', hw', hrest⟩ := (walk_congr_dots slash slash' hdots).2 target dir rest hw
    rw [reachFrom, hnode]
    simp only [hw', if_neg htarget]
    exact ih h (by rw [dotless_append, dotless_append, hrest])

/-! ## Names -/

theorem steps_foldl_join (h : ∀ name ∈ names, isEntryName name = true) (base : String) :
    steps (names.foldl Path.join base) = steps base ++ names := by
  induction names generalizing base with
  | nil => simp
  | cons name names ih =>
    obtain ⟨hname, hnames⟩ := List.forall_mem_cons.1 h
    rw [List.foldl_cons, ih hnames, steps_join_name (isStep_of_isEntryName hname),
      List.append_assoc]
    rfl

theorem startOf_foldl_join (h : ∀ name ∈ names, isEntryName name = true) (base : String)
    (cwd : Place) : startOf (names.foldl Path.join base) cwd = startOf base cwd := by
  induction names generalizing base with
  | nil => rfl
  | cons name names ih =>
    obtain ⟨hname, hnames⟩ := List.forall_mem_cons.1 h
    rw [List.foldl_cons, ih hnames, startOf_join_name (isStep_of_isEntryName hname)]

theorem byteSize_le_foldl_join (h : ∀ name ∈ names, isEntryName name = true) (base : String) :
    Text.byteSize base ≤ Text.byteSize (names.foldl Path.join base) := by
  induction names generalizing base with
  | nil => exact Nat.le_refl _
  | cons name names ih =>
    obtain ⟨hname, hnames⟩ := List.forall_mem_cons.1 h
    have hrelative := isAbsolute_eq_false (isStep_of_isEntryName hname).2
    exact Nat.le_trans (Text.byteSize_le_join hrelative base) (ih hnames _)

theorem not_refused_of_foldl_join (hnames : ∀ name ∈ names, isEntryName name = true)
    (hbase : base ≠ "") (h : ¬ Refused (names.foldl Path.join base)) : ¬ Refused base := by
  rintro (hempty | hlong)
  · exact hbase hempty
  · exact h (.inr (Nat.le_trans hlong (byteSize_le_foldl_join hnames base)))

/-- A path fits if a longer one does. -/
theorem Fits.of_foldl_join (h : Fits (names.foldl Path.join base))
    (hnames : ∀ name ∈ names, isEntryName name = true) (hbase : base ≠ "") : Fits base where
  taken := not_refused_of_foldl_join hnames hbase h.taken
  short name hname :=
    h.short name (by rw [steps_foldl_join hnames]; exact List.mem_append_left _ hname)

/-- A path leads to the directory that one with the same steps leads to, dots and a slash at its end
aside. -/
theorem locate_congr_dots {path path' : String} (h : s.locate path = .ok (place, .dir entries))
    (htaken : ¬ Refused path') (hstart : startOf path' s.cwd = startOf path s.cwd)
    (hdots : dotless (steps path) = dotless (steps path')) :
    s.locate path' = .ok (place, .dir entries) := by
  obtain ⟨-, hreach⟩ := reach_found_dir h
  rw [locate_eq_ok_iff, Store.reach, if_neg htaken, hstart]
  exact reachFrom_congr_dots hreach hdots

/-- A path whose components are names leads from a directory where the names lead. -/
theorem locate_names (hdir : Path.components dir = names.map .name)
    (hpath : ¬ Refused (names.foldl Path.join base))
    (h : s.locate (Path.join base dir) = .ok (place, .dir entries)) :
    s.locate (names.foldl Path.join base) = .ok (place, .dir entries) := by
  have hnames := Path.isEntryName_of_names hdir
  have hrelative := Path.isAbsolute_of_names hdir
  refine locate_congr_dots h hpath ?_ ?_
  · rw [startOf_foldl_join hnames, startOf_join hrelative]
  · rw [steps_foldl_join hnames, steps_join hrelative, dotless_append, dotless_append,
      dotless_of_isEntryName hnames]
    exact congrArg (dotless (steps base) ++ ·) (Path.steps_of_names hdir)

/-- Names lead from a directory to what stands below it. -/
theorem locate_foldl_join (h : s.locate base = .ok (place, .dir entries))
    (hfits : p = [] ∨ Fits (p.foldl Path.join base))
    (hnode : (Node.dir entries).get? p = some node) (hlink : ∀ target, node ≠ .link target) :
    s.locate (p.foldl Path.join base) = .ok (place ++ p, node) := by
  induction p generalizing base place entries with
  | nil =>
    rw [Node.get?_nil] at hnode
    cases hnode
    rw [List.append_nil]
    exact h
  | cons name p ih =>
    have hfits : Fits ((name :: p).foldl Path.join base) :=
      hfits.resolve_left (List.cons_ne_nil _ _)
    obtain ⟨hname, hrest⟩ := List.forall_mem_cons.1
      ((Node.Valid.get? s.valid_root (get?_of_locate h)).isEntryName_of_get? hnode)
    have hbelow : Fits (p.foldl Path.join (Path.join base name)) := hfits
    have hfirst : Fits (Path.join base name) :=
      hbelow.of_foldl_join hrest (join_ne_empty (isStep_of_isEntryName hname).1)
    obtain ⟨m, hm, hbelow⟩ := Option.bind_eq_some_iff.1 hnode
    by_cases hp : p = []
    · subst hp
      rw [Node.get?_nil] at hbelow
      cases hbelow
      exact locate_join h hfirst hm hlink
    · obtain ⟨sub, hsub⟩ := Node.exists_dir_of_get?_append (p := []) hp hbelow
      rw [Node.get?_nil] at hsub
      cases hsub
      rw [List.foldl_cons, List.append_cons]
      exact ih (locate_join h hfirst hm fun _ => Node.noConfusion) (.inr hfits) hbelow

end Autotree.Store
