import Autotree.Proofs.Path.Steps

/-!
# The names of joined paths

Joining a path whose components are names adds these components (`components_join_names`).  So the
names on the way from a path to one that has more of them are these names
(`namesBelow_of_components`), and they can be read off that text again (`intercalate_injective`).
-/

namespace Autotree.Path

variable {path left right name other first : String} {names others rest : List String}

/-! ## Components -/

theorem componentOf?_of_isEntryName (h : isEntryName name = true) (atStart : Bool) :
    componentOf? atStart name = some (.name name) := by
  obtain ⟨hstep, hdot, hup⟩ := isEntryName_iff.1 h
  rw [componentOf?, if_neg hstep.1, if_neg hdot, if_neg hup]

theorem laterComponents_append (xs ys : List String) :
    laterComponents (xs ++ ys) = laterComponents xs ++ laterComponents ys :=
  List.filterMap_append

/-- The components that the first piece of a path stands for. -/
def firstComponents (absolute : Bool) (first : String) : List Component :=
  if absolute then .root :: (componentOf? false first).toList else (componentOf? true first).toList

theorem components_eq (h : pieces path = first :: rest) :
    components path = firstComponents (isAbsolute path) first ++ laterComponents rest := by
  unfold components firstComponents
  rw [h]
  split
  · unfold laterComponents
    cases hfirst : componentOf? false first with
    | none => rw [List.filterMap_cons_none hfirst]; rfl
    | some c => rw [List.filterMap_cons_some hfirst]; rfl
  · rfl

theorem pieces_ne_nil (path : String) : pieces path ≠ [] := by
  unfold pieces
  rw [Ne, List.map_eq_nil_iff]
  exact List.splitOn_ne_nil _ _

theorem components_empty : components "" = [] := by decide

/-- A relative path that is not empty begins with a piece that is not empty. -/
theorem eq_empty_of_pieces (h : pieces path = "" :: rest) (habs : isAbsolute path = false) :
    path = "" := by
  cases rest with
  | nil =>
    -- a text without a slash is its only piece
    have hsplit : path.toList.splitOn '/' = [[]] := by
      obtain ⟨cs, hcs, hofList⟩ := List.map_eq_singleton_iff.1 h
      rw [String.ofList_eq_empty_iff] at hofList
      rw [hcs, hofList]
    have hpath : List.intercalate ['/'] (path.toList.splitOn '/') = path.toList :=
      List.intercalate_splitOn '/'
    rw [hsplit] at hpath
    exact String.toList_eq_nil_iff.1 hpath.symm
  | cons next rest =>
    rw [isAbsolute_of_pieces h] at habs
    cases habs

theorem steps_ne_nil (h : path ≠ "") (habs : isAbsolute path = false) : Store.steps path ≠ [] := by
  obtain ⟨first, rest, hpieces⟩ := List.exists_cons_of_ne_nil (pieces_ne_nil path)
  have hfirst : first ≠ "" := by
    rintro rfl
    exact h (eq_empty_of_pieces hpieces habs)
  simp [Store.steps, hpieces, hfirst]

theorem eq_empty_of_components (h : components path = []) : path = "" := by
  obtain ⟨first, rest, hpieces⟩ := List.exists_cons_of_ne_nil (pieces_ne_nil path)
  have habs : isAbsolute path = false := by
    by_contra habs
    rw [components, if_pos (eq_true_of_ne_false habs)] at h
    cases h
  rw [components_eq hpieces, habs, firstComponents, if_neg (by simp)] at h
  have hnone : componentOf? true first = none := by
    rw [← Option.toList_eq_nil_iff]
    exact List.append_eq_nil_iff.1 h |>.1
  have hfirst : first = "" := by
    refine (eq_empty_or_dot_of_componentOf? hnone).resolve_right ?_
    rintro rfl
    cases hnone
  exact eq_empty_of_pieces (hfirst ▸ hpieces) habs

theorem components_name (h : isEntryName name = true) : components name = [.name name] := by
  have hstep := isStep_of_isEntryName h
  rw [components_eq (pieces_of_not_mem hstep.2), isAbsolute_eq_false hstep.2]
  simp [firstComponents, componentOf?_of_isEntryName h, laterComponents]

/-- A path whose components are names starts at no root. -/
theorem isAbsolute_of_names (h : components right = names.map .name) :
    isAbsolute right = false := by
  unfold components at h
  split at h
  · cases names <;> cases h
  · next habs => exact eq_false_of_ne_true habs

/-- The components of such a path are those of its pieces, wherever it stands. -/
theorem laterComponents_pieces (h : components right = names.map .name) :
    laterComponents (pieces right) = names.map .name := by
  have hrelative := isAbsolute_of_names h
  obtain ⟨first, rest, hpieces⟩ := List.exists_cons_of_ne_nil (pieces_ne_nil right)
  rw [components_eq hpieces, hrelative, firstComponents, if_neg (by simp)] at h
  have hdot : first ≠ "." := by
    rintro rfl
    cases names <;> cases h
  have hfirst : componentOf? false first = componentOf? true first := by
    simp only [componentOf?, if_neg hdot]
  rw [hpieces, ← h, ← hfirst, laterComponents]
  cases hcomponent : componentOf? false first with
  | none => rw [List.filterMap_cons_none hcomponent]; rfl
  | some c => rw [List.filterMap_cons_some hcomponent]; rfl

/-- Joining a path whose components are names appends them. -/
theorem components_join_names (h : components right = names.map .name) (left : String) :
    components (join left right) = components left ++ names.map .name := by
  have hrelative := isAbsolute_of_names h
  unfold join
  by_cases hleft : left = ""
  · rw [if_pos (by simp [hleft]), hleft, components_empty, h, List.nil_append]
  · rw [if_neg (by simp [hrelative, hleft])]
    by_cases hslash : left.toList.getLast? = some '/'
    · obtain ⟨front, rfl⟩ := eq_append_slash hslash
      obtain ⟨first, rest, hfront⟩ := List.exists_cons_of_ne_nil (pieces_ne_nil front)
      have hpieces : pieces (front ++ "/") = first :: (rest ++ [""]) := by
        have hsplit := pieces_append_slash front ""
        rw [String.append_empty] at hsplit
        rw [hsplit, hfront]
        rfl
      have hjoined : pieces (front ++ "/" ++ right) = first :: (rest ++ pieces right) := by
        rw [pieces_append_slash, hfront, List.cons_append]
      rw [if_pos hslash, components_eq hpieces, components_eq hjoined, isAbsolute_append hleft,
        laterComponents_append, laterComponents_append, laterComponents_pieces h]
      simp [laterComponents, componentOf?]
    · obtain ⟨first, rest, hfront⟩ := List.exists_cons_of_ne_nil (pieces_ne_nil left)
      have hjoined : pieces (left ++ "/" ++ right) = first :: (rest ++ pieces right) := by
        rw [pieces_append_slash, hfront, List.cons_append]
      rw [if_neg hslash, components_eq hfront, components_eq hjoined, String.append_assoc,
        isAbsolute_append hleft, laterComponents_append, laterComponents_pieces h,
        List.append_assoc]

theorem components_join (h : isEntryName name = true) (left : String) :
    components (join left name) = components left ++ [.name name] := by
  have hname : components name = [name].map .name := components_name h
  exact components_join_names hname left

theorem components_foldl_join (h : ∀ name ∈ names, isEntryName name = true) (base : String) :
    components (names.foldl join base) = components base ++ names.map .name := by
  induction names generalizing base with
  | nil => simp
  | cons name names ih =>
    rw [List.foldl_cons, ih fun other hother => h other (List.mem_cons_of_mem _ hother),
      components_join (h name List.mem_cons_self), List.append_assoc]
    rfl

theorem below?_append (base cs : List Component) : below? base (base ++ cs) = some cs := by
  induction base with
  | nil => rfl
  | cons b base ih => rw [List.cons_append, below?, if_pos rfl, ih]

/-- The names that a path has more than another are those on the way from it. -/
theorem namesBelow_of_components {base : String}
    (h : components path = components base ++ names.map .name) :
    namesBelow base path = names := by
  have hnames : (names.map Component.name).filterMap Component.name? = names := by
    rw [List.filterMap_map]
    exact List.filterMap_some
  rw [namesBelow, h, below?_append, Option.getD_some, hnames]

theorem eq_of_componentOf?_eq_name {atStart : Bool} {piece : String}
    (h : componentOf? atStart piece = some (.name name)) :
    piece = name ∧ piece ≠ "" ∧ piece ≠ "." ∧ piece ≠ ".." := by
  unfold componentOf? at h
  split at h
  · cases h
  · next hempty =>
    split at h
    · split at h <;> cases h
    · next hdot =>
      split at h
      · cases h
      · next hup =>
        cases h
        exact ⟨rfl, hempty, hdot, hup⟩

theorem filter_of_laterComponents {pieces : List String}
    (h : laterComponents pieces = names.map .name) :
    (pieces.filter (· != "")).filter (· != ".") = names := by
  induction pieces generalizing names with
  | nil => exact (List.map_eq_nil_iff.1 h.symm).symm
  | cons piece pieces ih =>
    unfold laterComponents at h
    cases hpiece : componentOf? false piece with
    | none =>
      rw [List.filterMap_cons_none hpiece] at h
      rw [← ih h]
      rcases eq_empty_or_dot_of_componentOf? hpiece with rfl | rfl <;> rfl
    | some c =>
      rw [List.filterMap_cons_some hpiece] at h
      obtain ⟨name, names, rfl, rfl, hrest⟩ := List.map_eq_cons_iff.1 h.symm
      obtain ⟨rfl, hempty, hdot, -⟩ := eq_of_componentOf?_eq_name hpiece
      rw [← ih hrest.symm]
      simp [hempty, hdot]

/-- The steps of a path whose components are names are these, dots aside. -/
theorem steps_of_names (h : components path = names.map .name) :
    (Store.steps path).filter (· != ".") = names :=
  filter_of_laterComponents (laterComponents_pieces h)

theorem isEntryName_of_names (h : components path = names.map .name) :
    ∀ name ∈ names, isEntryName name = true := by
  intro name hname
  have hcomponent : Component.name name ∈ laterComponents (pieces path) := by
    rw [laterComponents_pieces h]
    exact List.mem_map_of_mem hname
  obtain ⟨piece, hpiece, heq⟩ := List.mem_filterMap.1 hcomponent
  obtain ⟨rfl, hempty, hdot, hup⟩ := eq_of_componentOf?_eq_name heq
  exact isEntryName_iff.2 ⟨⟨hempty, not_mem_of_mem_pieces hpiece⟩, hdot, hup⟩

/-! ## Texts of names -/

theorem steps_intercalate (h : ∀ name ∈ names, isEntryName name = true) :
    Store.steps ("/".intercalate names) = names := by
  by_cases hne : names = []
  · subst hne
    decide
  · have hsteps := fun name hname => isStep_of_isEntryName (h name hname)
    rw [Store.steps, pieces_intercalate hne fun name hname => (hsteps name hname).2]
    exact List.filter_eq_self.2 fun name hname => bne_iff_ne.2 (hsteps name hname).1

/-- Names can be read off their text. -/
theorem intercalate_injective (h : ∀ name ∈ names, isEntryName name = true)
    (h' : ∀ name ∈ others, isEntryName name = true)
    (heq : "/".intercalate names = "/".intercalate others) : names = others := by
  rw [← steps_intercalate h, heq, steps_intercalate h']

/-- A name and what comes after it are joined to a path at once or one after the other. -/
theorem join_slash (h : isEntryName name = true) (hother : isAbsolute other = false)
    (base : String) : join base (name ++ "/" ++ other) = join (join base name) other := by
  have hstep := isStep_of_isEntryName h
  have hname := isAbsolute_eq_false hstep.2
  have hboth : isAbsolute (name ++ "/" ++ other) = false := by
    rw [String.append_assoc, isAbsolute_append hstep.1, hname]
  have hne : join base name ≠ "" := join_ne_empty hstep.1
  have hslash : ¬ (join base name).toList.getLast? = some '/' := by
    have hends := endsInSlash_join_name hstep base
    unfold Store.endsInSlash at hends
    simpa using hends
  have hright : join (join base name) other = join base name ++ "/" ++ other := by
    rw [join, if_neg (by simp [hother, hne]), if_neg hslash]
  rw [hright]
  unfold join
  by_cases hbase : base = ""
  · simp [hbase]
  · have hleft : ¬ (isAbsolute (name ++ "/" ++ other) || decide (base = "")) = true := by
      simp [hboth, hbase]
    have hinner : ¬ (isAbsolute name || decide (base = "")) = true := by simp [hname, hbase]
    rw [if_neg hleft, if_neg hinner]
    split
    · simp only [String.append_assoc]
    · simp only [String.append_assoc]

theorem isAbsolute_intercalate (h : ∀ name ∈ names, isEntryName name = true) :
    isAbsolute ("/".intercalate names) = false := by
  cases names with
  | nil => decide
  | cons name names =>
    have hstep := isStep_of_isEntryName (h name List.mem_cons_self)
    have hname := isAbsolute_eq_false hstep.2
    cases names with
    | nil => rwa [String.intercalate_singleton]
    | cons next names =>
      rw [String.intercalate_cons_cons, String.append_assoc, isAbsolute_append hstep.1, hname]

/-- Names are joined to a path at once or one after the other. -/
theorem join_intercalate (h : ∀ name ∈ names, isEntryName name = true) (hne : names ≠ [])
    (base : String) : join base ("/".intercalate names) = names.foldl join base := by
  induction names generalizing base with
  | nil => exact absurd rfl hne
  | cons name names ih =>
    obtain ⟨hname, hnames⟩ := List.forall_mem_cons.1 h
    by_cases hrest : names = []
    · rw [hrest, String.intercalate_singleton, List.foldl_cons, List.foldl_nil]
    · rw [String.intercalate_cons_of_ne_nil hrest, join_slash hname (isAbsolute_intercalate hnames),
        ih hnames hrest, List.foldl_cons]

end Autotree.Path
