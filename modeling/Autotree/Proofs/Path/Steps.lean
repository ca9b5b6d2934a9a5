import Autotree.Proofs.Text.Lines
import Autotree.Store.Reach

/-!
# The steps of a path

The steps of a path are what is between its slashes, empty pieces left out; they decide where the
path leads.  Joining appends the steps of the right side (`steps_join`), and the parent of a path
has the first of its steps (`prefix_steps_parent`), fewer than the path has.
-/

namespace Autotree

/-- A text that can be a step of a path: not empty, and without a slash. -/
def IsStep (text : String) : Prop :=
  text ≠ "" ∧ '/' ∉ text.toList

theorem isStep_of_isEntryName {name : String} (h : isEntryName name = true) : IsStep name := by
  simp only [isEntryName, Bool.and_eq_true, bne_iff_ne, ne_eq, Bool.not_eq_true',
    List.contains_eq_mem, decide_eq_false_iff_not] at h
  exact ⟨h.1.1.1, h.2⟩

theorem isEntryName_iff {name : String} :
    isEntryName name = true ↔ IsStep name ∧ name ≠ "." ∧ name ≠ ".." := by
  simp only [isEntryName, IsStep, Bool.and_eq_true, bne_iff_ne, ne_eq, Bool.not_eq_true',
    List.contains_eq_mem, decide_eq_false_iff_not]
  constructor
  · rintro ⟨⟨⟨h1, h2⟩, h3⟩, h4⟩
    exact ⟨⟨h1, h4⟩, h2, h3⟩
  · rintro ⟨⟨h1, h4⟩, h2, h3⟩
    exact ⟨⟨⟨h1, h2⟩, h3⟩, h4⟩

/-- A step stays where it is, goes up, or names an entry. -/
theorem IsStep.dot_or_up_or_name {step : String} (h : IsStep step) :
    step = "." ∨ step = ".." ∨ isEntryName step = true := by
  by_cases hdot : step = "."
  · exact .inl hdot
  · by_cases hup : step = ".."
    · exact .inr (.inl hup)
    · exact .inr (.inr (isEntryName_iff.2 ⟨h, hdot, hup⟩))

theorem not_isEntryName_dot : ¬ isEntryName "." = true :=
  fun h => (isEntryName_iff.1 h).2.1 rfl

theorem not_isEntryName_up : ¬ isEntryName ".." = true :=
  fun h => (isEntryName_iff.1 h).2.2 rfl

/-! ## Pieces between slashes -/

section Pieces

theorem not_mem_of_mem_pieces {path piece : String} (h : piece ∈ Path.pieces path) :
    '/' ∉ piece.toList := by
  obtain ⟨cs, hcs, rfl⟩ := List.mem_map.1 h
  rw [String.toList_ofList]
  exact Text.not_mem_of_mem_splitOn hcs

theorem isStep_of_mem_steps {path step : String} (h : step ∈ Store.steps path) : IsStep step := by
  obtain ⟨hmem, hne⟩ := List.mem_filter.1 h
  exact ⟨bne_iff_ne.1 hne, not_mem_of_mem_pieces hmem⟩

/-- A slash divides the pieces of a text into those before and those after it. -/
theorem pieces_append_slash (left right : String) :
    Path.pieces (left ++ "/" ++ right) = Path.pieces left ++ Path.pieces right := by
  have hlist : (left ++ "/" ++ right).toList = left.toList ++ '/' :: right.toList := by simp
  rw [Path.pieces, hlist, List.splitOn_append_cons_self, List.map_append]
  rfl

theorem pieces_of_not_mem {text : String} (h : '/' ∉ text.toList) : Path.pieces text = [text] := by
  rw [Path.pieces, List.splitOn_eq_singleton h, List.map_singleton, String.ofList_toList]

theorem pieces_intercalate {pieces : List String} (hne : pieces ≠ [])
    (h : ∀ piece ∈ pieces, '/' ∉ piece.toList) :
    Path.pieces ("/".intercalate pieces) = pieces := by
  induction pieces with
  | nil => exact absurd rfl hne
  | cons piece rest ih =>
    have hpiece := pieces_of_not_mem (h piece List.mem_cons_self)
    cases rest with
    | nil => simpa using hpiece
    | cons next rest =>
      have hrest := ih (List.cons_ne_nil _ _) fun p hp => h p (List.mem_cons_of_mem _ hp)
      rw [String.intercalate_cons_of_ne_nil (List.cons_ne_nil _ _), pieces_append_slash, hpiece,
        hrest]
      rfl

end Pieces

/-! ## Joining -/

section Join

variable {left right name : String}

theorem isAbsolute_eq_false (h : '/' ∉ name.toList) : Path.isAbsolute name = false := by
  unfold Path.isAbsolute
  cases hcs : name.toList with
  | nil => rfl
  | cons c cs =>
    have hc : c ≠ '/' := fun heq => h (by rw [hcs, heq]; exact List.mem_cons_self)
    simp [hc]

theorem steps_empty : Store.steps "" = [] := by decide

theorem steps_of_isStep (h : IsStep name) : Store.steps name = [name] := by
  rw [Store.steps, pieces_of_not_mem h.2]
  simp [h.1]

theorem steps_append_slash (left right : String) :
    Store.steps (left ++ "/" ++ right) = Store.steps left ++ Store.steps right := by
  rw [Store.steps, pieces_append_slash, List.filter_append]
  rfl

theorem eq_append_slash (h : left.toList.getLast? = some '/') :
    ∃ front : String, left = front ++ "/" := by
  obtain ⟨cs, hcs⟩ := List.getLast?_eq_some_iff.1 h
  refine ⟨String.ofList cs, String.toList_inj.1 ?_⟩
  simp [hcs]

theorem steps_join (h : Path.isAbsolute right = false) :
    Store.steps (Path.join left right) = Store.steps left ++ Store.steps right := by
  unfold Path.join
  by_cases hleft : left = ""
  · subst hleft
    simp [h, steps_empty]
  · rw [if_neg (by simp [h, hleft])]
    split
    · next hlast =>
      obtain ⟨front, rfl⟩ := eq_append_slash hlast
      have hfront : Store.steps (front ++ "/") = Store.steps front := by
        have hslash := steps_append_slash front ""
        rwa [String.append_empty, steps_empty, List.append_nil] at hslash
      rw [steps_append_slash, hfront]
    · rw [steps_append_slash]

theorem isAbsolute_append (h : left ≠ "") (right : String) :
    Path.isAbsolute (left ++ right) = Path.isAbsolute left := by
  obtain ⟨c, cs, hcs⟩ := List.exists_cons_of_ne_nil fun hnil => h (String.toList_eq_nil_iff.1 hnil)
  simp [Path.isAbsolute, hcs]

theorem startOf_join (h : Path.isAbsolute right = false) (dir : Place) :
    Store.startOf (Path.join left right) dir = Store.startOf left dir := by
  unfold Path.join
  by_cases hleft : left = ""
  · subst hleft
    have hempty : Path.isAbsolute "" = false := by decide
    simp [Store.startOf, h, hempty]
  · rw [if_neg (by simp [h, hleft])]
    split
    · simp only [Store.startOf, isAbsolute_append hleft]
    · rw [String.append_assoc]
      simp only [Store.startOf, isAbsolute_append hleft]

theorem join_ne_empty (h : right ≠ "") : Path.join left right ≠ "" := by
  unfold Path.join
  split
  · exact h
  · split
    · exact fun heq => h (String.append_eq_empty_iff.1 heq).2
    · exact fun heq => h (String.append_eq_empty_iff.1 heq).2

/-- Joining a name appends it to the steps. -/
theorem steps_join_name (h : IsStep name) (left : String) :
    Store.steps (Path.join left name) = Store.steps left ++ [name] := by
  rw [steps_join (isAbsolute_eq_false h.2), steps_of_isStep h]

theorem startOf_join_name (h : IsStep name) (left : String) (dir : Place) :
    Store.startOf (Path.join left name) dir = Store.startOf left dir :=
  startOf_join (isAbsolute_eq_false h.2) dir

theorem endsInSlash_join (h : right ≠ "") (left : String) :
    Store.endsInSlash (Path.join left right) = Store.endsInSlash right := by
  have hne : right.toList ≠ [] := fun hnil => h (String.toList_eq_nil_iff.1 hnil)
  have hlast : ∀ front : String, (front ++ right).toList.getLast? = right.toList.getLast? := by
    intro front
    rw [String.toList_append, List.getLast?_append, List.getLast?_eq_some_getLast hne]
    rfl
  unfold Store.endsInSlash Path.join
  split
  · rfl
  · split <;> rw [hlast]

/-- A path to which a name was joined does not end in a slash. -/
theorem endsInSlash_join_name (h : IsStep name) (left : String) :
    Store.endsInSlash (Path.join left name) = false := by
  rw [endsInSlash_join h.1]
  exact beq_false_of_ne fun heq => h.2 (List.mem_of_getLast? heq)

end Join

/-! ## Parents -/

section Parent

/-- A piece that stands for no component is empty or a dot. -/
theorem eq_empty_or_dot_of_componentOf? {atStart : Bool} {piece : String}
    (h : Path.componentOf? atStart piece = none) : piece = "" ∨ piece = "." := by
  unfold Path.componentOf? at h
  split at h
  · next hempty => exact .inl hempty
  · split at h
    · next hdot => exact .inr hdot
    · split at h <;> cases h

/-- What `dropBlank` drops stands for no component, and the last piece that it keeps does. -/
theorem dropBlank_spec (atStart : Nat → Bool) (pieces : List String) :
    ∃ blanks, pieces = Path.dropBlank atStart pieces ++ blanks ∧
      (∀ b ∈ blanks, b = "" ∨ b = ".") ∧
      ∀ front piece, Path.dropBlank atStart pieces = front ++ [piece] → piece ≠ "" := by
  let isBlank : String × Nat → Bool := fun e => (Path.componentOf? (atStart e.2) e.1).isNone
  have hkept : Path.dropBlank atStart pieces =
      ((pieces.zipIdx.reverse.dropWhile isBlank).reverse).map (·.1) := rfl
  refine ⟨((pieces.zipIdx.reverse.takeWhile isBlank).reverse).map (·.1), ?_, ?_, ?_⟩
  · rw [hkept, ← List.map_append, ← List.reverse_append, List.takeWhile_append_dropWhile,
      List.reverse_reverse, List.zipIdx_map_fst]
  · intro b hb
    obtain ⟨⟨piece, i⟩, hmem, rfl⟩ := List.mem_map.1 hb
    have hblank := List.all_eq_true.1 List.all_takeWhile _ (List.mem_reverse.1 hmem)
    exact eq_empty_or_dot_of_componentOf? (Option.isNone_iff_eq_none.1 hblank)
  · intro front piece hfront hempty
    rw [hkept, List.map_reverse] at hfront
    have hhead : (List.map (·.1) (pieces.zipIdx.reverse.dropWhile isBlank)).head? = some piece := by
      rw [← List.getLast?_reverse, hfront, List.getLast?_concat]
    rw [List.head?_map] at hhead
    obtain ⟨⟨other, i⟩, hother, rfl⟩ := Option.map_eq_some_iff.1 hhead
    have hnot := List.head?_dropWhile_not isBlank pieces.zipIdx.reverse
    rw [hother] at hnot
    change (Path.componentOf? (atStart i) other).isNone = false at hnot
    rw [show other = "" from hempty] at hnot
    cases hnot

variable {path parent : String}

/-- The pieces of a path after the slash that makes it absolute. -/
def bodyOf (path : String) : List String :=
  if Path.isAbsolute path then (Path.pieces path).tail else Path.pieces path

theorem pieces_of_isAbsolute (h : Path.isAbsolute path = true) :
    Path.pieces path = "" :: bodyOf path := by
  obtain ⟨cs, hcs⟩ : ∃ cs, path.toList = '/' :: cs := by
    cases hcs : path.toList with
    | nil => simp [Path.isAbsolute, hcs] at h
    | cons c cs =>
      simp only [Path.isAbsolute, hcs, List.head?_cons, beq_iff_eq, Option.some.injEq] at h
      exact ⟨cs, by rw [h]⟩
  simp [bodyOf, h, Path.pieces, hcs, List.splitOn_cons_eq_if_modifyHead]

theorem steps_eq_filter_bodyOf (path : String) :
    Store.steps path = (bodyOf path).filter (· != "") := by
  unfold Store.steps
  by_cases habs : Path.isAbsolute path = true
  · rw [pieces_of_isAbsolute habs]
    simp
  · simp [bodyOf, habs]

theorem not_mem_of_mem_bodyOf {piece : String} (h : piece ∈ bodyOf path) : '/' ∉ piece.toList := by
  unfold bodyOf at h
  split at h
  · exact not_mem_of_mem_pieces (List.mem_of_mem_tail h)
  · exact not_mem_of_mem_pieces h

/-- Whether a piece of the body of a path, by its index, is at the start of a relative path. -/
def atStartOf (path : String) (i : Nat) : Bool :=
  !Path.isAbsolute path && i == 0

theorem parent?_eq (path : String) :
    Path.parent? path =
      match (Path.dropBlank (atStartOf path) (bodyOf path)).dropLast,
        Path.dropBlank (atStartOf path) (bodyOf path) with
      | _, [] => none
      | rest, _ => some ((if Path.isAbsolute path then "/" else "") ++
          "/".intercalate (Path.dropBlank (atStartOf path) rest)) := rfl

/-- A path that has a parent has a last piece that stands for a component; the parent is made of
the pieces before that one, less those at their end that stand for nothing. -/
theorem parent?_eq_some (h : Path.parent? path = some parent) :
    ∃ kept dropped last blanks, bodyOf path = kept ++ dropped ++ last :: blanks ∧ last ≠ "" ∧
      (∀ b ∈ dropped, b = "" ∨ b = ".") ∧ (∀ b ∈ blanks, b = "" ∨ b = ".") ∧
      parent = (if Path.isAbsolute path then "/" else "") ++ "/".intercalate kept := by
  obtain ⟨blanks, hbody, hblanks, hlast⟩ := dropBlank_spec (atStartOf path) (bodyOf path)
  rcases List.eq_nil_or_concat (Path.dropBlank (atStartOf path) (bodyOf path)) with
    hnil | ⟨front, last, hcat⟩
  · rw [parent?_eq, hnil] at h
    cases h
  · rw [List.concat_eq_append] at hcat
    obtain ⟨dropped, hfront, hdropped, -⟩ := dropBlank_spec (atStartOf path) front
    rw [parent?_eq, hcat, List.dropLast_concat] at h
    refine ⟨Path.dropBlank (atStartOf path) front, dropped, last, blanks, ?_, hlast front last hcat,
      hdropped, hblanks, ?_⟩
    · rw [← hfront, hbody, hcat, List.append_assoc]
      rfl
    · have hne : front ++ [last] ≠ [] := List.append_ne_nil_of_right_ne_nil front (by simp)
      obtain ⟨head, tail, hcons⟩ := List.exists_cons_of_ne_nil hne
      rw [hcons] at h
      exact (Option.some.inj h).symm

theorem filter_ne_empty_of_blank {blanks : List String} (h : ∀ b ∈ blanks, b = "" ∨ b = ".") :
    ∀ b ∈ blanks.filter (· != ""), b = "." := by
  intro b hb
  obtain ⟨hmem, hne⟩ := List.mem_filter.1 hb
  exact (h b hmem).resolve_left (bne_iff_ne.1 hne)

/-- The steps of a path are those of its parent and one more, dots aside. -/
theorem steps_parent (h : Path.parent? path = some parent) :
    ∃ dots last after, Store.steps path = Store.steps parent ++ dots ++ last :: after ∧
      (∀ d ∈ dots, d = ".") ∧ ∀ d ∈ after, d = "." := by
  obtain ⟨kept, dropped, last, blanks, hbody, hlast, hdropped, hblanks, hparent⟩ :=
    parent?_eq_some h
  have hkept : ∀ piece ∈ kept, '/' ∉ piece.toList := by
    intro piece hmem
    have hbodyOf : piece ∈ bodyOf path := by simp [hbody, hmem]
    exact not_mem_of_mem_bodyOf hbodyOf
  have hsteps : Store.steps parent = kept.filter (· != "") := by
    have hinter : Store.steps ("/".intercalate kept) = kept.filter (· != "") := by
      by_cases hnil : kept = []
      · subst hnil
        exact steps_empty
      · rw [Store.steps, pieces_intercalate hnil hkept]
    rw [hparent]
    split
    · have hslash := steps_append_slash "" ("/".intercalate kept)
      rwa [String.empty_append, steps_empty, List.nil_append, hinter] at hslash
    · rw [String.empty_append, hinter]
  refine ⟨dropped.filter (· != ""), last, blanks.filter (· != ""), ?_,
    filter_ne_empty_of_blank hdropped, filter_ne_empty_of_blank hblanks⟩
  rw [steps_eq_filter_bodyOf, hbody, hsteps]
  simp [List.filter_append, hlast]

theorem isAbsolute_of_pieces {next : String} {rest : List String}
    (h : Path.pieces path = "" :: next :: rest) : Path.isAbsolute path = true := by
  obtain ⟨first, tail, hsplit, hfirst, htail⟩ := List.map_eq_cons_iff.1 h
  obtain ⟨second, others, rfl, -⟩ := List.map_eq_cons_iff.1 htail
  rw [String.ofList_eq_empty_iff] at hfirst
  have hpath : List.intercalate ['/'] (path.toList.splitOn '/') = path.toList :=
    List.intercalate_splitOn '/'
  rw [hsplit, hfirst] at hpath
  simp [Path.isAbsolute, ← hpath, List.intercalate]

theorem isAbsolute_parent (h : Path.parent? path = some parent) :
    Path.isAbsolute parent = Path.isAbsolute path := by
  obtain ⟨kept, dropped, last, blanks, hbody, hlast, -, -, rfl⟩ := parent?_eq_some h
  by_cases habs : Path.isAbsolute path = true
  · rw [if_pos habs, habs]
    simp [Path.isAbsolute]
  · rw [if_neg habs, String.empty_append]
    rw [bodyOf, if_neg habs] at hbody
    have hkept : ∀ piece ∈ kept, '/' ∉ piece.toList := by
      intro piece hmem
      have hpieces : piece ∈ Path.pieces path := by simp [hbody, hmem]
      exact not_mem_of_mem_pieces hpieces
    rw [Bool.not_eq_true] at habs
    rw [habs, Bool.eq_false_iff]
    -- an absolute text here would begin with an empty piece, and so would the path
    intro hinter
    cases kept with
    | nil => exact absurd hinter (by decide)
    | cons first kept =>
      have hpieces := pieces_intercalate (List.cons_ne_nil first kept) hkept
      rw [pieces_of_isAbsolute hinter] at hpieces
      obtain ⟨rfl, -⟩ := List.cons.inj hpieces
      obtain ⟨next, rest, hnext⟩ := List.exists_cons_of_ne_nil
        (List.append_ne_nil_of_right_ne_nil (kept ++ dropped) (List.cons_ne_nil last blanks))
      rw [List.cons_append, List.cons_append, hnext] at hbody
      rw [isAbsolute_of_pieces hbody] at habs
      cases habs

theorem startOf_parent (h : Path.parent? path = some parent) (dir : Place) :
    Store.startOf parent dir = Store.startOf path dir := by
  rw [Store.startOf, Store.startOf, isAbsolute_parent h]

theorem prefix_steps_parent (h : Path.parent? path = some parent) :
    Store.steps parent <+: Store.steps path := by
  obtain ⟨dots, last, after, hsteps, -, -⟩ := steps_parent h
  exact ⟨dots ++ last :: after, by rw [hsteps, List.append_assoc]⟩

theorem blank_of_parent?_eq_none (h : Path.parent? path = none) :
    ∀ piece ∈ bodyOf path, piece = "" ∨ piece = "." := by
  obtain ⟨blanks, hbody, hblanks, -⟩ := dropBlank_spec (atStartOf path) (bodyOf path)
  cases hkept : Path.dropBlank (atStartOf path) (bodyOf path) with
  | nil =>
    rw [hkept, List.nil_append] at hbody
    rw [hbody]
    exact hblanks
  | cons first rest =>
    rw [parent?_eq, hkept] at h
    cases h

/-- A path that ends in a proper step has a parent, with the steps before that one. -/
theorem exists_parent {steps : List String} {last : String}
    (h : Store.steps path = steps ++ [last]) (hlast : last ≠ ".") :
    ∃ parent dots, Path.parent? path = some parent ∧ steps = Store.steps parent ++ dots ∧
      ∀ d ∈ dots, d = "." := by
  cases hp : Path.parent? path with
  | none =>
    have hmem : last ∈ Store.steps path := by rw [h]; simp
    rw [steps_eq_filter_bodyOf] at hmem
    exact absurd (filter_ne_empty_of_blank (blank_of_parent?_eq_none hp) last hmem) hlast
  | some parent =>
    obtain ⟨dots, step, after, hsteps, hdots, hafter⟩ := steps_parent hp
    rw [h] at hsteps
    rcases List.eq_nil_or_concat after with rfl | ⟨front, d, rfl⟩
    · obtain ⟨hfront, -⟩ := List.append_inj' hsteps rfl
      exact ⟨parent, dots, rfl, hfront, hdots⟩
    · rw [List.concat_eq_append, ← List.cons_append, ← List.append_assoc] at hsteps
      obtain ⟨-, heq⟩ := List.append_inj' hsteps rfl
      obtain rfl : last = d := by simpa using heq
      exact absurd (hafter last (by simp)) hlast

/-- A path to which a name is joined has the same text before the name, whatever the name. -/
theorem exists_bodyOf_join (base : String) :
    ∃ front absolute, ∀ name, IsStep name → bodyOf (Path.join base name) = front ++ [name] ∧
      Path.isAbsolute (Path.join base name) = absolute := by
  by_cases hbase : base = ""
  · refine ⟨[], false, ?_⟩
    intro name hname
    have habs := isAbsolute_eq_false hname.2
    simp [Path.join, hbase, bodyOf, habs, pieces_of_not_mem hname.2]
  · obtain ⟨front, hfront⟩ : ∃ front : String,
        ∀ name, IsStep name → Path.join base name = front ++ "/" ++ name := by
      by_cases hlast : base.toList.getLast? = some '/'
      · obtain ⟨front, rfl⟩ := eq_append_slash hlast
        refine ⟨front, ?_⟩
        intro name hname
        rw [Path.join, if_neg (by simp [hbase, isAbsolute_eq_false hname.2]), if_pos hlast]
      · refine ⟨base, ?_⟩
        intro name hname
        rw [Path.join, if_neg (by simp [hbase, isAbsolute_eq_false hname.2]), if_neg hlast]
    have hne : front ++ "/" ≠ "" := by simp
    refine ⟨if Path.isAbsolute (front ++ "/") then (Path.pieces front).tail else Path.pieces front,
      Path.isAbsolute (front ++ "/"), fun name hname => ?_⟩
    have hpieces : Path.pieces front ≠ [] := by
      simp [Path.pieces, List.splitOn_ne_nil]
    have habs := isAbsolute_append hne name
    rw [hfront name hname]
    refine ⟨?_, habs⟩
    rw [bodyOf, habs, pieces_append_slash, pieces_of_not_mem hname.2]
    split
    · exact List.tail_append_of_ne_nil hpieces
    · rfl

theorem dropBlank_concat {atStart : Nat → Bool} {front : List String} {name : String}
    (h : isEntryName name = true) :
    Path.dropBlank atStart (front ++ [name]) = front ++ [name] := by
  obtain ⟨hstep, hdot, hup⟩ := isEntryName_iff.1 h
  have hcomponent : ∀ i, (Path.componentOf? (atStart i) name).isNone = false := by
    intro i
    simp [Path.componentOf?, hstep.1, hdot, hup]
  simp [Path.dropBlank, List.zipIdx_append, hcomponent]

/-- The parent of a path to which a name is joined does not depend on the name. -/
theorem parent?_join {name other : String} (hname : isEntryName name = true)
    (hother : isEntryName other = true) (base : String) :
    Path.parent? (Path.join base name) = Path.parent? (Path.join base other) := by
  obtain ⟨front, absolute, hjoin⟩ := exists_bodyOf_join base
  obtain ⟨hbody, habs⟩ := hjoin name (isStep_of_isEntryName hname)
  obtain ⟨hbody', habs'⟩ := hjoin other (isStep_of_isEntryName hother)
  have hstart : atStartOf (Path.join base name) = atStartOf (Path.join base other) := by
    funext i
    rw [atStartOf, atStartOf, habs, habs']
  rw [parent?_eq, parent?_eq, hbody, hbody', dropBlank_concat hname, dropBlank_concat hother,
    List.dropLast_concat, List.dropLast_concat, habs, habs', hstart]
  cases front <;> rfl

end Parent

end Autotree
