import Autotree.Proofs.Path.Names
import Mathlib.Data.List.Infix

/-!
# The way up from a path

The parent of a path has all components but the last (`components_parent`), and its text is the
beginning of the path's (`exists_eq_parent_append`).  So going from parent to parent (`Upward`)
ends, at the empty path or at the root, and passes each beginning of the list of components once,
the longest first (`Upward.map_components`, `Upward.nodup`).
-/

namespace Autotree.Path

variable {path parent dir : String} {pieces front kept dirs dirs' : List String}
  {atStart : Nat → Bool}

/-! ## Components by position -/

/-- The components that pieces stand for, when it depends on the position whether a piece is at the
start of a relative path. -/
def componentsAt (atStart : Nat → Bool) (pieces : List String) : List Component :=
  pieces.zipIdx.filterMap fun (piece, i) => componentOf? (atStart i) piece

theorem componentsAt_concat (atStart : Nat → Bool) (front : List String) (last : String) :
    componentsAt atStart (front ++ [last]) =
      componentsAt atStart front ++ (componentOf? (atStart front.length) last).toList := by
  unfold componentsAt
  rw [List.zipIdx_append, List.filterMap_append]
  cases hlast : componentOf? (atStart front.length) last <;> simp [hlast]

theorem filterMap_zipIdx (atStart : Bool) (pieces : List String) (i : Nat) :
    (pieces.zipIdx i).filterMap (fun (piece, _) => componentOf? atStart piece) =
      pieces.filterMap (componentOf? atStart) := by
  conv_rhs => rw [← List.zipIdx_map_fst i pieces, List.filterMap_map]
  rfl

/-- The components of a path are those of its body, after the root of an absolute path. -/
theorem components_eq_componentsAt (path : String) :
    components path =
      (if isAbsolute path then [.root] else []) ++ componentsAt (atStartOf path) (bodyOf path) := by
  by_cases habs : isAbsolute path = true
  · have hstart : atStartOf path = fun _ => false := by
      funext i
      rw [atStartOf, habs]
      rfl
    rw [components, if_pos habs, if_pos habs, hstart, componentsAt, filterMap_zipIdx,
      pieces_of_isAbsolute habs]
    rfl
  · rw [Bool.not_eq_true] at habs
    have hstart : atStartOf path = fun i => i == 0 := by
      funext i
      rw [atStartOf, habs]
      rfl
    obtain ⟨first, rest, hpieces⟩ := List.exists_cons_of_ne_nil (pieces_ne_nil path)
    have hlater : ((rest.zipIdx 1).filterMap fun (piece, i) => componentOf? (i == 0) piece) =
        laterComponents rest := by
      rw [laterComponents, ← filterMap_zipIdx false rest 1]
      refine List.filterMap_congr ?_
      rintro ⟨piece, i⟩ hmem
      obtain ⟨hi, -, -⟩ := List.mem_zipIdx hmem
      have hstart : (i == 0) = false := beq_false_of_ne (by omega)
      simp only [hstart]
    rw [components_eq hpieces, bodyOf, habs, hstart, hpieces, componentsAt]
    simp only [firstComponents, Bool.false_eq_true, if_false, List.nil_append, List.zipIdx_cons,
      Nat.zero_add, ← hlater]
    cases hfirst : componentOf? true first <;> simp [hfirst]

/-- What `dropBlank` drops stands for no component where it is, and the last piece that it keeps
does. -/
theorem dropBlank_zipIdx (atStart : Nat → Bool) (pieces : List String) :
    ∃ blanks, pieces.zipIdx = (dropBlank atStart pieces).zipIdx ++ blanks ∧
      (∀ b ∈ blanks, componentOf? (atStart b.2) b.1 = none) ∧
      ∀ front last, dropBlank atStart pieces = front ++ [last] →
        ∃ c, componentOf? (atStart front.length) last = some c := by
  let isBlank : String × Nat → Bool := fun e => (componentOf? (atStart e.2) e.1).isNone
  have hsplit : pieces.zipIdx = (pieces.zipIdx.reverse.dropWhile isBlank).reverse ++
      (pieces.zipIdx.reverse.takeWhile isBlank).reverse := by
    rw [← List.reverse_append, List.takeWhile_append_dropWhile, List.reverse_reverse]
  obtain ⟨kept, -, -, hkept, -⟩ := List.zipIdx_eq_append_iff.1 hsplit
  have hdrop : dropBlank atStart pieces = kept := by
    rw [← List.zipIdx_map_fst 0 kept, ← hkept]
    rfl
  refine ⟨(pieces.zipIdx.reverse.takeWhile isBlank).reverse, ?_, ?_, ?_⟩
  · rw [hdrop, ← hkept, ← hsplit]
  · intro b hb
    have hblank := List.all_eq_true.1 List.all_takeWhile b (List.mem_reverse.1 hb)
    exact Option.isNone_iff_eq_none.1 hblank
  · rintro front last hfront
    rw [hdrop] at hfront
    have hhead : (pieces.zipIdx.reverse.dropWhile isBlank).head? = some (last, front.length) := by
      rw [← List.getLast?_reverse, hkept, hfront, List.zipIdx_append]
      simp
    have hnot := List.head?_dropWhile_not isBlank pieces.zipIdx.reverse
    rw [hhead] at hnot
    exact Option.isSome_iff_exists.1 (by simpa [isBlank] using hnot)

theorem componentsAt_dropBlank (atStart : Nat → Bool) (pieces : List String) :
    componentsAt atStart (dropBlank atStart pieces) = componentsAt atStart pieces := by
  obtain ⟨blanks, hsplit, hblanks, -⟩ := dropBlank_zipIdx atStart pieces
  have hnone : blanks.filterMap (fun (piece, i) => componentOf? (atStart i) piece) = [] :=
    List.filterMap_eq_nil_iff.2 hblanks
  rw [componentsAt, componentsAt, hsplit, List.filterMap_append, hnone, List.append_nil]

/-! ## Texts of bodies -/

/-- The path with a given body. -/
def ofBody (absolute : Bool) (body : List String) : String :=
  (if absolute then "/" else "") ++ "/".intercalate body

theorem intercalate_pieces (path : String) : "/".intercalate (Path.pieces path) = path := by
  have htexts : (Path.pieces path).map String.toList = path.toList.splitOn '/' := by
    simp [Path.pieces, Function.comp_def]
  rw [← String.toList_inj, String.toList_intercalate, htexts]
  exact List.intercalate_splitOn '/'

theorem ofBody_bodyOf (path : String) : ofBody (isAbsolute path) (bodyOf path) = path := by
  have hpath := intercalate_pieces path
  by_cases habs : isAbsolute path = true
  · rw [pieces_of_isAbsolute habs] at hpath
    have hne : bodyOf path ≠ [] := by
      intro hnil
      rw [hnil, String.intercalate_singleton] at hpath
      rw [← hpath] at habs
      cases habs
    rw [String.intercalate_cons_of_ne_nil hne, String.empty_append] at hpath
    rw [ofBody, if_pos habs, hpath]
  · rw [ofBody, if_neg habs, bodyOf, if_neg habs, hpath, String.empty_append]

/-- A body can be read off its text, where no body at all is an empty piece. -/
theorem bodyOf_ofBody {absolute : Bool} (h : ∀ piece ∈ kept, '/' ∉ piece.toList)
    (habs : isAbsolute (ofBody absolute kept) = absolute) :
    bodyOf (ofBody absolute kept) = if kept = [] then [""] else kept := by
  have hpieces : Path.pieces ("/".intercalate kept) = if kept = [] then [""] else kept := by
    split
    · next hnil => rw [hnil]; decide
    · next hne => exact pieces_intercalate hne h
  rw [bodyOf, habs, ← hpieces]
  cases absolute with
  | true =>
    have hslash := pieces_append_slash "" ("/".intercalate kept)
    rw [String.empty_append] at hslash
    rw [ofBody, if_pos rfl, if_pos rfl, hslash]
    rfl
  | false => simp [ofBody]

/-! ## Parents -/

theorem parent?_eq_none_iff :
    parent? path = none ↔ dropBlank (atStartOf path) (bodyOf path) = [] := by
  rw [parent?_eq]
  cases dropBlank (atStartOf path) (bodyOf path) <;> simp

theorem parent?_eq_some_iff :
    parent? path = some parent ↔
      ∃ front last, dropBlank (atStartOf path) (bodyOf path) = front ++ [last] ∧
        parent = ofBody (isAbsolute path) (dropBlank (atStartOf path) front) := by
  rcases List.eq_nil_or_concat (dropBlank (atStartOf path) (bodyOf path)) with
    hnil | ⟨front, last, hcat⟩
  · rw [parent?_eq_none_iff.2 hnil, hnil]
    simp
  · rw [List.concat_eq_append] at hcat
    have hparent : parent? path =
        some (ofBody (isAbsolute path) (dropBlank (atStartOf path) front)) := by
      rw [parent?_eq, hcat, List.dropLast_concat]
      cases front <;> rfl
    rw [hparent, hcat]
    constructor
    · rintro h
      exact ⟨front, last, rfl, (Option.some.inj h).symm⟩
    · rintro ⟨front', last', heq, rfl⟩
      rw [(List.append_inj' heq rfl).1]

/-- A path without a parent is empty, or the root. -/
theorem components_of_parent?_eq_none (h : parent? path = none) :
    components path = if isAbsolute path then [.root] else [] := by
  rw [components_eq_componentsAt, ← componentsAt_dropBlank, parent?_eq_none_iff.1 h]
  exact List.append_nil _

/-- A parent has one component less. -/
theorem components_parent (h : parent? path = some parent) :
    ∃ c, components path = components parent ++ [c] := by
  obtain ⟨front, last, hcat, hparent⟩ := parent?_eq_some_iff.1 h
  obtain ⟨-, -, -, hlast⟩ := dropBlank_zipIdx (atStartOf path) (bodyOf path)
  obtain ⟨c, hc⟩ := hlast front last hcat
  have habs := isAbsolute_parent h
  have hstart : atStartOf parent = atStartOf path := by
    funext i
    rw [atStartOf, atStartOf, habs]
  have hslashes : ∀ piece ∈ dropBlank (atStartOf path) front, '/' ∉ piece.toList := by
    obtain ⟨blanks, hbody, -, -⟩ := dropBlank_spec (atStartOf path) (bodyOf path)
    obtain ⟨blanks', hfront, -, -⟩ := dropBlank_spec (atStartOf path) front
    intro piece hpiece
    have hmem : piece ∈ bodyOf path := by
      rw [hbody, hcat, hfront]
      simp [hpiece]
    exact not_mem_of_mem_bodyOf hmem
  have hbody :
      componentsAt (atStartOf path) (bodyOf parent) = componentsAt (atStartOf path) front := by
    rw [hparent] at habs ⊢
    rw [bodyOf_ofBody hslashes habs, ← componentsAt_dropBlank (atStartOf path) front]
    split
    · next hnil => rw [hnil]; rfl
    · rfl
  refine ⟨c, ?_⟩
  rw [components_eq_componentsAt path, components_eq_componentsAt parent, habs, hstart, hbody,
    ← componentsAt_dropBlank (atStartOf path) (bodyOf path), hcat, componentsAt_concat, hc]
  simp

/-- The text of a parent is the beginning of the path's. -/
theorem exists_eq_parent_append (h : parent? path = some parent) :
    ∃ rest, rest ≠ "" ∧ path = parent ++ rest := by
  obtain ⟨kept, dropped, last, blanks, hbody, hlast, -, -, hparent⟩ := parent?_eq_some h
  have hpath := ofBody_bodyOf path
  have hslashes : ∀ piece ∈ dropped ++ last :: blanks, '/' ∉ piece.toList := by
    intro piece hpiece
    have hmem : piece ∈ bodyOf path := by
      rw [hbody, List.append_assoc]
      exact List.mem_append_right kept hpiece
    exact not_mem_of_mem_bodyOf hmem
  rw [ofBody, hbody, List.append_assoc] at hpath
  have hrest : dropped ++ last :: blanks ≠ [] := by simp
  by_cases hkept : kept = []
  · refine ⟨"/".intercalate (dropped ++ last :: blanks), ?_, ?_⟩
    · -- the empty text has no other piece than the empty one
      intro hempty
      have hpieces := pieces_intercalate hrest hslashes
      rw [hempty, show Path.pieces "" = [""] by decide] at hpieces
      have hmem : last ∈ [""] := by
        rw [hpieces]
        simp
      exact hlast (List.mem_singleton.1 hmem)
    · rw [hparent, hkept, String.intercalate_nil, String.append_empty]
      rw [hkept, List.nil_append] at hpath
      exact hpath.symm
  · refine ⟨"/" ++ "/".intercalate (dropped ++ last :: blanks), by simp, ?_⟩
    rw [← hpath, hparent, String.intercalate_append_of_ne_nil hkept hrest]
    simp only [String.append_assoc]

theorem length_parent_lt (h : parent? path = some parent) : parent.length < path.length := by
  obtain ⟨rest, hrest, rfl⟩ := exists_eq_parent_append h
  have hpos : rest.length ≠ 0 := fun hzero => hrest (String.length_eq_zero_iff.1 hzero)
  rw [String.length_append]
  omega

/-! ## Upward -/

/-- The directories upward from one: each is followed by its parent, the last one has none. -/
inductive Upward : String → List String → Prop
  | top {dir : String} (h : parent? dir = none) : Upward dir [dir]
  | step {dir parent : String} {dirs : List String} (h : parent? dir = some parent)
      (hrest : Upward parent dirs) : Upward dir (dir :: dirs)

theorem Upward.unique (h : Upward dir dirs) (h' : Upward dir dirs') : dirs = dirs' := by
  induction h generalizing dirs' with
  | top h =>
    cases h' with
    | top => rfl
    | step hparent => rw [h] at hparent; cases hparent
  | step h _ ih =>
    cases h' with
    | top hnone => rw [h] at hnone; cases hnone
    | step hparent hrest =>
      obtain rfl := Option.some.inj (h.symm.trans hparent)
      rw [ih hrest]

/-- The directories have the beginnings of the list of components, all but the one without the root
of an absolute path. -/
theorem Upward.map_components (h : Upward dir dirs) :
    dirs.map components = (if isAbsolute dir then (components dir).inits.tail
      else (components dir).inits).reverse := by
  induction h with
  | top h =>
    rw [List.map_singleton, components_of_parent?_eq_none h]
    split <;> rfl
  | @step dir parent dirs h _ ih =>
    obtain ⟨c, hc⟩ := components_parent h
    have hne : (components parent).inits ≠ [] :=
      List.ne_nil_of_mem ((List.mem_inits _ _).2 List.nil_prefix)
    rw [List.map_cons, ih, isAbsolute_parent h, hc, List.inits_append]
    split
    · simp [List.tail_append_of_ne_nil hne]
    · simp

/-- Every directory but the first is shorter than the first. -/
theorem Upward.length_le (h : Upward dir dirs) : ∀ d ∈ dirs, d.length ≤ dir.length := by
  induction h with
  | top => simp
  | step h _ ih =>
    have hlt := length_parent_lt h
    refine List.forall_mem_cons.2 ⟨Nat.le_refl _, fun d hd => ?_⟩
    have hle := ih d hd
    omega

theorem Upward.nodup (h : Upward dir dirs) : dirs.Nodup := by
  induction h with
  | top => simp
  | step h hrest ih =>
    refine List.nodup_cons.2 ⟨fun hmem => ?_, ih⟩
    have hlt := length_parent_lt h
    have hle := hrest.length_le _ hmem
    omega

end Autotree.Path
