import Autotree.Text.Lines
import Autotree.Proofs.Text.Blank

/-!
# The pieces of a text between line feeds

A text is its pieces with line feeds between them.  A line is a piece without its carriage return,
and a text that ends in a line feed has one piece more than it has lines, an empty one.  Who trims
lines and skips the blank ones may as well take the pieces.
-/

namespace Autotree.Text

/-! ## Splitting at a character -/

theorem not_mem_of_mem_splitOn {α : Type} [BEq α] [LawfulBEq α] {a : α} {xs l : List α}
    (h : l ∈ xs.splitOn a) : a ∉ l := by
  induction xs generalizing l with
  | nil =>
    rw [List.splitOn_nil, List.mem_singleton] at h
    simp [h]
  | cons x xs ih =>
    rw [List.splitOn_cons_eq_if_modifyHead] at h
    split at h
    · rcases List.mem_cons.1 h with rfl | h
      · simp
      · exact ih h
    · next hx =>
      obtain ⟨first, rest, hsplit⟩ := List.exists_cons_of_ne_nil (List.splitOn_ne_nil a xs)
      rw [hsplit, List.modifyHead_cons] at h
      rcases List.mem_cons.1 h with rfl | h
      · have hfirst : a ∉ first := ih (hsplit ▸ List.mem_cons_self)
        have hne : a ≠ x := fun heq => hx (beq_iff_eq.2 heq.symm)
        exact fun hmem => (List.mem_cons.1 hmem).elim hne hfirst
      · exact ih (hsplit ▸ List.mem_cons_of_mem _ h)

theorem splitOn_append_of_not_mem {c : Char} {front : List Char} (h : c ∉ front)
    (back : List Char) :
    (front ++ back).splitOn c = (back.splitOn c).modifyHead (front ++ ·) := by
  induction front with
  | nil => exact (List.modifyHead_id ▸ rfl)
  | cons d front ih =>
    have hd : (d == c) = false := beq_false_of_ne fun heq => h (heq ▸ List.mem_cons_self)
    have hfront : c ∉ front := fun hmem => h (List.mem_cons_of_mem _ hmem)
    rw [List.cons_append, List.splitOn_cons_eq_if_modifyHead, hd, ih hfront]
    simp [Function.comp_def]

/-- A character with only one occurrence in a text splits it in two. -/
theorem exists_of_count_eq_one {c : Char} {cs : List Char} (h : cs.count c = 1) :
    ∃ front back, cs = front ++ c :: back ∧ c ∉ front ∧ c ∉ back := by
  have hmem : c ∈ cs := List.count_pos_iff.1 (by omega)
  obtain ⟨front, back, rfl, hfront⟩ := List.eq_append_cons_of_mem hmem
  rw [List.count_append, List.count_cons_self, List.count_eq_zero_of_not_mem hfront] at h
  exact ⟨front, back, rfl, hfront, List.count_eq_zero.1 (by omega)⟩

theorem splitOn_eq_pair {c : Char} {front back : List Char} (hfront : c ∉ front)
    (hback : c ∉ back) : (front ++ c :: back).splitOn c = [front, back] := by
  rw [List.splitOn_append_cons_self_of_not_mem hfront, List.splitOn_eq_singleton hback]

theorem count_of_splitOn_eq_pair {c : Char} {cs front back : List Char}
    (h : cs.splitOn c = [front, back]) : cs.count c = 1 := by
  have hfront : c ∉ front := not_mem_of_mem_splitOn (by rw [h]; simp)
  have hback : c ∉ back := not_mem_of_mem_splitOn (by rw [h]; simp)
  have hcs : cs = front ++ c :: back := by
    rw [← @List.intercalate_splitOn _ cs _ _ c, h]
    simp
  rw [hcs, List.count_append, List.count_cons_self, List.count_eq_zero_of_not_mem hfront,
    List.count_eq_zero_of_not_mem hback]

/-! ## Pieces and lines -/

/-- What stands between the line feeds of a text. -/
def pieces (text : String) : List (List Char) :=
  text.toList.splitOn '\n'

theorem pieces_ne_nil (text : String) : pieces text ≠ [] :=
  List.splitOn_ne_nil _ _

theorem pieces_of_not_mem {text : String} (h : '\n' ∉ text.toList) : pieces text = [text.toList] :=
  List.splitOn_eq_singleton h

theorem length_pieces (text : String) : (pieces text).length = 1 + text.toList.count '\n' := by
  unfold pieces
  induction text.toList with
  | nil => rfl
  | cons c cs ih =>
    rw [List.splitOn_cons_eq_if_modifyHead]
    by_cases hc : c = '\n'
    · simp [hc, ih, Nat.add_comm]
    · simp [hc, ih]

theorem pieces_append (text more : String) :
    pieces (text ++ "\n" ++ more) = pieces text ++ pieces more := by
  simp [pieces, List.splitOn_append_cons_self]

theorem charLines_eq (text : String) : charLines text.toList = (lines text).map String.toList := by
  simp [lines, Function.comp_def]

/-- A line that stands in a text as it is: without line feed, and no carriage return at its end. -/
def Whole (line : String) : Prop :=
  '\n' ∉ line.toList ∧ line.toList.getLast? ≠ some '\r'

/-- Lines that end in a line feed each are the lines of their text. -/
theorem lines_join {ls : List String} (h : ∀ line ∈ ls, Whole line) :
    lines (String.join (ls.map (· ++ "\n"))) = ls := by
  induction ls with
  | nil => rfl
  | cons line ls ih =>
    obtain ⟨⟨hbreak, hreturn⟩, hls⟩ := List.forall_mem_cons.1 h
    specialize ih hls
    rw [lines, charLines] at ih ⊢
    have hsplit : (String.join ((line :: ls).map (· ++ "\n"))).toList.splitOn '\n' =
        line.toList :: (String.join (ls.map (· ++ "\n"))).toList.splitOn '\n' := by
      simp [List.splitOn_append_cons_self_of_not_mem hbreak]
    obtain ⟨first, rest, hrest⟩ := List.exists_cons_of_ne_nil
      (List.splitOn_ne_nil '\n' (String.join (ls.map (· ++ "\n"))).toList)
    rw [hsplit, hrest, linesOfPieces, dropReturn, if_neg hreturn, List.map_cons, ← hrest, ih,
      String.ofList_toList]
    exact hrest ▸ List.cons_ne_nil first rest

theorem trimChars_dropReturn (line : List Char) : trimChars (dropReturn line) = trimChars line := by
  rw [dropReturn]
  split
  · next hlast =>
    obtain ⟨front, rfl⟩ := List.getLast?_eq_some_iff.1 hlast
    have hreturn : AllBlank ['\r'] := by simp [AllBlank, isBlank]
    rw [List.dropLast_concat, trimChars_append_blank hreturn]
  · rfl

end Autotree.Text
