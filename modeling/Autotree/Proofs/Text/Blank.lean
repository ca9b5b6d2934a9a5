import Mathlib.Data.List.DropRight
import Autotree.Text.Blank

/-!
# Trimming

Trimming takes the blanks off both ends (`exists_padding`) and leaves a text without any
(`trimmed_trimChars`), so blanks put around a text make no difference (`trimChars_padded`) and a
text that has none at its ends is left as it is (`Trimmed.trimChars_eq`).
-/

namespace Autotree.Text

variable {as bs cs : List Char}

/-- Characters that are blanks, all of them. -/
def AllBlank (cs : List Char) : Prop :=
  ∀ c ∈ cs, isBlank c = true

theorem AllBlank.append (ha : AllBlank as) (hb : AllBlank bs) : AllBlank (as ++ bs) :=
  fun c hc => (List.mem_append.1 hc).elim (ha c) (hb c)

theorem AllBlank.not_mem {c : Char} (h : AllBlank cs) (hc : isBlank c = false) : c ∉ cs :=
  fun hmem => absurd (h c hmem) (by simp [hc])

theorem AllBlank.count_eq_zero {c : Char} (h : AllBlank cs) (hc : isBlank c = false) :
    cs.count c = 0 :=
  List.count_eq_zero_of_not_mem (h.not_mem hc)

theorem AllBlank.reverse (h : AllBlank cs) : AllBlank cs.reverse :=
  fun c hc => h c (List.mem_reverse.1 hc)

theorem dropWhile_blank_append (ha : AllBlank as) (cs : List Char) :
    (as ++ cs).dropWhile isBlank = cs.dropWhile isBlank := by
  rw [List.dropWhile_append_of_pos ha]

theorem rdropWhile_append_blank (hb : AllBlank bs) (cs : List Char) :
    (cs ++ bs).rdropWhile isBlank = cs.rdropWhile isBlank := by
  rw [List.rdropWhile, List.reverse_append, dropWhile_blank_append hb.reverse, List.rdropWhile]

theorem trimChars_def (cs : List Char) :
    trimChars cs = (cs.dropWhile isBlank).rdropWhile isBlank :=
  rfl

theorem trimChars_eq_nil (h : AllBlank cs) : trimChars cs = [] := by
  rw [trimChars_def, List.dropWhile_eq_nil_iff.2 h, List.rdropWhile_nil]

theorem trimChars_blank_append (ha : AllBlank as) (cs : List Char) :
    trimChars (as ++ cs) = trimChars cs := by
  rw [trimChars_def, dropWhile_blank_append ha, trimChars_def]

theorem trimChars_append_blank (hb : AllBlank bs) (cs : List Char) :
    trimChars (cs ++ bs) = trimChars cs := by
  by_cases hcs : AllBlank cs
  · rw [trimChars_eq_nil hcs, trimChars_eq_nil (hcs.append hb)]
  · have hne : (cs.dropWhile isBlank).isEmpty = false := by
      rw [List.isEmpty_eq_false_iff, Ne, List.dropWhile_eq_nil_iff]
      exact hcs
    rw [trimChars_def, List.dropWhile_append, hne, if_neg Bool.false_ne_true,
      rdropWhile_append_blank hb, trimChars_def]

/-- Blanks around a text are trimmed away. -/
theorem trimChars_padded (ha : AllBlank as) (hb : AllBlank bs) (cs : List Char) :
    trimChars (as ++ cs ++ bs) = trimChars cs := by
  rw [trimChars_append_blank hb, trimChars_blank_append ha]

/-! ## A character that is not blank -/

theorem dropWhile_append_cons {α : Type} {p : α → Bool} {c : α} (hc : p c = false)
    (front back : List α) :
    (front ++ c :: back).dropWhile p = front.dropWhile p ++ c :: back := by
  induction front with
  | nil => simp [hc]
  | cons d front ih =>
    rw [List.cons_append, List.dropWhile_cons, List.dropWhile_cons]
    split
    · exact ih
    · rfl

/-- Trimming stops at a character that is not blank. -/
theorem trimChars_append_cons {c : Char} (hc : isBlank c = false) (front back : List Char) :
    trimChars (front ++ c :: back) =
      front.dropWhile isBlank ++ c :: back.rdropWhile isBlank := by
  rw [trimChars_def, dropWhile_append_cons hc, List.rdropWhile, List.reverse_append,
    List.reverse_cons, List.append_assoc, List.singleton_append, dropWhile_append_cons hc]
  simp [List.rdropWhile]

theorem trimChars_dropWhile (cs : List Char) : trimChars (cs.dropWhile isBlank) = trimChars cs := by
  rw [trimChars_def, List.dropWhile_idempotent, trimChars_def]

theorem not_isBlank_of_head?_dropWhile {c : Char} (h : (cs.dropWhile isBlank).head? = some c) :
    isBlank c = false := by
  have hnot := List.head?_dropWhile_not isBlank cs
  rw [h] at hnot
  exact hnot

theorem head?_trimChars (cs : List Char) :
    (trimChars cs).head? = (cs.dropWhile isBlank).head? := by
  cases hcs : cs.dropWhile isBlank with
  | nil => rw [trimChars_def, hcs]; rfl
  | cons c rest =>
    have hc : isBlank c = false :=
      @not_isBlank_of_head?_dropWhile cs c (by rw [hcs]; rfl)
    have htrim := trimChars_append_cons hc [] rest
    rw [List.nil_append, ← hcs, trimChars_dropWhile] at htrim
    rw [htrim]
    rfl

/-! ## Trimmed texts -/

/-- Characters without a blank at either end. -/
structure Trimmed (cs : List Char) : Prop where
  head : ∀ c ∈ cs.head?, isBlank c = false
  last : ∀ c ∈ cs.getLast?, isBlank c = false

theorem Trimmed.trimChars_eq (h : Trimmed cs) : trimChars cs = cs := by
  have hfront : cs.dropWhile isBlank = cs := by
    cases cs with
    | nil => rfl
    | cons c cs => rw [List.dropWhile_cons, h.head c rfl, if_neg Bool.false_ne_true]
  rw [trimChars_def, hfront, List.rdropWhile_eq_self_iff]
  intro hne hblank
  have hlast := h.last _ (List.getLast?_eq_some_getLast hne)
  exact absurd hblank (by simp [hlast])

/-- What trimming takes off is blank. -/
theorem exists_padding (cs : List Char) :
    ∃ as bs, AllBlank as ∧ AllBlank bs ∧ cs = as ++ trimChars cs ++ bs := by
  refine ⟨cs.takeWhile isBlank, (cs.dropWhile isBlank).rtakeWhile isBlank,
    fun c hc => List.mem_takeWhile_imp hc, fun c hc => List.mem_rtakeWhile_imp hc, ?_⟩
  rw [List.append_assoc, trimChars_def, List.rdropWhile_append_rtakeWhile,
    List.takeWhile_append_dropWhile]

theorem mem_of_mem_trimChars {c : Char} (h : c ∈ trimChars cs) : c ∈ cs := by
  obtain ⟨as, bs, -, -, hcs⟩ := exists_padding cs
  rw [hcs]
  exact List.mem_append_left _ (List.mem_append_right _ h)

/-- Nothing is left to trim of what was trimmed. -/
theorem trimmed_trimChars (cs : List Char) : Trimmed (trimChars cs) := by
  constructor
  · intro c hc
    rw [head?_trimChars] at hc
    exact not_isBlank_of_head?_dropWhile hc
  · intro c hc
    have hne : trimChars cs ≠ [] := by
      intro hnil
      rw [hnil] at hc
      cases hc
    have hnot := List.rdropWhile_last_not isBlank (cs.dropWhile isBlank) hne
    rw [List.getLast?_eq_some_getLast hne, Option.mem_some_iff] at hc
    rw [← hc]
    exact eq_false_of_ne_true hnot

end Autotree.Text
