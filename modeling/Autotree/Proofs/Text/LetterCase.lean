import Autotree.Proofs.Text.Blank
import Autotree.Text.LetterCase

/-!
# Uppercase texts

The uppercase form of a text is its own uppercase form (`upper_upper`), and it has blanks where the
text has them.  Both are facts about the table: what it maps to is nothing that it maps, and no
blank (`outputs_apart`).  Two runs of the table may lie inside one another, one at the even and one
at the odd code points, so they are told apart by parity where their bounds do not tell.
-/

namespace Autotree.Text

/-! ## The table -/

def CaseRange.point (n : Nat) : CaseRange :=
  ⟨n, n, 1, n⟩

/-- Whether it can be seen that nothing to which a run maps lies on another run. -/
def CaseRange.apart (r q : CaseRange) : Bool :=
  Nat.blt (r.target + (r.last - r.first)) q.first || Nat.blt q.last r.target ||
    (Nat.beq q.step 2 && (Nat.beq r.step 2 || Nat.beq r.first r.last) &&
      Nat.beq ((r.target + q.first) % 2) 1)

/-- Whether everything to which a run maps is a character. -/
def CaseRange.mapsToChars (r : CaseRange) : Bool :=
  let greatest := r.target + (r.last - r.first)
  Nat.blt greatest 0xD800 || (Nat.blt 0xDFFF r.target && Nat.blt greatest 0x110000)

def blankPoints : List Nat :=
  [9, 10, 11, 12, 13, 0x20, 0x85, 0xA0, 0x1680, 0x2000, 0x2001, 0x2002, 0x2003, 0x2004, 0x2005,
    0x2006, 0x2007, 0x2008, 0x2009, 0x200A, 0x2028, 0x2029, 0x202F, 0x205F, 0x3000]

/-- The runs that the table maps. -/
def inputs : List CaseRange :=
  upperRanges ++ upperExpansions.map (CaseRange.point ·.1)

/-- The runs whose targets the table maps to. -/
def outputs : List CaseRange :=
  upperRanges ++ (upperExpansions.flatMap (·.2)).map CaseRange.point

theorem outputs_apart :
    outputs.all (fun r =>
      r.mapsToChars && (inputs ++ blankPoints.map CaseRange.point).all r.apart) = true := by
  decide +kernel

theorem CaseRange.map?_eq_some {r : CaseRange} {n m : Nat} (h : r.map? n = some m) :
    r.first ≤ n ∧ n ≤ r.last ∧ (n - r.first) % r.step = 0 ∧ m = r.target + (n - r.first) := by
  rw [CaseRange.map?] at h
  split at h
  · next hon => exact ⟨hon.1, hon.2.1, hon.2.2, (Option.some_inj.1 h).symm⟩
  · cases h

theorem CaseRange.map?_point (k n : Nat) :
    (CaseRange.point k).map? n = if n = k then some n else none := by
  by_cases hn : n = k
  · simp [hn, CaseRange.map?, CaseRange.point]
  · rw [if_neg hn, CaseRange.map?, if_neg]
    rintro ⟨hfirst, hlast, -⟩
    exact hn (Nat.le_antisymm hlast hfirst)

theorem CaseRange.map?_of_apart {r q : CaseRange} {n m : Nat} (hapart : r.apart q = true)
    (h : r.map? n = some m) : q.map? m = none := by
  obtain ⟨hfirst, hlast, hstep, hm⟩ := CaseRange.map?_eq_some h
  rw [CaseRange.map?, if_neg]
  rintro ⟨hqfirst, hqlast, hqstep⟩
  simp only [CaseRange.apart, Bool.or_eq_true, Bool.and_eq_true, Nat.blt_eq, Nat.beq_eq] at hapart
  rcases hapart with (hbelow | habove) | ⟨⟨htwo, hspaced⟩, hodd⟩
  · omega
  · omega
  -- the second run has every other code point, and `m` is one of those between
  · rw [htwo] at hqstep
    rcases hspaced with hrtwo | hone
    · rw [hrtwo] at hstep
      omega
    · omega

theorem CaseRange.isValidChar_of_mapsToChars {r : CaseRange} {n m : Nat}
    (hchars : r.mapsToChars = true) (h : r.map? n = some m) : m.isValidChar := by
  obtain ⟨hfirst, hlast, -, hm⟩ := CaseRange.map?_eq_some h
  simp only [CaseRange.mapsToChars, Bool.or_eq_true, Bool.and_eq_true, Nat.blt_eq] at hchars
  rw [Nat.isValidChar]
  omega

/-- A code point that the table does not map. -/
def Unmapped (n : Nat) : Prop :=
  ∀ r ∈ inputs, r.map? n = none

theorem unmapped_iff {n : Nat} :
    Unmapped n ↔
      upperRanges.findSome? (·.map? n) = none ∧ upperExpansions.lookup n = none := by
  simp only [Unmapped, inputs, List.mem_append, List.mem_map, or_imp, forall_and,
    forall_exists_index, and_imp, forall_apply_eq_imp_iff₂, CaseRange.map?_point, ite_eq_right_iff,
    reduceCtorEq, List.findSome?_eq_none_iff, List.lookup_eq_none_iff, bne_iff_ne, ne_eq]

theorem Unmapped.upperCodePoint_eq {n : Nat} (h : Unmapped n) : upperCodePoint n = [n] := by
  obtain ⟨hruns, hexpansions⟩ := unmapped_iff.1 h
  rw [upperCodePoint, hruns, hexpansions]
  rfl

/-- A code point of an uppercase form is the code point itself or one that the table maps to. -/
theorem mem_upperCodePoint {n m : Nat} (h : m ∈ upperCodePoint n) :
    m = n ∧ Unmapped n ∨ ∃ r ∈ outputs, ∃ x, r.map? x = some m := by
  rw [upperCodePoint] at h
  split at h
  · next hrun =>
    obtain ⟨r, hr, hmap⟩ := List.exists_of_findSome?_eq_some hrun
    rw [List.mem_singleton.1 h]
    exact .inr ⟨r, List.mem_append_left _ hr, n, hmap⟩
  · next hruns =>
    cases hlookup : upperExpansions.lookup n with
    | none =>
      rw [hlookup] at h
      exact .inl ⟨List.mem_singleton.1 h, unmapped_iff.2 ⟨hruns, hlookup⟩⟩
    | some ms =>
      rw [hlookup] at h
      obtain ⟨before, after, htable, -⟩ := List.lookup_eq_some_iff.1 hlookup
      have hmem : (n, ms) ∈ upperExpansions := by simp [htable]
      refine .inr ⟨.point m, List.mem_append_right _ ?_, m, by simp [CaseRange.map?_point]⟩
      exact List.mem_map_of_mem (List.mem_flatMap.2 ⟨_, hmem, h⟩)

/-- What the table maps to is a character, nothing that the table maps, and no blank. -/
theorem unmapped_of_mem_outputs {r : CaseRange} {x m : Nat} (hr : r ∈ outputs)
    (hmap : r.map? x = some m) : m.isValidChar ∧ Unmapped m ∧ m ∉ blankPoints := by
  have h := List.all_eq_true.1 outputs_apart r hr
  rw [Bool.and_eq_true, List.all_eq_true] at h
  refine ⟨CaseRange.isValidChar_of_mapsToChars h.1 hmap, fun q hq => ?_, fun hblank => ?_⟩
  · exact CaseRange.map?_of_apart (h.2 q (List.mem_append_left _ hq)) hmap
  · have hnone := CaseRange.map?_of_apart
      (h.2 (.point m) (List.mem_append_right _ (List.mem_map_of_mem hblank))) hmap
    simp [CaseRange.map?_point] at hnone

/-- The run of the ASCII letters, the first one of the table. -/
def asciiLetters : CaseRange :=
  ⟨0x61, 0x7A, 1, 0x41⟩

theorem upperRanges_eq : upperRanges = asciiLetters :: upperRanges.tail :=
  rfl

theorem inputs_above_ascii : inputs.tail.all (fun r => Nat.ble 128 r.first) = true := by
  decide +kernel

theorem upperCodePoint_ascii {n : Nat} (h : n < 128) :
    upperCodePoint n = [(Char.ofNat n).toUpper.toNat] := by
  have hletters : ∀ n < 128, (asciiLetters.map? n).getD n = (Char.ofNat n).toUpper.toNat := by
    decide
  rw [← hletters n h]
  cases hfirst : asciiLetters.map? n with
  | some m =>
    rw [upperCodePoint, upperRanges_eq, List.findSome?_cons, hfirst]
    rfl
  | none =>
    have hunmapped : Unmapped n := by
      refine List.forall_mem_cons.2 ⟨hfirst, fun r hr => ?_⟩
      have habove := Nat.le_of_ble_eq_true (List.all_eq_true.1 inputs_above_ascii r hr)
      rw [CaseRange.map?, if_neg]
      omega
    rw [hunmapped.upperCodePoint_eq]
    rfl

theorem upperCodePoint_blank : ∀ n ∈ blankPoints, upperCodePoint n = [n] := by
  decide +kernel

/-! ## Characters -/

theorem isBlank_iff (c : Char) : isBlank c = true ↔ c.toNat ∈ blankPoints := by
  simp [isBlank, blankPoints]
  omega

theorem upperChar_eq (c : Char) : upperChar c = (upperCodePoint c.toNat).map Char.ofNat := by
  rw [upperChar]
  split
  · next hascii => simp [upperCodePoint_ascii hascii]
  · rfl

theorem upperChar_blank {c : Char} (h : isBlank c = true) : upperChar c = [c] := by
  simp [upperChar_eq, upperCodePoint_blank _ ((isBlank_iff c).1 h)]

theorem toNat_ofNat_of_isValidChar {n : Nat} (h : n.isValidChar) : (Char.ofNat n).toNat = n := by
  rw [Char.ofNat, dif_pos h]
  rfl

/-- A character of an uppercase form is its own uppercase form, and it is blank only in that of a
blank. -/
theorem upperChar_of_mem {c d : Char} (h : d ∈ upperChar c) :
    upperChar d = [d] ∧ isBlank d = isBlank c := by
  by_cases hblank : isBlank c
  · rw [upperChar_blank hblank, List.mem_singleton] at h
    rw [h]
    exact ⟨upperChar_blank hblank, rfl⟩
  · rw [upperChar_eq] at h
    obtain ⟨m, hm, rfl⟩ := List.mem_map.1 h
    rcases mem_upperCodePoint hm with ⟨rfl, hunmapped⟩ | ⟨r, hr, x, hmap⟩
    · simp [upperChar_eq, hunmapped.upperCodePoint_eq]
    · obtain ⟨hvalid, hunmapped, hnot⟩ := unmapped_of_mem_outputs hr hmap
      have hpoint := toNat_ofNat_of_isValidChar hvalid
      refine ⟨by simp [upperChar_eq, hpoint, hunmapped.upperCodePoint_eq], ?_⟩
      rw [eq_false_of_ne_true hblank, ← Bool.not_eq_true, isBlank_iff, hpoint]
      exact hnot

/-- The first character that the table maps to is `A`. -/
theorem outputs_above_marks : outputs.all (fun r => Nat.ble 65 r.target) = true := by
  decide +kernel

/-- A character below the letters stands in no uppercase form but its own. -/
theorem eq_of_mem_upperChar {c d : Char} (h : d ∈ upperChar c) (hd : d.toNat < 65) : d = c := by
  rw [upperChar_eq] at h
  obtain ⟨m, hm, rfl⟩ := List.mem_map.1 h
  rcases mem_upperCodePoint hm with ⟨rfl, -⟩ | ⟨r, hr, x, hmap⟩
  · exact Char.ofNat_toNat c
  · have habove := Nat.le_of_ble_eq_true (List.all_eq_true.1 outputs_above_marks r hr)
    obtain ⟨-, -, -, hm⟩ := CaseRange.map?_eq_some hmap
    rw [toNat_ofNat_of_isValidChar (unmapped_of_mem_outputs hr hmap).1] at hd
    omega

theorem upperExpansions_ne_nil : ∀ e ∈ upperExpansions, e.2 ≠ [] := by
  decide +kernel

theorem upperChar_ne_nil (c : Char) : upperChar c ≠ [] := by
  rw [upperChar_eq, Ne, List.map_eq_nil_iff, upperCodePoint]
  split
  · exact List.cons_ne_nil _ _
  · cases hlookup : upperExpansions.lookup c.toNat with
    | none => exact List.cons_ne_nil _ _
    | some ms =>
      obtain ⟨before, after, htable, -⟩ := List.lookup_eq_some_iff.1 hlookup
      exact upperExpansions_ne_nil (c.toNat, ms) (by simp [htable])

/-! ## Texts -/

@[simp]
theorem toList_upper (text : String) : (upper text).toList = text.toList.flatMap upperChar := by
  simp [upper]

theorem flatMap_upperChar_of_forall {cs : List Char} (h : ∀ c ∈ cs, upperChar c = [c]) :
    cs.flatMap upperChar = cs := by
  induction cs with
  | nil => rfl
  | cons c cs ih =>
    obtain ⟨hc, hcs⟩ := List.forall_mem_cons.1 h
    rw [List.flatMap_cons, hc, ih hcs, List.singleton_append]

theorem mem_of_mem_upper {c : Char} {text : String} (h : c ∈ (upper text).toList)
    (hc : c.toNat < 65) : c ∈ text.toList := by
  rw [toList_upper] at h
  obtain ⟨d, hd, hmem⟩ := List.mem_flatMap.1 h
  rwa [eq_of_mem_upperChar hmem hc]

theorem head?_of_head?_upper {c : Char} {text : String} (h : (upper text).toList.head? = some c)
    (hc : c.toNat < 65) : text.toList.head? = some c := by
  rw [toList_upper] at h
  cases htext : text.toList with
  | nil => rw [htext] at h; cases h
  | cons d rest =>
    rw [htext, List.flatMap_cons, List.head?_append_of_ne_nil _ (upperChar_ne_nil d)] at h
    rw [eq_of_mem_upperChar (List.mem_of_head? h) hc, List.head?_cons]

theorem upper_upper (text : String) : upper (upper text) = upper text := by
  rw [← String.toList_inj, toList_upper, toList_upper]
  apply flatMap_upperChar_of_forall
  intro d hd
  obtain ⟨c, -, hc⟩ := List.mem_flatMap.1 hd
  exact (upperChar_of_mem hc).1

theorem Trimmed.flatMap_upperChar {cs : List Char} (h : Trimmed cs) :
    Trimmed (cs.flatMap upperChar) := by
  constructor
  · intro d hd
    cases cs with
    | nil => cases hd
    | cons c cs =>
      rw [List.flatMap_cons, List.head?_append_of_ne_nil _ (upperChar_ne_nil c)] at hd
      rw [(upperChar_of_mem (List.mem_of_head? hd)).2]
      exact h.head c rfl
  · intro d hd
    rcases List.eq_nil_or_concat cs with rfl | ⟨cs, c, rfl⟩
    · cases hd
    · rw [List.concat_eq_append, List.flatMap_append, List.flatMap_singleton,
        List.getLast?_append_of_ne_nil _ (upperChar_ne_nil c)] at hd
      rw [(upperChar_of_mem (List.mem_of_getLast? hd)).2]
      exact h.last c (by simp)

/-- The uppercase form of a trimmed text has nothing to trim. -/
theorem trim_upper_trim (text : String) : trim (upper (trim text)) = upper (trim text) := by
  rw [← String.toList_inj, toList_trim, toList_upper, toList_trim]
  exact (trimmed_trimChars _).flatMap_upperChar.trimChars_eq

/-! ## ASCII letters -/

theorem toUpper_of_not_ascii {c : Char} (h : ¬c.toNat < 128) : c.toUpper = c := by
  have hnot : ¬(c.val ≥ 'a'.val ∧ c.val ≤ 'z'.val) := by
    rintro ⟨-, hle⟩
    have : c.toNat ≤ 122 := hle
    omega
  exact dif_neg hnot

theorem toUpper_ascii :
    ∀ n < 128, let c := Char.ofNat n
      upperChar c.toUpper = upperChar c ∧ isBlank c.toUpper = isBlank c ∧
        (c.toUpper = '#' ↔ c = '#') ∧ (c.toUpper = '=' ↔ c = '=') := by
  decide +kernel

/-- The case of an ASCII letter matters neither to its uppercase form nor to the characters that
give a line its shape. -/
theorem toUpper_indifferent (c : Char) :
    upperChar c.toUpper = upperChar c ∧ isBlank c.toUpper = isBlank c ∧
      (c.toUpper = '#' ↔ c = '#') ∧ (c.toUpper = '=' ↔ c = '=') := by
  by_cases hascii : c.toNat < 128
  · have h := toUpper_ascii c.toNat hascii
    rwa [Char.ofNat_toNat] at h
  · rw [toUpper_of_not_ascii hascii]
    exact ⟨rfl, rfl, Iff.rfl, Iff.rfl⟩

theorem flatMap_upperChar_map_toUpper (cs : List Char) :
    (cs.map Char.toUpper).flatMap upperChar = cs.flatMap upperChar := by
  rw [List.flatMap_map]
  exact List.flatMap_congr fun c _ => (toUpper_indifferent c).1

theorem trimChars_map_toUpper (cs : List Char) :
    trimChars (cs.map Char.toUpper) = (trimChars cs).map Char.toUpper := by
  have hblank : isBlank ∘ Char.toUpper = isBlank := funext fun c => (toUpper_indifferent c).2.1
  simp only [trimChars, List.dropWhile_map, hblank, ← List.map_reverse]

end Autotree.Text
