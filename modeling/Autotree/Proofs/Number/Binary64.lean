import Autotree.Number.Binary64
import Autotree.Proofs.Number.Rounding
import Mathlib.Algebra.Order.Field.Power

/-!
# The error of a floating point number

`exponentOf` finds the exponent at which a quotient has a significand of 53 bits
(`exponentOf_spec`).  So a quotient that is not too small for such an exponent is rounded with an
error of at most `2 ^ -53` of it (`nearest_spec`).
-/

namespace Autotree.Number.Binary64

variable {num den : Nat} {e : Int}

/-- The number that a numerator and a denominator stand for. -/
def quotient (pair : Nat × Nat) : ℚ :=
  pair.1 / pair.2

theorem two_zpow_pos (e : Int) : (0 : ℚ) < 2 ^ e := zpow_pos (by norm_num) e

theorem two_pow_toNat (h : 0 ≤ e) : (2 : ℚ) ^ e.toNat = 2 ^ e := by
  rw [← zpow_natCast, Int.toNat_of_nonneg h]

theorem scaleDown_spec (hden : 0 < den) (num : Nat) (e : Int) :
    0 < (scaleDown num den e).2 ∧ quotient (scaleDown num den e) = num / den / 2 ^ e := by
  unfold scaleDown
  split
  · next hnonneg =>
    refine ⟨Nat.mul_pos hden (Nat.pow_pos (by decide)), ?_⟩
    simp only [quotient, Nat.pow_eq]
    push_cast
    rw [two_pow_toNat hnonneg, div_div]
  · next hneg =>
    refine ⟨hden, ?_⟩
    simp only [quotient, Nat.pow_eq]
    push_cast
    rw [two_pow_toNat (by omega), zpow_neg]
    field_simp

theorem ratio_spec (m : Nat) (e : Int) :
    0 < (ratio m e).2 ∧ quotient (ratio m e) = m * 2 ^ e := by
  unfold ratio
  split
  · next hnonneg =>
    refine ⟨Nat.one_pos, ?_⟩
    simp only [quotient, Nat.pow_eq]
    push_cast
    rw [two_pow_toNat hnonneg, div_one]
  · next hneg =>
    refine ⟨Nat.pow_pos (by decide), ?_⟩
    simp only [quotient, Nat.pow_eq]
    push_cast
    rw [two_pow_toNat (by omega), zpow_neg]
    field_simp

/-- The size of a quotient from those of its parts. -/
theorem quotient_between (hnum : num ≠ 0) (hden : den ≠ 0) :
    (2 : ℚ) ^ ((num.log2 : Int) - den.log2 - 1) < num / den ∧
      (num : ℚ) / den < 2 ^ ((num.log2 : Int) - den.log2 + 1) := by
  have hpos : (0 : ℚ) < den := by exact_mod_cast Nat.pos_of_ne_zero hden
  have hnumLow : (2 : ℚ) ^ (num.log2 : Int) ≤ num := by exact_mod_cast Nat.log2_self_le hnum
  have hnumHigh : (num : ℚ) < 2 ^ ((num.log2 : Int) + 1) := by
    exact_mod_cast Nat.lt_log2_self (n := num)
  have hdenLow : (2 : ℚ) ^ (den.log2 : Int) ≤ den := by exact_mod_cast Nat.log2_self_le hden
  have hdenHigh : (den : ℚ) < 2 ^ ((den.log2 : Int) + 1) := by
    exact_mod_cast Nat.lt_log2_self (n := den)
  constructor
  · rw [lt_div_iff₀ hpos]
    calc (2 : ℚ) ^ ((num.log2 : Int) - den.log2 - 1) * den
        < 2 ^ ((num.log2 : Int) - den.log2 - 1) * 2 ^ ((den.log2 : Int) + 1) :=
          mul_lt_mul_of_pos_left hdenHigh (two_zpow_pos _)
      _ = 2 ^ (num.log2 : Int) := by rw [← zpow_add₀ two_ne_zero]; congr 1; ring
      _ ≤ num := hnumLow
  · rw [div_lt_iff₀ hpos]
    calc (num : ℚ) < 2 ^ ((num.log2 : Int) + 1) := hnumHigh
      _ = 2 ^ ((num.log2 : Int) - den.log2 + 1) * 2 ^ (den.log2 : Int) := by
          rw [← zpow_add₀ two_ne_zero]; congr 1; ring
      _ ≤ 2 ^ ((num.log2 : Int) - den.log2 + 1) * den :=
          mul_le_mul_of_nonneg_left hdenLow (two_zpow_pos _).le

/-- With the exponent that is found, a quotient has a significand of 53 bits. -/
theorem exponentOf_spec (hnum : num ≠ 0) (hden : den ≠ 0)
    (hsize : 2 ^ (-1000 : Int) ≤ (num : ℚ) / den) :
    2 ^ 52 ≤ (num : ℚ) / den / 2 ^ exponentOf num den ∧
      (num : ℚ) / den / 2 ^ exponentOf num den < 2 ^ 53 := by
  obtain ⟨hlow, hhigh⟩ := quotient_between hnum hden
  obtain ⟨e, he⟩ : ∃ e, e = (num.log2 : Int) - den.log2 - 53 := ⟨_, rfl⟩
  rw [show (num.log2 : Int) - den.log2 - 1 = e + 52 by omega] at hlow
  rw [show (num.log2 : Int) - den.log2 + 1 = e + 54 by omega] at hhigh
  have hpos := two_zpow_pos e
  -- the quotient is great enough for the exponent not to be the least one
  have hmin : minExponent ≤ e := by
    have hexp : (2 : ℚ) ^ (-1000 : Int) < 2 ^ (e + 54) := lt_of_le_of_lt hsize hhigh
    have hlt := (zpow_lt_zpow_iff_right₀ (by norm_num : (1 : ℚ) < 2)).1 hexp
    unfold minExponent
    omega
  obtain ⟨hscaled, hquotient⟩ := scaleDown_spec (Nat.pos_of_ne_zero hden) num e
  rw [zpow_add₀ two_ne_zero, mul_comm] at hlow hhigh
  have hfloor : (scaleDown num den e).1 / (scaleDown num den e).2 < 2 ^ 53 ↔
      (num : ℚ) / den / 2 ^ e < 2 ^ 53 := by
    rw [← hquotient, quotient, div_lt_iff₀ (by exact_mod_cast hscaled),
      Nat.div_lt_iff_lt_mul hscaled]
    exact_mod_cast Iff.rfl
  have hexponent : exponentOf num den =
      if (num : ℚ) / den / 2 ^ e < 2 ^ 53 then e else e + 1 := by
    unfold exponentOf
    rw [← he]
    simp only [Nat.pow_eq]
    by_cases hlt : (num : ℚ) / den / 2 ^ e < 2 ^ 53
    · rw [if_pos (hfloor.2 hlt), if_pos hlt, max_eq_right hmin]
    · rw [if_neg (mt hfloor.1 hlt), if_neg hlt, max_eq_right (by omega)]
  rw [hexponent]
  split
  · next hlt =>
    refine ⟨?_, hlt⟩
    rw [le_div_iff₀ hpos]
    exact hlow.le
  · next hge =>
    rw [zpow_add_one₀ two_ne_zero, ← div_div]
    have hlt : (num : ℚ) / den / 2 ^ e < 2 ^ 54 := by
      rw [div_lt_iff₀ hpos]
      exact hhigh
    constructor <;> linarith [not_lt.1 hge]

/-- A quotient is rounded with an error of at most `2 ^ -53` of it. -/
theorem nearest_spec (negative : Bool) (hnum : num ≠ 0) (hden : den ≠ 0)
    (hsize : 2 ^ (-1000 : Int) ≤ (num : ℚ) / den) :
    nearest negative num den = .infinite negative ∨
      ∃ m e, nearest negative num den = .finite negative m e ∧
        |(m : ℚ) * 2 ^ e - num / den| ≤ 1 / 2 ^ 53 * (num / den) := by
  obtain ⟨hlow, -⟩ := exponentOf_spec hnum hden hsize
  obtain ⟨hscaled, hquotient⟩ := scaleDown_spec (Nat.pos_of_ne_zero hden) num (exponentOf num den)
  unfold nearest
  rw [if_neg hnum]
  dsimp only
  generalize exponentOf num den = e at *
  generalize hpair : scaleDown num den e = pair at *
  rw [← hquotient, quotient] at hlow
  -- the significand has 53 bits, so half a unit of its last place is a small part of it
  have hsignificand : 2 ^ 52 ≤ roundHalfEven pair.1 pair.2 := by
    refine le_roundHalfEven hscaled ?_
    push_cast
    linarith
  have herror : |(roundHalfEven pair.1 pair.2 : ℚ) * 2 ^ e - num / den| ≤
      1 / 2 ^ 53 * (num / den) := by
    have hpos := two_zpow_pos e
    have hround := abs_roundHalfEven_sub_le pair.1 hscaled
    have hvalue : (num : ℚ) / den = pair.1 / pair.2 * 2 ^ e := by
      rw [quotient] at hquotient
      rw [hquotient]
      field_simp
    rw [hvalue, ← sub_mul, abs_mul, abs_of_pos hpos, ← mul_assoc]
    refine mul_le_mul_of_nonneg_right ?_ hpos.le
    linarith
  split
  · next hcarry =>
    -- a carry into the next power of two does not change the value
    rw [hcarry] at herror
    rw [if_neg (show Nat.pow 2 52 ≠ 0 by decide)]
    split
    · exact .inl rfl
    · refine .inr ⟨_, _, rfl, ?_⟩
      have hsame : ((Nat.pow 2 52 : ℕ) : ℚ) * 2 ^ (e + 1) = (Nat.pow 2 53 : ℕ) * 2 ^ e := by
        rw [zpow_add_one₀ two_ne_zero, Nat.pow_eq, Nat.pow_eq]
        push_cast
        ring
      rwa [hsame]
  · rw [if_neg (by omega)]
    split
    · exact .inl rfl
    · exact .inr ⟨_, _, rfl, herror⟩

end Autotree.Number.Binary64
