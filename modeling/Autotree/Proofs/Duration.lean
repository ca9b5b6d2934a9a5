import Autotree.Duration
import Autotree.Proofs.Number.Binary64

/-!
# Durations as they are shown

The seconds of a duration are the result of two roundings in a row, and the minutes of three
(`inSeconds_rounds`).  A duration is a multiple of a nanosecond, which is far more than these errors
below a few minutes, so the unit is that of the exact duration.  The text is rounded once more after
the unit was chosen: the durations just below a minute are shown as sixty seconds (`text_reads`).
-/

namespace Autotree.Duration

open Number Binary64

variable {d : Duration} {x y z t : ℚ} {num den n : Nat}

/-! ## Roundings in a row -/

/-- The greatest error that `n` roundings to 53 bits make in a row, from a given number on. -/
def floatError (n : Nat) (x : ℚ) : ℚ :=
  ((1 + 1 / 2 ^ 53) ^ n - 1) * x

/-- A number that can come from another one by `n` roundings in a row. -/
def Rounds (n : Nat) (x y : ℚ) : Prop :=
  |y - x| ≤ floatError n x

theorem Rounds.refl (x : ℚ) : Rounds 0 x x := by
  simp [Rounds, floatError]

theorem Rounds.step (h : Rounds n x y) (hz : |z - y| ≤ 1 / 2 ^ 53 * y) : Rounds (n + 1) x z := by
  have hy : y ≤ x + floatError n x := by linarith [(abs_le.1 h).2]
  calc |z - x| ≤ |z - y| + |y - x| := abs_sub_le z y x
    _ ≤ 1 / 2 ^ 53 * (x + floatError n x) + floatError n x := by
        refine add_le_add (hz.trans ?_) h
        exact mul_le_mul_of_nonneg_left hy (by norm_num)
    _ = floatError (n + 1) x := by
        unfold floatError
        ring

theorem Rounds.add {x' y' : ℚ} (h : Rounds n x y) (h' : Rounds n x' y') :
    Rounds n (x + x') (y + y') := by
  calc |y + y' - (x + x')| = |(y - x) + (y' - x')| := by congr 1; ring
    _ ≤ |y - x| + |y' - x'| := abs_add_le _ _
    _ ≤ floatError n x + floatError n x' := add_le_add h h'
    _ = floatError n (x + x') := by unfold floatError; ring

theorem Rounds.div (h : Rounds n x y) (hz : 0 < z) : Rounds n (x / z) (y / z) := by
  calc |y / z - x / z| = |y - x| / z := by rw [← sub_div, abs_div, abs_of_pos hz]
    _ ≤ floatError n x / z := by gcongr; exact h
    _ = floatError n (x / z) := by unfold floatError; ring

/-- A few roundings change a number by a small part of it. -/
theorem Rounds.between (h : Rounds n x y) (hn : n ≤ 3) (hx : 0 ≤ x) :
    x * (1 - 1 / 2 ^ 51) ≤ y ∧ y ≤ x * (1 + 1 / 2 ^ 51) := by
  have hfactor : (1 + 1 / 2 ^ 53 : ℚ) ^ n - 1 ≤ 1 / 2 ^ 51 := by
    have hmono : (1 + 1 / 2 ^ 53 : ℚ) ^ n ≤ (1 + 1 / 2 ^ 53) ^ 3 :=
      pow_le_pow_right₀ (by norm_num) hn
    refine (sub_le_sub_right hmono 1).trans ?_
    norm_num
  have herror : floatError n x ≤ 1 / 2 ^ 51 * x := mul_le_mul_of_nonneg_right hfactor hx
  obtain ⟨hlow, hhigh⟩ := abs_le.1 h
  constructor <;> linarith

/-- A number that is a nanosecond less than some bound stays below it. -/
theorem Rounds.lt (h : Rounds n x y) (hn : n ≤ 3) (hx : 0 ≤ x) (hxt : x ≤ t - 1 / 10 ^ 9)
    (ht : t ≤ 60) : y < t := by
  calc y ≤ x * (1 + 1 / 2 ^ 51) := (h.between hn hx).2
    _ ≤ (t - 1 / 10 ^ 9) * (1 + 1 / 2 ^ 51) := mul_le_mul_of_nonneg_right hxt (by norm_num)
    _ < t := by linarith

/-- A number that is a nanosecond more than some bound stays above it. -/
theorem Rounds.gt (h : Rounds n x y) (hn : n ≤ 3) (hxt : t + 1 / 10 ^ 9 ≤ x)
    (ht0 : 0 ≤ t) (ht : t ≤ 60) : t < y := by
  have hx : 0 ≤ x := le_trans (by positivity) hxt
  calc t < (t + 1 / 10 ^ 9) * (1 - 1 / 2 ^ 51) := by linarith
    _ ≤ x * (1 - 1 / 2 ^ 51) := mul_le_mul_of_nonneg_right hxt (by norm_num)
    _ ≤ y := (h.between hn hx).1

/-! ## The number of seconds -/

theorem round64_spec (hden : 0 < den) (h : num = 0 ∨ 2 ^ (-1000 : Int) ≤ (num : ℚ) / den) :
    0 < (round64 num den).2 ∧
      |quotient (round64 num den) - num / den| ≤ 1 / 2 ^ 53 * (num / den) := by
  have hsame : |quotient (num, den) - num / den| ≤ 1 / 2 ^ 53 * (num / den) := by
    rw [quotient, sub_self, abs_zero]
    positivity
  by_cases hnum : num = 0
  · subst hnum
    have hzero : round64 0 den = (0, 1) := rfl
    rw [hzero]
    simp [quotient]
  · rcases nearest_spec false hnum hden.ne' (h.resolve_left hnum) with hnear | ⟨m, e, hnear, herror⟩
    · rw [round64, hnear]
      exact ⟨hden, hsame⟩
    · rw [round64, hnear]
      obtain ⟨hpos, hratio⟩ := ratio_spec m e
      rw [← hratio] at herror
      exact ⟨hpos, herror⟩

/-- A number that is zero or not too small is rounded once more. -/
theorem Rounds.round64 (h : Rounds n x (num / den)) (hn : n ≤ 3) (hden : 0 < den)
    (hx : x = 0 ∨ 1 / 10 ^ 9 ≤ x) :
    0 < (round64 num den).2 ∧ Rounds (n + 1) x (quotient (round64 num den)) := by
  have hsize : num = 0 ∨ 2 ^ (-1000 : Int) ≤ (num : ℚ) / den := by
    rcases hx with rfl | hx
    · have hzero : (num : ℚ) / den = 0 := by
        obtain ⟨hlow, hhigh⟩ := h.between hn (le_refl 0)
        linarith
      rcases div_eq_zero_iff.1 hzero with hnum | hden'
      · exact .inl (by exact_mod_cast hnum)
      · exact absurd (by exact_mod_cast hden') hden.ne'
    · refine .inr ?_
      calc (2 : ℚ) ^ (-1000 : Int) ≤ 2 ^ (-31 : Int) :=
            zpow_le_zpow_right₀ (by norm_num) (by norm_num)
        _ ≤ 1 / 10 ^ 9 * (1 - 1 / 2 ^ 51) := by norm_num
        _ ≤ x * (1 - 1 / 2 ^ 51) := mul_le_mul_of_nonneg_right hx (by norm_num)
        _ ≤ num / den := (h.between hn (le_trans (by positivity) hx)).1
  obtain ⟨hpos, herror⟩ := round64_spec hden hsize
  exact ⟨hpos, h.step herror⟩

/-- The duration in nanoseconds. -/
def total (d : Duration) : Nat :=
  d.seconds * 10 ^ 9 + d.nanoseconds

/-- The duration in seconds, as it is. -/
def exact (d : Duration) : ℚ :=
  d.total / 10 ^ 9

theorem exact_eq (d : Duration) : d.exact = d.seconds + d.nanoseconds / 10 ^ 9 := by
  rw [exact, total, Nat.cast_add, Nat.cast_mul, Nat.cast_pow, add_div]
  norm_num

theorem exact_nonneg (d : Duration) : 0 ≤ d.exact :=
  div_nonneg (Nat.cast_nonneg _) (by norm_num)

/-- A number of nanoseconds is zero or not too small. -/
theorem zero_or_le_div (k : Nat) : (k : ℚ) / 10 ^ 9 = 0 ∨ 1 / 10 ^ 9 ≤ (k : ℚ) / 10 ^ 9 := by
  rcases Nat.eq_zero_or_pos k with rfl | hpos
  · exact .inl (by simp)
  · refine .inr ?_
    have hone : (1 : ℚ) ≤ k := by exact_mod_cast hpos
    gcongr

theorem inSeconds_eq (d : Duration) :
    d.inSeconds = round64
      ((round64 d.seconds 1).1 * (round64 d.nanoseconds 1000000000).2 +
        (round64 d.nanoseconds 1000000000).1 * (round64 d.seconds 1).2)
      ((round64 d.seconds 1).2 * (round64 d.nanoseconds 1000000000).2) := rfl

/-- The seconds that are computed come from two roundings: of both parts, and of their sum. -/
theorem inSeconds_rounds (d : Duration) :
    0 < d.inSeconds.2 ∧ Rounds 2 d.exact (quotient d.inSeconds) := by
  have hwhole : Rounds 0 (d.seconds : ℚ) (d.seconds / (1 : ℕ)) := by
    rw [Nat.cast_one, div_one]
    exact .refl _
  have hpart : Rounds 0 (d.nanoseconds / 10 ^ 9 : ℚ) (d.nanoseconds / (1000000000 : ℕ)) := by
    rw [show ((1000000000 : ℕ) : ℚ) = 10 ^ 9 by norm_num]
    exact .refl _
  have hseconds : (d.seconds : ℚ) = 0 ∨ 1 / 10 ^ 9 ≤ (d.seconds : ℚ) := by
    have hscaled := zero_or_le_div (d.seconds * 10 ^ 9)
    rwa [Nat.cast_mul, Nat.cast_pow, Nat.cast_ofNat, mul_div_assoc, div_self (by norm_num),
      mul_one] at hscaled
  obtain ⟨hwholePos, hwhole⟩ := hwhole.round64 (by decide) (by decide) hseconds
  obtain ⟨hpartPos, hpart⟩ := hpart.round64 (by decide) (by decide) (zero_or_le_div d.nanoseconds)
  have hsum := hwhole.add hpart
  have hwholeNe : ((round64 d.seconds 1).2 : ℚ) ≠ 0 := by exact_mod_cast hwholePos.ne'
  have hpartNe : ((round64 d.nanoseconds 1000000000).2 : ℚ) ≠ 0 := by exact_mod_cast hpartPos.ne'
  rw [← exact_eq, quotient, quotient, div_add_div _ _ hwholeNe hpartNe,
    mul_comm ((round64 d.seconds 1).2 : ℚ) ((round64 d.nanoseconds 1000000000).1 : ℚ)] at hsum
  have hsum : Rounds 1 d.exact
      (((round64 d.seconds 1).1 * (round64 d.nanoseconds 1000000000).2 +
        (round64 d.nanoseconds 1000000000).1 * (round64 d.seconds 1).2 : ℕ) /
          ((round64 d.seconds 1).2 * (round64 d.nanoseconds 1000000000).2 : ℕ)) := by
    exact_mod_cast hsum
  rw [inSeconds_eq]
  exact hsum.round64 (by decide) (Nat.mul_pos hwholePos hpartPos) (zero_or_le_div d.total)

/-! ## The unit -/

theorem quotient_lt_of_total_lt {k : Nat} (h : d.total < k) (hk : k ≤ 60 * 10 ^ 9) :
    quotient d.inSeconds < k / 10 ^ 9 := by
  have hnano : (d.total : ℚ) + 1 ≤ k := by exact_mod_cast h
  have hbound : (k : ℚ) ≤ 60 * 10 ^ 9 := by exact_mod_cast hk
  refine (inSeconds_rounds d).2.lt (by decide) d.exact_nonneg ?_ ?_
  · rw [exact, ← sub_div]
    gcongr
    linarith
  · rw [div_le_iff₀ (by norm_num)]
    exact hbound

theorem lt_quotient_of_lt_total {k : Nat} (h : k < d.total) (hk : k ≤ 60 * 10 ^ 9) :
    k / 10 ^ 9 < quotient d.inSeconds := by
  have hnano : (k : ℚ) + 1 ≤ d.total := by exact_mod_cast h
  have hbound : (k : ℚ) ≤ 60 * 10 ^ 9 := by exact_mod_cast hk
  refine (inSeconds_rounds d).2.gt (by decide) ?_
    (div_nonneg (Nat.cast_nonneg _) (by norm_num)) ?_
  · rw [exact, ← add_div]
    gcongr
  · rw [div_le_iff₀ (by norm_num)]
    exact hbound

/-- The unit is that of the exact duration: no multiple of a nanosecond is near sixty seconds but
these themselves, and they are computed without an error. -/
theorem inSeconds_lt_iff (h : d.nanoseconds < 10 ^ 9) :
    d.inSeconds.1 < 60 * d.inSeconds.2 ↔ d.exact < 60 := by
  have hpos : (0 : ℚ) < d.inSeconds.2 := by exact_mod_cast (inSeconds_rounds d).1
  have hquotient : d.inSeconds.1 < 60 * d.inSeconds.2 ↔ quotient d.inSeconds < 60 := by
    rw [quotient, div_lt_iff₀ hpos]
    exact_mod_cast Iff.rfl
  have hminute : ((60 * 10 ^ 9 : ℕ) : ℚ) / 10 ^ 9 = 60 := by norm_num
  have hexact : d.exact < 60 ↔ d.total < 60 * 10 ^ 9 := by
    rw [exact, div_lt_iff₀ (by norm_num)]
    exact_mod_cast Iff.rfl
  rw [hexact]
  rcases Nat.lt_trichotomy d.total (60 * 10 ^ 9) with hlt | heq | hgt
  · have hbelow := quotient_lt_of_total_lt hlt (Nat.le_refl _)
    rw [hminute] at hbelow
    exact iff_of_true (hquotient.2 hbelow) hlt
  · have hsixty : d = ⟨60, 0⟩ := by
      obtain ⟨seconds, nanoseconds⟩ := d
      simp only [total, Duration.mk.injEq] at heq h ⊢
      omega
    subst hsixty
    decide +kernel
  · have habove := lt_quotient_of_lt_total hgt (Nat.le_refl _)
    rw [hminute] at habove
    exact iff_of_false (fun hlt => absurd (hquotient.1 hlt) (not_lt.2 habove.le)) (by omega)

/-! ## The text -/

/-- The number and the unit that a text shows. -/
def reading? (text : String) : Option (Figure × Char) := do
  let unit ← text.toList.getLast?
  let figure ← figure? text.toList.dropLast
  return (figure, unit)

theorem reading?_fixed {suffix : String} {unit : Char} (hunit : suffix.toList = [unit])
    {places : Nat} (hplaces : 0 < places) (num den : Nat) :
    reading? (fixed places num den ++ suffix) =
      some (⟨roundHalfEven (num * 10 ^ places) den, places⟩, unit) := by
  rw [reading?, String.toList_append, hunit, List.getLast?_concat, List.dropLast_concat,
    figure?_fixed hplaces]
  rfl

/-- Two errors, of the number that is written and of writing it. -/
theorem abs_value_sub_le_of_rounds {places : Nat} (h : Rounds n x (num / den)) (hden : 0 < den) :
    |(Figure.mk (roundHalfEven (num * 10 ^ places) den) places).value - x| ≤
      1 / 2 / 10 ^ places + floatError n x :=
  (abs_sub_le _ _ _).trans (add_le_add (abs_value_sub_le hden) h)

theorem text_of_lt (h : d.inSeconds.1 < 60 * d.inSeconds.2) :
    d.text = fixed 2 d.inSeconds.1 d.inSeconds.2 ++ "s" :=
  if_pos h

theorem text_of_ge (h : ¬ d.inSeconds.1 < 60 * d.inSeconds.2) :
    d.text = fixed 1 (round64 d.inSeconds.1 (60 * d.inSeconds.2)).1
      (round64 d.inSeconds.1 (60 * d.inSeconds.2)).2 ++ "m" :=
  if_neg h

theorem hundredfold_eq (num den : Nat) :
    ((num * 10 ^ 2 : ℕ) : ℚ) / den = quotient (num, den) * 100 := by
  rw [quotient]
  push_cast
  ring

/-- Less than a minute is not rounded to more than one. -/
theorem roundHalfEven_inSeconds_le (h : d.inSeconds.1 < 60 * d.inSeconds.2) :
    roundHalfEven (d.inSeconds.1 * 10 ^ 2) d.inSeconds.2 ≤ 6000 := by
  have hpos := (inSeconds_rounds d).1
  have hlt : quotient d.inSeconds < 60 := by
    rw [quotient, div_lt_iff₀ (by exact_mod_cast hpos)]
    exact_mod_cast h
  refine roundHalfEven_le hpos ?_
  rw [hundredfold_eq]
  push_cast
  linarith

/-- The seconds are rounded to sixty from the first nanosecond after 59.995 seconds on; 59.995
itself is a little less as a floating point number. -/
theorem le_roundHalfEven_inSeconds_iff (h : d.nanoseconds < 10 ^ 9) :
    6000 ≤ roundHalfEven (d.inSeconds.1 * 10 ^ 2) d.inSeconds.2 ↔ 59.995 < d.exact := by
  have hpos := (inSeconds_rounds d).1
  have hbound : ((59995 * 10 ^ 6 : ℕ) : ℚ) / 10 ^ 9 = 59.995 := by norm_num
  have hexact : 59.995 < d.exact ↔ 59995 * 10 ^ 6 < d.total := by
    rw [← hbound, exact, div_lt_div_iff_of_pos_right (by norm_num)]
    exact_mod_cast Iff.rfl
  rw [hexact]
  rcases Nat.lt_trichotomy d.total (59995 * 10 ^ 6) with hlt | heq | hgt
  · have hbelow := quotient_lt_of_total_lt hlt (by decide)
    refine iff_of_false (not_le.2 (Nat.lt_succ_of_le (roundHalfEven_le hpos ?_))) (by omega)
    rw [hundredfold_eq]
    rw [hbound] at hbelow
    push_cast
    linarith
  · have hlast : d = ⟨59, 995000000⟩ := by
      obtain ⟨seconds, nanoseconds⟩ := d
      simp only [total, Duration.mk.injEq] at heq h ⊢
      omega
    subst hlast
    decide +kernel
  · have habove := lt_quotient_of_lt_total hgt (by decide)
    refine iff_of_true (le_roundHalfEven hpos ?_) hgt
    rw [hundredfold_eq]
    rw [hbound] at habove
    push_cast
    linarith

/-- The minutes that are computed come from a third rounding. -/
theorem inMinutes_rounds (h : 60 ≤ d.exact) :
    0 < (round64 d.inSeconds.1 (60 * d.inSeconds.2)).2 ∧
      Rounds 3 (d.exact / 60) (quotient (round64 d.inSeconds.1 (60 * d.inSeconds.2))) := by
  obtain ⟨hpos, hrounds⟩ := inSeconds_rounds d
  have hsixth : quotient d.inSeconds / 60 = d.inSeconds.1 / (60 * d.inSeconds.2 : ℕ) := by
    rw [quotient, div_div, mul_comm]
    push_cast
    rfl
  have hdivided := hrounds.div (show (0 : ℚ) < 60 by norm_num)
  rw [hsixth] at hdivided
  refine hdivided.round64 (by decide) (by omega) (.inr ?_)
  rw [le_div_iff₀ (by norm_num)]
  linarith

/-- What a duration is shown as. -/
structure ShownAs (d : Duration) (figure : Figure) (unit : Char) : Prop where
  /-- Less than a minute is shown in seconds with two places. -/
  seconds : d.exact < 60 → unit = 's' ∧ figure.places = 2 ∧
    |figure.value - d.exact| ≤ 1 / 2 / 10 ^ 2 + floatError 2 d.exact
  /-- A minute and more is shown in minutes with one place. -/
  minutes : 60 ≤ d.exact → unit = 'm' ∧ figure.places = 1 ∧
    |figure.value - d.exact / 60| ≤ 1 / 2 / 10 ^ 1 + floatError 3 (d.exact / 60)
  /-- No more than sixty seconds are shown. -/
  atMost : unit = 's' → figure.value ≤ 60
  /-- The last durations before a minute are shown as sixty seconds. -/
  sixty : unit = 's' ∧ figure.value = 60 ↔ 59.995 < d.exact ∧ d.exact < 60

/-- A duration is shown as a number that is within half a unit of its last place, and the error of
floating point numbers, of the duration; in seconds if it is less than a minute. -/
theorem text_reads (d : Duration) (h : d.nanoseconds < 10 ^ 9) :
    ∃ figure unit, reading? d.text = some (figure, unit) ∧ d.ShownAs figure unit := by
  obtain ⟨hpos, hrounds⟩ := inSeconds_rounds d
  by_cases hunit : d.inSeconds.1 < 60 * d.inSeconds.2
  · have hlt := (inSeconds_lt_iff h).1 hunit
    have hle := roundHalfEven_inSeconds_le hunit
    have hvalue : (Figure.mk (roundHalfEven (d.inSeconds.1 * 10 ^ 2) d.inSeconds.2) 2).value =
        roundHalfEven (d.inSeconds.1 * 10 ^ 2) d.inSeconds.2 / 100 := by
      rw [Figure.value]
      norm_num
    refine ⟨_, 's', ?_, fun _ => ⟨rfl, rfl, abs_value_sub_le_of_rounds hrounds hpos⟩,
      fun hge => absurd hlt (not_lt.2 hge), fun _ => ?_, ?_⟩
    · rw [text_of_lt hunit]
      exact reading?_fixed (by decide) (by decide) _ _
    · rw [hvalue, div_le_iff₀ (by norm_num)]
      exact_mod_cast hle
    · rw [← le_roundHalfEven_inSeconds_iff h, hvalue, div_eq_iff (by norm_num)]
      constructor
      · rintro ⟨-, hsixty⟩
        have heq : roundHalfEven (d.inSeconds.1 * 10 ^ 2) d.inSeconds.2 = 6000 := by
          norm_num at hsixty
          exact_mod_cast hsixty
        exact ⟨heq.ge, hlt⟩
      · rintro ⟨hge, -⟩
        rw [Nat.le_antisymm hle hge]
        norm_num
  · have hge := not_lt.1 (mt (inSeconds_lt_iff h).2 hunit)
    obtain ⟨hpos, hrounds⟩ := inMinutes_rounds hge
    refine ⟨_, 'm', ?_, fun hlt => absurd hge (not_le.2 hlt),
      fun _ => ⟨rfl, rfl, abs_value_sub_le_of_rounds hrounds hpos⟩,
      fun heq => absurd heq (by decide), ?_⟩
    · rw [text_of_ge hunit]
      exact reading?_fixed (by decide) (by decide) _ _
    · exact iff_of_false (fun hs => absurd hs.1 (by decide)) fun hlt => absurd hge (not_le.2 hlt.2)

theorem text_reads_afterThreshold :
    (Duration.mk 59 995000001).nanoseconds < 10 ^ 9 ∧ ∃ figure unit,
      reading? (text ⟨59, 995000001⟩) = some (figure, unit) ∧
        ShownAs ⟨59, 995000001⟩ figure unit :=
  ⟨by decide, text_reads ⟨59, 995000001⟩ (by decide)⟩

example : text ⟨59, 995000000⟩ = "59.99s" ∧ text ⟨59, 995000001⟩ = "60.00s" := by decide +kernel

/-- A minute is not always shown in minutes: a millisecond less than one is rounded to sixty seconds
after the unit was chosen. -/
theorem almostMinute_shown_in_seconds :
    ¬ ∀ (d : Duration) (figure : Figure), d.nanoseconds < 10 ^ 9 →
      reading? d.text = some (figure, 's') → figure.value < 60 := by
  intro h
  have hlt := h ⟨59, 999000000⟩ ⟨6000, 2⟩ (by decide) (by decide +kernel)
  norm_num [Figure.value] at hlt

end Autotree.Duration
