import Autotree.Number.Rounding
import Autotree.Proofs.Define.Integer
import Mathlib.Algebra.Order.Field.Basic
import Mathlib.Tactic.FieldSimp
import Mathlib.Tactic.Linarith

/-!
# Rounded quotients and their text

A rounded quotient is within one half of the quotient (`abs_roundHalfEven_sub_le`).  The text that
`fixed` writes shows the rounded quotient, in units of the last place (`figure?_fixed`), so the
number that one reads is within half such a unit of the quotient (`abs_value_sub_le`).
-/

namespace Autotree.Number

variable {num den places k m n : Nat} {cs : List Char}

/-! ## Rounding -/

/-- A quotient is rounded down with a remainder of at most one half, and up with one of at least
one half. -/
theorem roundHalfEven_cases (num den : Nat) :
    (roundHalfEven num den = num / den ∧ 2 * (num % den) ≤ den) ∨
      (roundHalfEven num den = num / den + 1 ∧ den ≤ 2 * (num % den)) := by
  unfold roundHalfEven
  dsimp only
  split
  · next hup => exact .inr ⟨rfl, by omega⟩
  · next hdown => exact .inl ⟨rfl, by omega⟩

theorem abs_roundHalfEven_sub_le (num : Nat) (h : 0 < den) :
    |(roundHalfEven num den : ℚ) - num / den| ≤ 1 / 2 := by
  have hden : (0 : ℚ) < den := by exact_mod_cast h
  have hquotient : (num : ℚ) / den = (num / den : ℕ) + (num % den : ℕ) / den := by
    have hnum : (num : ℚ) = den * (num / den : ℕ) + (num % den : ℕ) := by
      exact_mod_cast (Nat.div_add_mod num den).symm
    conv_lhs => rw [hnum]
    field_simp
  rw [hquotient, abs_le]
  rcases roundHalfEven_cases num den with ⟨hround, hhalf⟩ | ⟨hround, hhalf⟩
  · have hhigh : ((num % den : ℕ) : ℚ) / den ≤ 1 / 2 := by
      have hcast : 2 * ((num % den : ℕ) : ℚ) ≤ den := by exact_mod_cast hhalf
      rw [div_le_iff₀ hden]
      linarith
    have hlow : (0 : ℚ) ≤ (num % den : ℕ) / den := by positivity
    rw [hround]
    constructor <;> linarith
  · have hlow : (1 : ℚ) / 2 ≤ (num % den : ℕ) / den := by
      have hcast : (den : ℚ) ≤ 2 * (num % den : ℕ) := by exact_mod_cast hhalf
      rw [le_div_iff₀ hden]
      linarith
    have hhigh : ((num % den : ℕ) : ℚ) / den ≤ 1 :=
      (div_le_one hden).2 (by exact_mod_cast (Nat.mod_lt num h).le)
    rw [hround, Nat.cast_succ]
    constructor <;> linarith

/-- A quotient that is less than one half below a natural rounds to it or to more. -/
theorem le_roundHalfEven (h : 0 < den) (hk : (k : ℚ) - 1 / 2 < num / den) :
    k ≤ roundHalfEven num den := by
  have hclose := (abs_le.1 (abs_roundHalfEven_sub_le num h)).1
  have hlt : (k : ℚ) < roundHalfEven num den + 1 := by linarith
  exact Nat.lt_succ_iff.1 (by exact_mod_cast hlt)

/-- A quotient that is less than one half above a natural rounds to it or to less. -/
theorem roundHalfEven_le (h : 0 < den) (hk : (num : ℚ) / den < k + 1 / 2) :
    roundHalfEven num den ≤ k := by
  have hclose := (abs_le.1 (abs_roundHalfEven_sub_le num h)).2
  have hlt : (roundHalfEven num den : ℚ) < k + 1 := by linarith
  exact Nat.lt_succ_iff.1 (by exact_mod_cast hlt)

/-! ## Digits -/

theorem ofDigitChars_eq (cs : List Char) (start : Nat) :
    Nat.ofDigitChars 10 cs start = 10 ^ cs.length * start + placeValue cs := by
  induction cs generalizing start with
  | nil => simp [Nat.ofDigitChars, placeValue]
  | cons c cs ih =>
    have hstep : Nat.ofDigitChars 10 (c :: cs) start =
        Nat.ofDigitChars 10 cs (10 * start + (c.toNat - '0'.toNat)) := rfl
    rw [hstep, ih, placeValue_cons, List.length_cons, pow_succ]
    ring

theorem placeValue_toDigits (n : Nat) : placeValue (Nat.toDigits 10 n) = n := by
  have hvalue := ofDigitChars_eq (Nat.toDigits 10 n) 0
  rw [Nat.ofDigitChars_toDigits (by decide) (by decide)] at hvalue
  simpa using hvalue.symm

theorem placeValue_zeros (k : Nat) (cs : List Char) :
    placeValue (List.replicate k '0' ++ cs) = placeValue cs := by
  induction k with
  | zero => rfl
  | succ k ih => rw [List.replicate_succ, List.cons_append, placeValue_cons, ih]; simp

theorem isDigits_toDigits (n : Nat) : IsDigits (Nat.toDigits 10 n) :=
  ⟨Nat.toDigits_ne_nil, fun _ hc => Nat.isDigit_of_mem_toDigits (by decide) (by decide) hc⟩

theorem toList_paddedDigits (width n : Nat) :
    (paddedDigits width n).toList =
      List.replicate (width - (Nat.toDigits 10 n).length) '0' ++ Nat.toDigits 10 n := by
  simp [paddedDigits, ← String.length_toList, Nat.toList_repr]

theorem isDigits_paddedDigits (width n : Nat) : IsDigits (paddedDigits width n).toList := by
  obtain ⟨hne, hdigits⟩ := isDigits_toDigits n
  rw [toList_paddedDigits]
  refine ⟨List.append_ne_nil_of_right_ne_nil _ hne, fun c hc => ?_⟩
  rcases List.mem_append.1 hc with hzero | hdigit
  · rw [List.eq_of_mem_replicate hzero]
    decide
  · exact hdigits c hdigit

theorem length_paddedDigits {width : Nat} (hpos : 0 < width) (h : n < 10 ^ width) :
    (paddedDigits width n).toList.length = width := by
  have hlength := (Nat.length_toDigits_le_iff (by decide : 1 < 10) hpos).2 h
  rw [toList_paddedDigits, List.length_append, List.length_replicate]
  omega

theorem natural?_paddedDigits (width n : Nat) :
    natural? 10 (paddedDigits width n).toList = some n := by
  refine natural?_eq_some_iff.2 ⟨isDigits_paddedDigits width n, ?_⟩
  rw [toList_paddedDigits, placeValue_zeros, placeValue_toDigits]

/-! ## Numbers with decimal places -/

/-- A number as it is printed with a point: its digits, and how many are behind the point. -/
structure Figure where
  digits : Nat
  places : Nat
deriving DecidableEq

/-- The number that is printed. -/
def Figure.value (figure : Figure) : ℚ :=
  figure.digits / 10 ^ figure.places

/-- The number that a text prints: digits, a point, and more digits. -/
def figure? (cs : List Char) : Option Figure :=
  match cs.splitOn '.' with
  | [whole, rest] =>
    match natural? 10 whole, natural? 10 rest with
    | some m, some n => some ⟨m * 10 ^ rest.length + n, rest.length⟩
    | _, _ => none
  | _ => none

theorem point_not_mem (h : IsDigits cs) : '.' ∉ cs := fun hmem => absurd (h.2 _ hmem) (by decide)

/-- What `fixed` writes is read as the rounded quotient, in units of the last place. -/
theorem figure?_fixed (hplaces : 0 < places) (num den : Nat) :
    figure? (fixed places num den).toList =
      some ⟨roundHalfEven (num * 10 ^ places) den, places⟩ := by
  have hwhole (n : Nat) : natural? 10 (Nat.toDigits 10 n) = some n :=
    natural?_eq_some_iff.2 ⟨isDigits_toDigits n, (placeValue_toDigits n).symm⟩
  have hlist : (fixed places num den).toList =
      Nat.toDigits 10 (roundHalfEven (num * 10 ^ places) den / 10 ^ places) ++
        '.' ::
          (paddedDigits places (roundHalfEven (num * 10 ^ places) den % 10 ^ places)).toList := by
    simp [fixed, Nat.toList_repr]
  have hpos : 0 < 10 ^ places := Nat.pow_pos (by decide)
  have hlength :=
    length_paddedDigits hplaces (Nat.mod_lt (roundHalfEven (num * 10 ^ places) den) hpos)
  rw [figure?, hlist,
    List.splitOn_append_cons_self_of_not_mem (point_not_mem (isDigits_toDigits _)),
    List.splitOn_eq_singleton (point_not_mem (isDigits_paddedDigits _ _))]
  dsimp only
  rw [hwhole, natural?_paddedDigits]
  dsimp only
  rw [hlength, Nat.div_add_mod']

/-- The number that `fixed` writes is within half a unit of the last place of the quotient. -/
theorem abs_value_sub_le (h : 0 < den) :
    |(Figure.mk (roundHalfEven (num * 10 ^ places) den) places).value - num / den| ≤
      1 / 2 / 10 ^ places := by
  have hpos : (0 : ℚ) < 10 ^ places := by positivity
  have hround := abs_roundHalfEven_sub_le (num * 10 ^ places) h
  have hscale : (Figure.mk (roundHalfEven (num * 10 ^ places) den) places).value - num / den =
      ((roundHalfEven (num * 10 ^ places) den : ℚ) - (num * 10 ^ places : ℕ) / den) /
        10 ^ places := by
    rw [Figure.value]
    push_cast
    field_simp
  rw [hscale, abs_div, abs_of_pos hpos]
  gcongr

end Autotree.Number
