import Mathlib.Data.Nat.Digits.Defs
import Autotree.Proofs.Define.Synthesis

/-!
# Values that are integers

An integer in text is an optional sign and one or more ASCII digits (`Denotes`), and the reader
finds the integer that the text denotes exactly if 64 bits with a sign hold it
(`decimal?_eq_some_iff`).  Options with an integer and flags read their values in this way, a
flag after the words `true` and `false` and without regard to case, which changes neither digits
nor signs.  So which values they accept, and what they make of them, depends on the integer alone
(`ofArgument_integer_or_flag`).
-/

namespace Autotree

namespace Number

/-! ## Digits -/

/-- The number that digits stand for in base ten, the last digit being that of the ones. -/
def placeValue (digits : List Char) : Nat :=
  Nat.ofDigits 10 (digits.reverse.map fun c => c.toNat - '0'.toNat)

/-- One or more ASCII digits. -/
def IsDigits (cs : List Char) : Prop :=
  cs ≠ [] ∧ ∀ c ∈ cs, c.isDigit = true

variable {c : Char} {cs : List Char} {m : Nat} {n : Int}

theorem isDigit_iff : c.isDigit = true ↔ 48 ≤ c.toNat ∧ c.toNat ≤ 57 := by
  simp [Char.isDigit, UInt32.le_iff_toNat_le]

/-- The only digits in base ten are the ASCII ones. -/
theorem digit?_ten (c : Char) :
    digit? 10 c = if c.isDigit = true then some (c.toNat - '0'.toNat) else none := by
  by_cases hdigit : c.isDigit = true
  · have hrange := isDigit_iff.1 hdigit
    have hvalue : c.toNat - 48 < 10 := by omega
    rw [if_pos hdigit]
    simp [digit?, hrange, hvalue]
  · have hrange := isDigit_iff.not.1 hdigit
    rw [if_neg hdigit]
    simp only [digit?, if_neg hrange, ite_eq_right_iff, reduceCtorEq, imp_false, Nat.not_lt]
    -- the letters that are digits in a greater base stand for ten and more
    split
    · omega
    · split <;> omega

theorem placeValue_cons (c : Char) (cs : List Char) :
    placeValue (c :: cs) = 10 ^ cs.length * (c.toNat - '0'.toNat) + placeValue cs := by
  simp only [placeValue, List.reverse_cons, List.map_append, List.map_singleton,
    Nat.ofDigits_append, Nat.ofDigits_singleton, List.length_map, List.length_reverse]
  exact Nat.add_comm _ _

/-- Reading digits behind a number shifts the number by their places. -/
theorem foldlM_digit?_eq_some_iff (start : Nat) (cs : List Char) :
    cs.foldlM (fun n c => (digit? 10 c).map (10 * n + ·)) start = some m ↔
      (∀ c ∈ cs, c.isDigit = true) ∧ m = 10 ^ cs.length * start + placeValue cs := by
  induction cs generalizing start with
  | nil =>
    have hstart : 10 ^ ([] : List Char).length * start + placeValue [] = start := by
      simp [placeValue]
    rw [hstart, List.foldlM_nil]
    simpa using eq_comm
  | cons c cs ih =>
    rw [List.foldlM_cons, digit?_ten, List.forall_mem_cons]
    by_cases hdigit : c.isDigit = true
    · have hshift : 10 ^ cs.length * (10 * start + (c.toNat - '0'.toNat)) + placeValue cs =
          10 ^ (c :: cs).length * start + placeValue (c :: cs) := by
        rw [placeValue_cons, List.length_cons, pow_succ]
        ring
      rw [if_pos hdigit, ← hshift]
      refine (ih _).trans ?_
      simp only [hdigit, true_and]
    · simp [hdigit]

theorem natural?_eq_some_iff : natural? 10 cs = some m ↔ IsDigits cs ∧ m = placeValue cs := by
  cases cs with
  | nil => simp [natural?, IsDigits]
  | cons c cs =>
    refine (foldlM_digit?_eq_some_iff 0 (c :: cs)).trans ?_
    simp [IsDigits]

/-! ## Signs and bounds -/

/-- The integer that a text stands for: digits, or digits behind a sign. -/
inductive Denotes : List Char → Int → Prop where
  | unsigned {digits : List Char} (h : IsDigits digits) : Denotes digits (placeValue digits)
  | plus {digits : List Char} (h : IsDigits digits) : Denotes ('+' :: digits) (placeValue digits)
  | minus {digits : List Char} (h : IsDigits digits) : Denotes ('-' :: digits) (-placeValue digits)

/-- A text that stands for an integer of 64 bits with a sign. -/
def IsInt64 (text : String) (n : Int) : Prop :=
  Denotes text.toList n ∧ -2 ^ 63 ≤ n ∧ n ≤ 2 ^ 63 - 1

theorem map_natural?_eq_some_iff (f : Nat → Int) :
    (natural? 10 cs).map f = some n ↔ IsDigits cs ∧ n = f (placeValue cs) := by
  rw [Option.map_eq_some_iff]
  constructor
  · rintro ⟨m, hm, rfl⟩
    obtain ⟨hdigits, rfl⟩ := natural?_eq_some_iff.1 hm
    exact ⟨hdigits, rfl⟩
  · rintro ⟨hdigits, rfl⟩
    exact ⟨_, natural?_eq_some_iff.2 ⟨hdigits, rfl⟩, rfl⟩

/-- A sign is no digit, so it begins no unsigned number. -/
theorem not_isDigits_cons (h : c.isDigit = false) : ¬IsDigits (c :: cs) := by
  rintro ⟨-, hall⟩
  have hdigit := hall c List.mem_cons_self
  rw [h] at hdigit
  cases hdigit

theorem signed?_eq_some_iff : signed? cs = some n ↔ Denotes cs n := by
  constructor
  · intro h
    unfold signed? at h
    split at h
    · obtain ⟨hdigits, rfl⟩ := (map_natural?_eq_some_iff _).1 h
      exact .minus hdigits
    · obtain ⟨hdigits, rfl⟩ := (map_natural?_eq_some_iff _).1 h
      exact .plus hdigits
    · obtain ⟨hdigits, rfl⟩ := (map_natural?_eq_some_iff _).1 h
      exact .unsigned hdigits
  · intro h
    cases h with
    | unsigned hdigits =>
      obtain ⟨c, cs, rfl⟩ := List.exists_cons_of_ne_nil hdigits.1
      have hminus : c ≠ '-' := by
        rintro rfl
        exact not_isDigits_cons rfl hdigits
      have hplus : c ≠ '+' := by
        rintro rfl
        exact not_isDigits_cons rfl hdigits
      rw [signed?_of_unsigned hminus hplus]
      exact (map_natural?_eq_some_iff _).2 ⟨hdigits, rfl⟩
    | plus hdigits => exact (map_natural?_eq_some_iff _).2 ⟨hdigits, rfl⟩
    | minus hdigits => exact (map_natural?_eq_some_iff _).2 ⟨hdigits, rfl⟩

theorem fits64?_eq_some_iff {k : Int} :
    fits64? k = some n ↔ k = n ∧ -2 ^ 63 ≤ n ∧ n ≤ 2 ^ 63 - 1 := by
  have hmin : minInt64 = -2 ^ 63 := rfl
  have hmax : maxInt64 = 2 ^ 63 - 1 := rfl
  rw [fits64?, hmin, hmax]
  split
  · next hfits =>
    rw [Option.some_inj]
    refine ⟨?_, And.left⟩
    rintro rfl
    exact ⟨rfl, hfits⟩
  · next hfits =>
    refine ⟨nofun, ?_⟩
    rintro ⟨rfl, hbounds⟩
    exact absurd hbounds hfits

/-- The reader finds the integer that a text stands for, if 64 bits hold it. -/
theorem decimal?_eq_some_iff {text : String} : decimal? text = some n ↔ IsInt64 text n := by
  rw [decimal?, Option.bind_eq_some_iff, IsInt64]
  constructor
  · rintro ⟨k, hsigned, hfits⟩
    obtain ⟨rfl, hbounds⟩ := fits64?_eq_some_iff.1 hfits
    exact ⟨signed?_eq_some_iff.1 hsigned, hbounds⟩
  · rintro ⟨hdenotes, hbounds⟩
    exact ⟨n, signed?_eq_some_iff.2 hdenotes, fits64?_eq_some_iff.2 ⟨rfl, hbounds⟩⟩

theorem decimal?_eq_none_iff {text : String} : decimal? text = none ↔ ¬∃ n, IsInt64 text n := by
  simp only [← decimal?_eq_some_iff, ← Option.isSome_iff_exists, Option.not_isSome_iff_eq_none]

end Number

namespace Define

open Number

theorem flagValue?_eq_none_iff {value : String} :
    flagValue? value = none ↔ Text.lowerAscii value ≠ "true" ∧ Text.lowerAscii value ≠ "false" ∧
      decimal? value = none := by
  simp only [flagValue?]
  split
  · next htrue => simp [htrue]
  · next htrue =>
    split
    · next hfalse => simp [hfalse]
    · next hfalse => simp [htrue, hfalse, decimal?_lowerAscii]

/-- What an integer option and a flag make of a value.  An integer option accepts the integers of 64
bits and keeps their spelling.  A flag accepts these and, in any case of letters, the words `true`
and `false`; it is set by `true` and by the integers other than zero, however they are spelled.
Every other value is refused under the name of the option, as it was given. -/
theorem ofArgument_integer_or_flag (name value : String) :
    (ofArgument ⟨name, .integer none, value⟩ = .ok (some (.value name value)) ↔
      ∃ n, IsInt64 value n) ∧
    (ofArgument ⟨name, .integer none, value⟩ =
        .error (.invalidValue name value "an integer") ↔ ¬∃ n, IsInt64 value n) ∧
    (Define.value name value).token = name ++ "=" ++ value ∧
    (ofArgument ⟨name, .flag, value⟩ = .ok (some (.symbol name)) ↔
      Text.lowerAscii value = "true" ∨ ∃ n, IsInt64 value n ∧ n ≠ 0) ∧
    (ofArgument ⟨name, .flag, value⟩ = .ok none ↔
      Text.lowerAscii value = "false" ∨ IsInt64 value 0) ∧
    (ofArgument ⟨name, .flag, value⟩ =
        .error (.invalidValue name value "an integer or true/false") ↔
      Text.lowerAscii value ≠ "true" ∧ Text.lowerAscii value ≠ "false" ∧
        ¬∃ n, IsInt64 value n) := by
  rw [← decimal?_eq_none_iff]
  simp only [← decimal?_eq_some_iff]
  refine ⟨?_, ?_, rfl, ?_, ?_, ?_⟩
  · cases hvalue : decimal? value <;> simp [ofArgument, hvalue]
  · cases hvalue : decimal? value <;> simp [ofArgument, hvalue]
  · refine Iff.trans ?_ sets_iff.symm
    cases hvalue : flagValue? value <;> simp [ofArgument, hvalue]
  · refine Iff.trans ?_ unsets_iff.symm
    cases hvalue : flagValue? value <;> simp [ofArgument, hvalue]
  · refine Iff.trans ?_ flagValue?_eq_none_iff
    cases hvalue : flagValue? value <;> simp [ofArgument, hvalue]

example : ofArgument ⟨"LEVEL", .integer none, "+9223372036854775808"⟩ =
    .error (.invalidValue "LEVEL" "+9223372036854775808" "an integer") := by
  decide

example : ofArgument ⟨"DEBUG", .flag, "-9223372036854775808"⟩ = .ok (some (.symbol "DEBUG")) := by
  decide

end Define

end Autotree
