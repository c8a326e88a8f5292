import Mathlib
import DiceNotation.Number

/-!
# Powers of integers

The power of an integer with a natural exponent is taken from a table, refused for the size of its
exponent, or calculated by repeated squaring, in which every product has to fit. Whichever way it
goes, the result is the exact power if it fits, and an overflow if not. A square that is too large
is no exception: it is only taken if it is still a factor of the power.
-/

namespace DiceNotation

namespace Number

/-! ## Products that do not fit -/

theorem fits_iff {z : Int} : Fits z ↔ -2 ^ 63 ≤ z ∧ z < 2 ^ 63 := Iff.rfl

/-- A multiple of what does not fit does not fit either. -/
theorem not_fits_mul {z factor : Int} (h : ¬ Fits z) (hfactor : 0 < factor) :
    ¬ Fits (z * factor) := by
  rw [fits_iff, not_and_or, not_le, not_lt] at h ⊢
  rcases h with hlow | hhigh
  · exact .inl (by nlinarith)
  · exact .inr (by nlinarith)

/-- A multiple of a square that does not fit does not fit either. The least integer that fits has a
greater size than the greatest one, but its size is no square. -/
theorem not_fits_mul_square {product base : Int} (hproduct : product ≠ 0)
    (h : ¬ Fits (base * base)) : ¬ Fits (product * (base * base)) := by
  have hlarge : 2 ^ 63 < base * base := by
    rw [fits_iff, not_and_or, not_le, not_lt] at h
    have hroot : (3037000500 : Int) ≤ |base| := by
      by_contra hsmall
      have habs : |base| * |base| = base * base := abs_mul_abs_self base
      have hnonneg := abs_nonneg base
      rcases h with hlow | hhigh <;> nlinarith
    have habs : |base| * |base| = base * base := abs_mul_abs_self base
    nlinarith
  rw [fits_iff]
  rintro ⟨hlow, hhigh⟩
  rcases lt_or_gt_of_ne hproduct with hneg | hpos
  · nlinarith
  · nlinarith

/-! ## Repeated squaring -/

theorem fitting?_of_fits {z : Int} (h : Fits z) : fitting? z = some z := if_pos h

theorem fitting?_of_not_fits {z : Int} (h : ¬ Fits z) : fitting? z = none := if_neg h

/-- The lowest binary digit of the exponent is split off. -/
theorem mul_pow_eq (product base : Int) (exponent : Nat) :
    product * base ^ exponent =
      product * base ^ (exponent % 2) * (base * base) ^ (exponent / 2) := by
  calc product * base ^ exponent
    _ = product * base ^ (exponent % 2 + 2 * (exponent / 2)) := by rw [Nat.mod_add_div]
    _ = product * base ^ (exponent % 2) * (base * base) ^ (exponent / 2) := by
      rw [pow_add, pow_mul, pow_two, mul_assoc]

/-- The lowest digit of the exponent decides whether the product is multiplied by the base. -/
theorem lowest_digit_eq {product : Int} (hproduct : Fits product) (base : Int) (exponent : Nat) :
    (if exponent % 2 = 1 then fitting? (product * base) else some product) =
      fitting? (product * base ^ (exponent % 2)) := by
  rcases Nat.mod_two_eq_zero_or_one exponent with heven | hodd
  · rw [heven, if_neg Nat.zero_ne_one, pow_zero, mul_one, fitting?_of_fits hproduct]
  · rw [hodd, if_pos rfl, pow_one]

/-- Repeated squaring results in the exact product, if it fits. -/
theorem timesPower?_eq {product base : Int} (hproduct : Fits product) (hne : product ≠ 0)
    (hbase : base ≠ 0) (exponent : Nat) :
    timesPower? product base exponent = fitting? (product * base ^ exponent) := by
  induction exponent using Nat.strong_induction_on generalizing product base with
  | _ exponent ih =>
    rw [timesPower?]
    split
    · rename_i hzero
      rw [hzero, pow_zero, mul_one, fitting?_of_fits hproduct]
    rename_i hpositive
    have hsquare : 0 < base * base := mul_self_pos.mpr hbase
    rw [lowest_digit_eq hproduct]
    by_cases hdigit : Fits (product * base ^ (exponent % 2))
    · have hnext : product * base ^ (exponent % 2) ≠ 0 := mul_ne_zero hne (pow_ne_zero _ hbase)
      rw [fitting?_of_fits hdigit, Option.bind_some]
      split
      · rename_i hone
        rw [← fitting?_of_fits hdigit, hone]
      rename_i hmore
      by_cases hfits : Fits (base * base)
      · rw [fitting?_of_fits hfits, Option.bind_some,
          ih (exponent / 2) (by omega) hdigit hnext hsquare.ne', ← mul_pow_eq]
      · rw [fitting?_of_not_fits hfits, Option.bind_none, mul_pow_eq]
        -- At least one more digit is left, so the square is a factor of the power.
        obtain ⟨left, hleft⟩ := Nat.exists_eq_succ_of_ne_zero (n := exponent / 2) (by omega)
        rw [hleft, pow_succ', ← mul_assoc]
        exact (fitting?_of_not_fits
          (not_fits_mul (not_fits_mul_square hnext hfits) (pow_pos hsquare left))).symm
    · rw [fitting?_of_not_fits hdigit, Option.bind_none, mul_pow_eq]
      exact (fitting?_of_not_fits (not_fits_mul hdigit (pow_pos hsquare _))).symm

/-! ## Powers -/

/-- The table of the powers of -1, 0 and 1 is right. -/
theorem unitPower_eq {base : Int} (hbase : base.natAbs ≤ 1) (exponent : Nat) :
    unitPower base exponent = base ^ exponent := by
  rw [unitPower]
  obtain rfl | rfl | rfl : base = 1 ∨ base = 0 ∨ base = -1 := by omega
  · rw [if_pos (.inr rfl), one_pow]
  · by_cases hzero : exponent = 0
    · rw [if_pos (.inl hzero), hzero, pow_zero]
    · rw [if_neg (by omega), if_pos rfl, zero_pow hzero]
  · by_cases hzero : exponent = 0
    · rw [if_pos (.inl hzero), hzero, pow_zero]
    · rw [if_neg (by omega), if_neg (by decide)]
      rcases Nat.mod_two_eq_zero_or_one exponent with heven | hodd
      · rw [if_pos heven, (Nat.even_iff.mpr heven).neg_one_pow]
      · rw [if_neg (by omega), (Nat.odd_iff.mpr hodd).neg_one_pow]

/-- No power of -1, 0 or 1 is too large. -/
theorem fits_pow_of_natAbs_le_one {base : Int} (hbase : base.natAbs ≤ 1) (exponent : Nat) :
    Fits (base ^ exponent) := by
  have hsize : (base ^ exponent).natAbs ≤ 1 := by
    rw [Int.natAbs_pow]
    exact pow_le_one₀ (Nat.zero_le _) hbase
  rw [fits_iff]
  omega

/-- No 64th power of any other base fits, so an exponent of more than 32 bits is refused rightly. -/
theorem not_fits_pow {base : Int} (hbase : ¬ base.natAbs ≤ 1) {exponent : Nat}
    (hexponent : 64 ≤ exponent) : ¬ Fits (base ^ exponent) := by
  have hsize : 2 ^ 64 ≤ (base ^ exponent).natAbs := by
    rw [Int.natAbs_pow]
    calc 2 ^ 64 ≤ 2 ^ exponent := Nat.pow_le_pow_right (by decide) hexponent
      _ ≤ base.natAbs ^ exponent := Nat.pow_le_pow_left (by omega) exponent
  rw [fits_iff]
  omega

/-- However the power of an integer is found, it is the exact one, if it fits. -/
theorem integerPower_eq (base : Int) (exponent : Nat) :
    integerPower base exponent = ofInt (base ^ exponent) := by
  rw [integerPower, ofInt]
  split
  · rename_i hbase
    rw [unitPower_eq hbase, if_pos (fits_pow_of_natAbs_le_one hbase exponent)]
  rename_i hbase
  split
  · rename_i hexponent
    have hlarge : 2 ^ 32 ≤ exponent := hexponent
    exact (if_neg (not_fits_pow hbase (by omega))).symm
  have hone : Fits 1 := by decide
  rw [timesPower?_eq hone one_ne_zero (by omega), one_mul]
  by_cases hfits : Fits (base ^ exponent)
  · rw [fitting?_of_fits hfits, if_pos hfits]
  · rw [fitting?_of_not_fits hfits, if_neg hfits]

end Number

end DiceNotation
