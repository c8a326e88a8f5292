import DiceNotation.Proofs.Decimal.Nearest

/-!
# Overflow of decimal numbers

A quotient below the middle between the greatest floating-point number and the next power of two is
rounded to a finite number. Rounding goes up by half a place at most, so it does not reach that
power, and the exponent of the result stays in its range. So the text of a decimal number is too
great for a floating-point number only if its value is.
-/

namespace DiceNotation.Decimal

open Float.Model
open Float.Model.UnpackedFloat

/-- The least number that is rounded to no finite one. -/
def overflowBound : ℚ := 2 ^ 1024 - 2 ^ 970

theorem overflowBound_lt : overflowBound < 2 ^ 1024 := sub_lt_self _ (by positivity)

theorem roundedMantissa_le_succ (whole : ℕ) (roundBit stickyBit : Bool) :
    (ExtendedMantissa.mk whole roundBit stickyBit).roundedMantissa ≤
      whole + roundBit.toNat := by
  cases roundBit <;> cases stickyBit <;>
    simp [ExtendedMantissa.roundedMantissa, ExtendedMantissa.accuracy, Accuracy.roundToNearestEven]
  omega

/-- Rounding goes up by at most a half. -/
theorem roundedMantissa_le (numerator : ℕ) {denominator : ℕ} (hd : 0 < denominator) :
    2 * (fractionMantissa numerator denominator).roundedMantissa * denominator ≤
      2 * numerator + denominator := by
  have hdivide := Nat.div_add_mod numerator denominator
  rw [fractionMantissa, ofMantissaAndAccuracy_accuracyOfFraction hd]
  generalize numerator / denominator = whole at hdivide ⊢
  generalize numerator % denominator = rest at hdivide ⊢
  subst hdivide
  have hrounded := Nat.mul_le_mul_right denominator (Nat.mul_le_mul_left 2
    (roundedMantissa_le_succ whole (decide (denominator ≤ 2 * rest))
      (decide (rest ≠ 0 ∧ 2 * rest ≠ denominator))))
  refine hrounded.trans ?_
  by_cases hhalf : denominator ≤ 2 * rest
  · rw [decide_eq_true hhalf, Bool.toNat_true]
    linarith
  · rw [decide_eq_false hhalf, Bool.toNat_false]
    linarith

theorem isFinite_unpack {bits : BitVec Format.binary64.numBits} (h : unpackExponent bits ≠ -1#_) :
    (UnpackedFloat.unpack .binary64 bits).isFinite = true := by
  rw [UnpackedFloat.unpack]
  dsimp only
  rw [if_neg h]
  split
  · split <;> rfl
  · rfl

/-- A number whose exponent is not too great is packed as a finite one. -/
theorem isFinite_pack (s : Sign) {m : ℕ} {e : ℤ} (hm : 0 < m) (he : e ≤ 971) :
    (UnpackedFloat.unpack .binary64
      (UnpackedFloat.pack .binary64 (.finite s m e hm))).isFinite = true := by
  apply isFinite_unpack
  have hbiased : (e + (1023 : ℕ) + (52 : ℕ)).toNat < 2047 := by omega
  have hsmall : ¬ 2 ^ 11 ≤ (e + (1023 : ℕ) + (52 : ℕ)).toNat + 1 := by omega
  rw [UnpackedFloat.pack, exponentBias_eq, mantissaBits_eq]
  dsimp only
  rw [if_neg hsmall]
  split
  · rw [UnpackedFloat.unpackExponent_packComponents]
    intro heq
    have hfield := congrArg BitVec.toNat heq
    rw [BitVec.toNat_ofNat] at hfield
    change _ % 2048 = 2047 at hfield
    omega
  · rw [UnpackedFloat.unpackExponent_packComponents]
    decide

/-- A number below 2 ^ 1024 has no more than 1024 places before its point. -/
theorem totalExponent_le {m : ℕ} {e : ℤ} (he : e ≤ 971) (h : (m * 2 ^ e : ℚ) < 2 ^ 1024) :
    totalExponent m e ≤ 1024 := by
  rw [totalExponent]
  rcases Nat.eq_zero_or_pos m with rfl | hpos
  · rw [Nat.log2_zero]
    omega
  · have hlow : (2 ^ m.log2 : ℚ) ≤ m := by exact_mod_cast Nat.log2_self_le hpos.ne'
    have hpower : (2 : ℚ) ^ (m.log2 + e) < 2 ^ (1024 : ℤ) :=
      calc (2 : ℚ) ^ (m.log2 + e) = 2 ^ m.log2 * 2 ^ e := by
            rw [zpow_add₀ two_ne_zero, zpow_natCast]
        _ ≤ m * 2 ^ e := by gcongr
        _ < 2 ^ (1024 : ℤ) := by exact_mod_cast h
    have hexponent := (zpow_lt_zpow_iff_right₀ one_lt_two).1 hpower
    omega

/-- Shifting to a mantissa of 53 bits leaves an exponent that is not too great. -/
theorem shifted_le {m : ℕ} {e : ℤ} (he : e ≤ 971) (h : totalExponent m e ≤ 1024) :
    e + (Format.binary64.targetExponent (totalExponent m e) - e).toNat ≤ 971 := by
  rw [targetExponent_eq]
  omega

/-- A fraction below the bound is rounded to a finite number. -/
theorem isFinite_round {numerator denominator : ℕ} {t : ℤ} (hd : 0 < denominator) (ht : t ≤ 971)
    (hq : (numerator / denominator * 2 ^ t : ℚ) < overflowBound) (s : Sign) :
    (UnpackedFloat.unpack .binary64 (UnpackedFloat.pack .binary64
      (roundWithAccuracy .binary64 s (numerator / denominator) t
        (accuracyOfFraction (numerator % denominator) denominator)))).isFinite = true := by
  have hfloor : ((numerator / denominator : ℕ) * 2 ^ t : ℚ) < 2 ^ 1024 := by
    refine lt_of_le_of_lt ?_ (hq.trans overflowBound_lt)
    gcongr
    exact Nat.cast_div_le
  have hfirst := shifted_le ht (totalExponent_le ht hfloor)
  generalize hshift : (Format.binary64.targetExponent
    (totalExponent (numerator / denominator) t) - t).toNat = shift at hfirst
  have hshifted : shiftToTargetExponent .binary64 (numerator / denominator) t
      (accuracyOfFraction (numerator % denominator) denominator) =
        (fractionMantissa numerator (denominator * 2 ^ shift), t + shift) := by
    rw [shiftToTargetExponent, shiftToExponent, hshift, ← shiftRight_fractionMantissa numerator hd]
    rfl
  have hhalf := roundedMantissa_le numerator (Nat.mul_pos hd (Nat.two_pow_pos shift))
  generalize hrounded :
    (fractionMantissa numerator (denominator * 2 ^ shift)).roundedMantissa = rounded at hhalf
  have hd' : (0 : ℚ) < denominator := by exact_mod_cast hd
  have hup : (rounded * 2 ^ shift : ℚ) ≤ numerator / denominator + 2 ^ shift / 2 := by
    have hcast : (2 * rounded * (denominator * 2 ^ shift) : ℚ) ≤
        2 * numerator + denominator * 2 ^ shift := by exact_mod_cast hhalf
    rw [div_add' _ _ _ hd'.ne', le_div_iff₀ hd']
    linarith
  have hless : (rounded * 2 ^ (t + shift) : ℚ) < 2 ^ 1024 :=
    calc (rounded * 2 ^ (t + shift) : ℚ) = rounded * 2 ^ shift * 2 ^ t := by
          rw [zpow_add₀ two_ne_zero, zpow_natCast]
          ring
      _ ≤ (numerator / denominator + 2 ^ shift / 2) * 2 ^ t := by gcongr
      _ = numerator / denominator * 2 ^ t + 2 ^ (t + shift) / 2 := by
          rw [zpow_add₀ two_ne_zero, zpow_natCast]
          ring
      _ ≤ numerator / denominator * 2 ^ t + 2 ^ (971 : ℤ) / 2 := by
          gcongr
          exact one_le_two
      _ < overflowBound + 2 ^ (971 : ℤ) / 2 := by gcongr
      _ = 2 ^ 1024 := by
          rw [overflowBound, show (971 : ℤ) = ((970 + 1 : ℕ) : ℤ) from rfl, zpow_natCast,
            pow_succ (2 : ℚ) 970, mul_div_cancel_right₀ _ two_ne_zero, sub_add_cancel]
  have hsecond := shifted_le hfirst (totalExponent_le hfirst hless)
  simp only [roundWithAccuracy, hshifted, hrounded]
  split
  · rw [unpack_pack_zero]
    rfl
  · exact isFinite_pack s _ hsecond

/-- A quotient below the bound is rounded to a finite number. -/
theorem isFinite_div {m₁ m₂ : ℕ} {e₁ e₂ : ℤ} (h₁ : 0 < m₁) (h₂ : 0 < m₂) (s₁ s₂ : Sign)
    (hq : (m₁ * 2 ^ e₁ / (m₂ * 2 ^ e₂) : ℚ) < overflowBound) :
    (UnpackedFloat.unpack .binary64 (UnpackedFloat.pack .binary64
      (UnpackedFloat.div .binary64 (.finite s₁ m₁ e₁ h₁) (.finite s₂ m₂ e₂ h₂)))).isFinite =
        true := by
  have hexponents : totalExponent m₁ e₁ - totalExponent m₂ e₂ - 1 < 1024 := by
    have hpower : (2 : ℚ) ^ (totalExponent m₁ e₁ - totalExponent m₂ e₂ - 1) < 2 ^ (1024 : ℤ) :=
      (two_zpow_lt_div h₁ h₂).trans (hq.trans (by exact_mod_cast overflowBound_lt))
    exact (zpow_lt_zpow_iff_right₀ one_lt_two).1 hpower
  obtain ⟨more, t, ht, -, hvalue, hdiv⟩ := exists_div_eq h₁ h₂ e₁ e₂ s₁ s₂
  rw [← hvalue] at hq
  rw [hdiv]
  exact isFinite_round h₂ (by omega) hq (s₁ / s₂)

/-- A quotient of natural numbers below the bound is rounded to a finite number. -/
theorem IsNatural.isFinite_div {numerator denominator : ℕ} {x y : UnpackedFloat}
    (hx : IsNatural numerator x) (hy : IsNatural denominator y)
    (hq : (numerator / denominator : ℚ) < overflowBound) :
    (UnpackedFloat.unpack .binary64
      (UnpackedFloat.pack .binary64 (UnpackedFloat.div .binary64 x y))).isFinite = true := by
  obtain ⟨m₁, e₁, h₁, hvalue₁, rfl⟩ := hx
  obtain ⟨m₂, e₂, h₂, hvalue₂, rfl⟩ := hy
  rw [← hvalue₁, ← hvalue₂] at hq
  exact Decimal.isFinite_div h₁ h₂ .positive .positive hq

/-- A decimal number below the bound is read as a finite floating-point number. -/
theorem isFinite_nearest {n shift : ℕ} (hs : 0 < shift)
    (h : (n / (10 ^ shift : ℕ) : ℚ) < overflowBound) : (nearest n (-shift)).isFinite = true := by
  rcases nearest_cases n hs with ⟨-, hzero⟩ | ⟨x, y, hx, hy, hdiv⟩
  · rw [hzero]
    change (UnpackedFloat.unpack .binary64 (UnpackedFloat.pack .binary64
      (.zero .positive))).isFinite = true
    rw [unpack_pack_zero]
    rfl
  · rw [hdiv]
    exact hx.isFinite_div hy h

end DiceNotation.Decimal
