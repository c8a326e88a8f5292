import DiceNotation.Proofs.Decimal.Rounding

/-!
# Operations with a floating-point result

A quotient that lies in the rounding cell of a floating-point number is this number, and a product
with a power of two that can be represented is exact. Natural numbers of at most 53 bits are
floating-point numbers.
-/

namespace DiceNotation.Decimal

open Float.Model
open Float.Model.UnpackedFloat (Sign accuracyOfFraction divCore)

/-- The rational numbers that round to a floating-point number. -/
structure InCell (m : ℕ) (e : ℤ) (q : ℚ) : Prop where
  /-- The number is not below the cell, which is smaller for the least mantissa of 53 bits. -/
  low : (4 * m - (if m = 2 ^ 52 then 1 else 2)) * (2 : ℚ) ^ (e - 2) ≤ q
  /-- The number is not above the cell. -/
  high : q ≤ (4 * m + 2) * (2 : ℚ) ^ (e - 2)
  /-- The ends of the cell belong to it only for an even mantissa. -/
  odd : m % 2 = 1 → (4 * m - 2) * (2 : ℚ) ^ (e - 2) < q ∧ q < (4 * m + 2) * (2 : ℚ) ^ (e - 2)

/-- A fraction with a binary exponent that lies in a cell rounds to its mantissa. -/
theorem InCell.rounds {m numerator denominator shift : ℕ} {e t : ℤ} (hd : 0 < denominator)
    (he : t + shift = e) (h : InCell m e (numerator / denominator * (2 : ℚ) ^ t)) :
    Rounds numerator (denominator * 2 ^ shift) m := by
  subst he
  obtain ⟨hlow, hhigh, hodd⟩ := h
  have hcell : (0 : ℚ) < 2 ^ (t + shift - 2) := by positivity
  have hd' : (0 : ℚ) < denominator * 2 ^ shift := by positivity
  have hq : (numerator / denominator * 2 ^ t : ℚ) =
      4 * numerator / (denominator * 2 ^ shift) * 2 ^ (t + shift - 2) := by
    rw [zpow_sub₀ two_ne_zero, zpow_add₀ two_ne_zero, zpow_natCast]
    field_simp
    norm_num
  rw [hq, mul_le_mul_iff_left₀ hcell, le_div_iff₀ hd'] at hlow
  rw [hq, mul_le_mul_iff_left₀ hcell, div_le_iff₀ hd'] at hhigh
  rw [hq, mul_lt_mul_iff_left₀ hcell, mul_lt_mul_iff_left₀ hcell, lt_div_iff₀ hd',
    div_lt_iff₀ hd'] at hodd
  have hbelow : (4 * m - 2) * (denominator * 2 ^ shift : ℚ) ≤ 4 * numerator := by
    refine le_trans ?_ hlow
    gcongr
    split <;> norm_num
  refine ⟨⟨?_, ?_, fun hparity => ?_⟩, fun hleast => ?_⟩
  · have hdouble : (2 * m * (denominator * 2 ^ shift) : ℚ) ≤
        2 * numerator + denominator * 2 ^ shift := by linarith
    exact_mod_cast hdouble
  · have hdouble : (2 * numerator : ℚ) ≤ (2 * m + 1) * (denominator * 2 ^ shift) := by linarith
    exact_mod_cast hdouble
  · obtain ⟨hlow', hhigh'⟩ := hodd hparity
    have hdouble : (2 * m * (denominator * 2 ^ shift) : ℚ) <
        2 * numerator + denominator * 2 ^ shift := by linarith
    have hdouble' : (2 * numerator : ℚ) < (2 * m + 1) * (denominator * 2 ^ shift) := by linarith
    exact ⟨by exact_mod_cast hdouble, by exact_mod_cast hdouble'⟩
  · rw [if_pos hleast] at hlow
    have hquarter : (4 * m * (denominator * 2 ^ shift) : ℚ) ≤
        4 * numerator + denominator * 2 ^ shift := by linarith
    exact_mod_cast hquarter

/-- Everything in the cell of a floating-point number is less than the next power of two. -/
theorem InCell.lt_two_zpow {m : ℕ} {e : ℤ} {q : ℚ} (hc : Canonical m e) (h : InCell m e q) :
    q < 2 ^ (53 + e) := by
  have hcell : (0 : ℚ) < 2 ^ (e - 2) := by positivity
  have hfits : (4 * m + 2 : ℚ) < 2 ^ 55 := by
    have hnat : 4 * m + 2 < 2 ^ 55 := by have := hc.fits; omega
    exact_mod_cast hnat
  calc q ≤ (4 * m + 2) * 2 ^ (e - 2) := h.high
    _ < 2 ^ 55 * 2 ^ (e - 2) := by gcongr
    _ = 2 ^ (53 + e) := by
      rw [← zpow_natCast, ← zpow_add₀ two_ne_zero]
      congr 1
      push_cast
      ring

/-- A quotient is greater than the power of two that the lengths of its operands tell. -/
theorem two_zpow_lt_div {m₁ m₂ : ℕ} {e₁ e₂ : ℤ} (h₁ : 0 < m₁) (h₂ : 0 < m₂) :
    (2 : ℚ) ^ (totalExponent m₁ e₁ - totalExponent m₂ e₂ - 1) <
      m₁ * 2 ^ e₁ / (m₂ * 2 ^ e₂) := by
  have hlow : (2 ^ m₁.log2 : ℚ) ≤ m₁ := by exact_mod_cast Nat.log2_self_le h₁.ne'
  have hhigh : (m₂ : ℚ) < 2 ^ (m₂.log2 + 1) := by exact_mod_cast Nat.lt_log2_self
  have hpos : (0 : ℚ) < m₂ * 2 ^ e₂ := by positivity
  rw [lt_div_iff₀ hpos]
  calc (2 : ℚ) ^ (totalExponent m₁ e₁ - totalExponent m₂ e₂ - 1) * (m₂ * 2 ^ e₂)
      < 2 ^ (totalExponent m₁ e₁ - totalExponent m₂ e₂ - 1) * (2 ^ (m₂.log2 + 1) * 2 ^ e₂) := by
        gcongr
    _ = 2 ^ m₁.log2 * 2 ^ e₁ := by
      simp only [← zpow_natCast, ← zpow_add₀ (two_ne_zero (α := ℚ)), totalExponent]
      congr 1
      push_cast
      ring
    _ ≤ m₁ * 2 ^ e₁ := by gcongr

/-- Division puts zeros behind the first mantissa, so that the quotient of the mantissas has enough
bits for the exponent that the lengths of the operands tell, and rounds this quotient. -/
theorem exists_div_eq {m₁ m₂ : ℕ} (h₁ : 0 < m₁) (h₂ : 0 < m₂) (e₁ e₂ : ℤ) (s₁ s₂ : Sign) :
    ∃ (more : ℕ) (t : ℤ),
      t = min (e₁ - e₂) (max (totalExponent m₁ e₁ - totalExponent m₂ e₂ - 53) (-1074)) ∧
      e₁ - e₂ - t = more ∧
      ((m₁ * 2 ^ more : ℕ) / m₂ * 2 ^ t : ℚ) = m₁ * 2 ^ e₁ / (m₂ * 2 ^ e₂) ∧
      UnpackedFloat.div .binary64 (.finite s₁ m₁ e₁ h₁) (.finite s₂ m₂ e₂ h₂) =
        UnpackedFloat.roundWithAccuracy .binary64 (s₁ / s₂) (m₁ * 2 ^ more / m₂) t
          (accuracyOfFraction (m₁ * 2 ^ more % m₂) m₂) := by
  rw [UnpackedFloat.div, divCore, targetExponent_eq]
  dsimp only
  generalize ht : min (e₁ - e₂)
    (max (totalExponent m₁ e₁ - totalExponent m₂ e₂ - 53) (-1074)) = t
  obtain ⟨more, hmore⟩ : ∃ more : ℕ, e₁ - e₂ - t = more :=
    Int.eq_ofNat_of_zero_le (by omega)
  rw [hmore, Int.toNat_natCast, Nat.shiftLeft_eq]
  refine ⟨more, t, rfl, hmore, ?_, rfl⟩
  have he₁ : e₁ = more + t + e₂ := by omega
  rw [he₁, zpow_add₀ two_ne_zero, zpow_add₀ two_ne_zero, zpow_natCast]
  push_cast
  field_simp

/-- A quotient in the cell of a floating-point number is rounded to it. -/
theorem div_finite {m m₁ m₂ : ℕ} {e e₁ e₂ : ℤ} (hc : Canonical m e) (h₁ : 0 < m₁) (h₂ : 0 < m₂)
    (s₁ s₂ : Sign) (hq : InCell m e (m₁ * 2 ^ e₁ / (m₂ * 2 ^ e₂))) :
    UnpackedFloat.div .binary64 (.finite s₁ m₁ e₁ h₁) (.finite s₂ m₂ e₂ h₂) =
      .finite (s₁ / s₂) m e hc.pos := by
  have hexponents : totalExponent m₁ e₁ - totalExponent m₂ e₂ - 1 < 53 + e :=
    (zpow_lt_zpow_iff_right₀ one_lt_two).1 ((two_zpow_lt_div h₁ h₂).trans (hq.lt_two_zpow hc))
  have hleast := hc.least
  obtain ⟨more, t, ht, hmore, hvalue, hdiv⟩ := exists_div_eq h₁ h₂ e₁ e₂ s₁ s₂
  obtain ⟨shift, hshift⟩ : ∃ shift : ℕ, e - t = shift :=
    Int.eq_ofNat_of_zero_le (by omega)
  rw [← hvalue] at hq
  have hrounds : Rounds (m₁ * 2 ^ more) (m₂ * 2 ^ shift) m := hq.rounds h₂ (by omega)
  rw [hdiv]
  refine hrounds.roundWithAccuracy hc h₂ (s₁ / s₂) (by omega) ?_
  -- The quotient has enough bits, since it is at least the quotient of the leading bits.
  have hlog : m₁.log2 + more < (m₁ * 2 ^ more / m₂).log2 + 1 + (m₂.log2 + 1) := by
    refine (Nat.pow_lt_pow_iff_right one_lt_two).1 ?_
    calc 2 ^ (m₁.log2 + more) = 2 ^ m₁.log2 * 2 ^ more := pow_add ..
      _ ≤ m₁ * 2 ^ more := Nat.mul_le_mul_right _ (Nat.log2_self_le h₁.ne')
      _ < m₂ * (m₁ * 2 ^ more / m₂ + 1) := Nat.lt_mul_div_succ _ h₂
      _ ≤ 2 ^ (m₂.log2 + 1) * 2 ^ ((m₁ * 2 ^ more / m₂).log2 + 1) :=
        Nat.mul_le_mul Nat.lt_log2_self.le Nat.lt_log2_self
      _ = 2 ^ ((m₁ * 2 ^ more / m₂).log2 + 1 + (m₂.log2 + 1)) := by ring
  rw [targetExponent_eq, totalExponent]
  rw [totalExponent, totalExponent] at ht
  omega

theorem log2_mul_two_pow {n : ℕ} (h : 0 < n) (shift : ℕ) :
    (n * 2 ^ shift).log2 = n.log2 + shift := by
  have hpos : 0 < 2 ^ shift := by positivity
  rw [Nat.log2_eq_iff (Nat.mul_pos h hpos).ne', pow_add, Nat.add_right_comm, pow_add]
  exact ⟨Nat.mul_le_mul_right _ (Nat.log2_self_le h.ne'),
    Nat.mul_lt_mul_of_pos_right Nat.lt_log2_self hpos⟩

/-- A floating-point number with zeros behind its mantissa is rounded to itself. -/
theorem roundWithAccuracy_exact {m : ℕ} {e t : ℤ} (shift : ℕ) (hc : Canonical m e) (s : Sign)
    (he : t + shift = e) :
    UnpackedFloat.roundWithAccuracy .binary64 s (m * 2 ^ shift) t .exact =
      .finite s m e hc.pos := by
  have hrounds : Rounds (m * 2 ^ shift) (1 * 2 ^ shift) m := by
    have hpos : 0 < 2 ^ shift := by positivity
    refine ⟨⟨?_, ?_, fun _ => ⟨?_, ?_⟩⟩, fun _ => ?_⟩ <;> linarith
  have htarget := hc.targetExponent
  have hround := hrounds.roundWithAccuracy hc one_pos s he (by
    rw [targetExponent_eq, totalExponent] at htarget ⊢
    rw [Nat.div_one, log2_mul_two_pow hc.pos]
    omega)
  rw [Nat.div_one, Nat.mod_one] at hround
  exact hround

/-- A natural number of at most 53 bits is a floating-point number. -/
theorem exists_ofNat {n : ℕ} (hpos : 0 < n) (hn : n < 2 ^ 53) :
    ∃ m e, ∃ hc : Canonical m e, (m * 2 ^ e : ℚ) = n ∧
      UnpackedFloat.ofNat .binary64 n = .finite .positive m e hc.pos := by
  have hlow := Nat.log2_self_le hpos.ne'
  have hlog : n.log2 < 53 := (Nat.log2_lt hpos.ne').2 hn
  obtain ⟨more, hmore⟩ : ∃ more, n.log2 + more = 52 := ⟨52 - n.log2, by omega⟩
  have hc : Canonical (n * 2 ^ more) (-more) := by
    refine ⟨by positivity, ?_, .inl ?_, by omega, by omega⟩
    · calc n * 2 ^ more < 2 ^ (n.log2 + 1) * 2 ^ more :=
          Nat.mul_lt_mul_of_pos_right Nat.lt_log2_self (by positivity)
        _ = 2 ^ 53 := by rw [← pow_add]; congr 1; omega
    · calc 2 ^ 52 = 2 ^ n.log2 * 2 ^ more := by rw [← pow_add, hmore]
        _ ≤ n * 2 ^ more := Nat.mul_le_mul_right _ hlow
  refine ⟨n * 2 ^ more, -more, hc, ?_, ?_⟩
  · push_cast
    rw [zpow_neg, zpow_natCast]
    field_simp
  · have hcompare : compare (n : ℤ) 0 = .gt := compare_gt_iff_gt.2 (by omega)
    have hshift : (0 - max ((n.log2 : ℤ) + 1 + 0 - 53) (-1074)).toNat = more := by omega
    have hexact := roundWithAccuracy_exact 0 hc .positive (add_zero _)
    rw [pow_zero, mul_one] at hexact
    rw [UnpackedFloat.ofNat, UnpackedFloat.ofInt, UnpackedFloat.normalize, hcompare]
    dsimp only
    rw [UnpackedFloat.round, UnpackedFloat.decreaseExponent, targetExponent_eq, totalExponent,
      Int.toNat_natCast, hshift, Nat.shiftLeft_eq, zero_sub]
    exact hexact

end DiceNotation.Decimal
