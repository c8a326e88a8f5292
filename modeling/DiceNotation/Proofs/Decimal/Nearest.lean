import DiceNotation.Decimal.Reading
import DiceNotation.Proofs.Decimal.Encoding
import DiceNotation.Proofs.Decimal.Shortest

/-!
# Reading the nearest floating-point number

A fraction with a power of ten as its denominator is read as the floating-point number in whose
cell it lies. It is a quotient of two natural numbers, which both are floating-point numbers if they
are small, and is calculated with all their bits otherwise.
-/

namespace DiceNotation.Decimal

open Float.Model

/-- A number that is unpacked from the encoding of a natural number. -/
def IsNatural (n : ℕ) (number : UnpackedFloat) : Prop :=
  ∃ (m : ℕ) (e : ℤ) (hm : 0 < m), (m * 2 ^ e : ℚ) = n ∧ number = .finite .positive m e hm

/-- Decides whether an unpacked number is a natural number. -/
def isNatural (n : ℕ) : UnpackedFloat → Bool
  | .finite .positive m e _ => m * 2 ^ e.toNat == n * 2 ^ (-e).toNat
  | _ => false

theorem IsNatural.of_isNatural {n : ℕ} {number : UnpackedFloat}
    (h : isNatural n number = true) : IsNatural n number := by
  rw [isNatural.eq_def] at h
  split at h
  · next m e hm =>
    have heq : (m * 2 ^ e.toNat : ℚ) = n * 2 ^ (-e).toNat := by exact_mod_cast beq_iff_eq.1 h
    refine ⟨m, e, hm, ?_, rfl⟩
    rw [zpow_eq_div two_ne_zero, ← mul_div_assoc, heq]
    field_simp
  · cases h

/-- The table of powers of ten holds exactly these powers. -/
theorem isNatural_powerOfTen {shift : ℕ} (h : shift < 23) :
    IsNatural (10 ^ shift)
      (getElem Float.exactlyRepresentablePowersOfTen shift h).toModel.unpack := by
  have hall : ∀ i : Fin 23, isNatural (10 ^ i.val)
      (getElem Float.exactlyRepresentablePowersOfTen i.val i.isLt).toModel.unpack = true := by
    decide +kernel
  exact .of_isNatural (hall ⟨shift, h⟩)

/-- A natural number of at most 53 bits is converted exactly. -/
theorem isNatural_toFloat {n : ℕ} (hpos : 0 < n) (hn : n < 2 ^ 53) :
    IsNatural n n.toUInt64.toFloat.toModel.unpack := by
  obtain ⟨m, e, hc, hvalue, hnat⟩ := exists_ofNat hpos hn
  refine ⟨m, e, hc.pos, hvalue, ?_⟩
  have hsize : n < UInt64.size := hn.trans (by decide)
  have hfloat : n.toUInt64.toFloat.toModel.unpack = UnpackedFloat.unpack .binary64
      (UnpackedFloat.pack .binary64 (.ofNat .binary64 n.toUInt64.toNat)) := rfl
  rw [hfloat, UInt64.toNat_ofNat_of_lt' hsize, hnat, hc.unpack_pack]

/-- The quotient of two natural numbers in the cell of a floating-point number is rounded to it. -/
theorem IsNatural.div {numerator denominator m : ℕ} {e : ℤ} {x y : UnpackedFloat}
    (hx : IsNatural numerator x) (hy : IsNatural denominator y) (hc : Canonical m e)
    (hq : InCell m e (numerator / denominator)) :
    UnpackedFloat.div .binary64 x y = .finite .positive m e hc.pos := by
  obtain ⟨m₁, e₁, h₁, hvalue₁, rfl⟩ := hx
  obtain ⟨m₂, e₂, h₂, hvalue₂, rfl⟩ := hy
  rw [← hvalue₁, ← hvalue₂] at hq
  exact div_finite hc h₁ h₂ .positive .positive hq

theorem isNatural_self {n : ℕ} (h : 0 < n) : IsNatural n (.finite .positive n 0 h) :=
  ⟨n, 0, h, by norm_num, rfl⟩

/-- The digits of a fraction in a cell are not too many to be calculated with. -/
theorem InCell.shift_le {m numerator shift : ℕ} {e : ℤ} (hc : Canonical m e)
    (h : InCell m e (numerator / (10 ^ shift : ℕ))) : shift ≤ 2048 + numerator.log2 := by
  have hpos : (0 : ℚ) < (10 ^ shift : ℕ) := by positivity
  have hm : (1 : ℚ) ≤ m := by exact_mod_cast hc.pos
  have hleast := hc.least
  have hlow : (2 : ℚ) ^ (-1075 : ℤ) ≤ numerator / (10 ^ shift : ℕ) :=
    calc (2 : ℚ) ^ (-1075 : ℤ) ≤ 2 ^ (e - 1) := by
          refine zpow_le_zpow_right₀ one_le_two ?_
          omega
      _ = 2 * 2 ^ (e - 2) := by
          rw [← zpow_one_add₀ two_ne_zero]
          congr 1
          ring
      _ ≤ (4 * m - (if m = 2 ^ 52 then 1 else 2)) * 2 ^ (e - 2) := by
          gcongr
          split <;> linarith
      _ ≤ numerator / (10 ^ shift : ℕ) := h.low
  have hbits : 2 ^ (3 * shift) < 2 ^ (numerator.log2 + 1 + 1075) := by
    rw [zpow_neg, inv_eq_one_div, div_le_div_iff₀ (by positivity) hpos, one_mul] at hlow
    have hscaled : 10 ^ shift ≤ numerator * 2 ^ 1075 := by exact_mod_cast hlow
    calc 2 ^ (3 * shift) = 8 ^ shift := by rw [pow_mul]; norm_num
      _ ≤ 10 ^ shift := Nat.pow_le_pow_left (by norm_num) _
      _ ≤ numerator * 2 ^ 1075 := hscaled
      _ < 2 ^ (numerator.log2 + 1) * 2 ^ 1075 :=
        Nat.mul_lt_mul_of_pos_right Nat.lt_log2_self (by positivity)
      _ = 2 ^ (numerator.log2 + 1 + 1075) := (pow_add ..).symm
  have hshift := (Nat.pow_lt_pow_iff_right one_lt_two).1 hbits
  omega

/-- A fraction that is calculated with all its bits is the quotient of two natural numbers, unless
it is zero or so small that it is taken for zero. -/
theorem ofScientific_cases (n : ℕ) {shift : ℕ} (hs : 0 < shift) :
    ((n = 0 ∨ 2048 + n.log2 < shift) ∧
      UnpackedFloat.ofScientific .binary64 n (-(shift : ℤ)) = .zero .positive) ∨
    ∃ x y, IsNatural n x ∧ IsNatural (10 ^ shift) y ∧
      UnpackedFloat.ofScientific .binary64 n (-(shift : ℤ)) = UnpackedFloat.div .binary64 x y := by
  have hpower : 0 < 10 ^ shift := by positivity
  unfold UnpackedFloat.ofScientific
  split
  · next hn => exact .inl ⟨.inl hn, rfl⟩
  · next hn =>
    rw [if_neg (by norm_num)]
    split
    · next hfar =>
      norm_num at hfar
      exact .inl ⟨.inr (by omega), rfl⟩
    · rw [if_neg (by omega)]
      simp only [neg_neg, Int.toNat_natCast]
      exact .inr ⟨_, _, isNatural_self (Nat.pos_of_ne_zero hn), isNatural_self hpower, rfl⟩

/-- A fraction is read as the quotient of two natural numbers, unless it is zero or so small that it
is read as zero. -/
theorem nearest_cases (n : ℕ) {shift : ℕ} (hs : 0 < shift) :
    ((n = 0 ∨ 2048 + n.log2 < shift) ∧
      nearest n (-shift) = .ofModel (Float.Model.pack (.zero .positive))) ∨
    ∃ x y, IsNatural n x ∧ IsNatural (10 ^ shift) y ∧
      nearest n (-shift) = .ofModel (Float.Model.pack (UnpackedFloat.div .binary64 x y)) := by
  have hnegative : decide (-(shift : ℤ) < 0) = true := by
    rw [decide_eq_true_eq]
    omega
  rw [nearest, hnegative, Int.natAbs_neg, Int.natAbs_natCast, Float.ofScientific]
  split
  · next hsmall =>
    have hten := isNatural_powerOfTen (show shift < 23 by omega)
    rw [if_pos rfl]
    rcases Nat.eq_zero_or_pos n with rfl | hn
    · -- A zero is divided as well, and stays a zero.
      obtain ⟨m, e, hm, -, hmodel⟩ := hten
      refine .inl ⟨.inl rfl, ?_⟩
      have hquotient : UnpackedFloat.div .binary64 (.zero .positive) (.finite .positive m e hm) =
          .zero .positive := rfl
      rw [← hquotient, ← hmodel]
      rfl
    · exact .inr ⟨_, _, isNatural_toFloat hn hsmall.1, hten, rfl⟩
  · have hmodel : Float.ofModel (Float.Model.ofScientific n (Int.negOfNat shift)) =
        .ofModel (Float.Model.pack (UnpackedFloat.ofScientific .binary64 n (-(shift : ℤ)))) := by
      rw [Int.negOfNat_eq]
      rfl
    rw [if_pos rfl]
    dsimp only
    rw [hmodel]
    rcases ofScientific_cases n hs with ⟨hn, hzero⟩ | ⟨x, y, hx, hy, hdiv⟩
    · exact .inl ⟨hn, by rw [hzero]⟩
    · exact .inr ⟨x, y, hx, hy, by rw [hdiv]⟩

/-- A fraction in the cell of a floating-point number is read as this number. -/
theorem nearest_eq {m numerator shift : ℕ} {e : ℤ} (hc : Canonical m e)
    (hn : 0 < numerator) (hs : 0 < shift) (hq : InCell m e (numerator / (10 ^ shift : ℕ))) :
    nearest numerator (-shift) =
      .ofModel (Float.Model.pack (.finite .positive m e hc.pos)) := by
  rcases nearest_cases numerator hs with ⟨hzero | hfar, -⟩ | ⟨x, y, hx, hy, hdiv⟩
  · exact absurd hzero hn.ne'
  · exact absurd (hq.shift_le hc) hfar.not_ge
  · rw [hdiv, hx.div hy hc hq]

end DiceNotation.Decimal
