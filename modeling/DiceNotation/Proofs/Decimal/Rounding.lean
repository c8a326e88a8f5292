import Mathlib

/-!
# Rounding to the nearest floating-point number

Floating-point operations round a mantissa with two further bits, which tell where the exact result
lies between two mantissas. All of them together stand for a fraction, and shifting them is a
division of this fraction by two. So an operation whose exact result is nearest to a floating-point
number results in that number.
-/

namespace DiceNotation.Decimal

open Float.Model Float.Model.UnpackedFloat

/-! ## Mantissas of fractions -/

/-- The mantissa of a fraction, with the two bits that tell its rest. -/
def fractionMantissa (numerator denominator : ℕ) : ExtendedMantissa :=
  .ofMantissaAndAccuracy (numerator / denominator)
    (accuracyOfFraction (numerator % denominator) denominator)

/-- What a fraction leaves beside its mantissa is kept as a bit for the half and a bit for the
rest. -/
theorem ofMantissaAndAccuracy_accuracyOfFraction {n rest denominator : ℕ}
    (h : 0 < denominator) :
    ExtendedMantissa.ofMantissaAndAccuracy n (accuracyOfFraction rest denominator) =
      ⟨n, decide (denominator ≤ 2 * rest), decide (rest ≠ 0 ∧ 2 * rest ≠ denominator)⟩ := by
  rw [accuracyOfFraction]
  split
  · next hzero =>
    subst hzero
    simp [ExtendedMantissa.ofMantissaAndAccuracy, h.ne']
  · next hne =>
    cases hcompare : compare (2 * rest) denominator with
    | lt =>
      have hlt := Nat.compare_eq_lt.1 hcompare
      simp [ExtendedMantissa.ofMantissaAndAccuracy, hne, hlt, hlt.ne]
    | eq =>
      have heq := Nat.compare_eq_eq.1 hcompare
      simp [ExtendedMantissa.ofMantissaAndAccuracy, heq]
    | gt =>
      have hgt := Nat.compare_eq_gt.1 hcompare
      simp [ExtendedMantissa.ofMantissaAndAccuracy, hne, hgt.le, hgt.ne']

/-- One shift halves a fraction. -/
theorem shiftRightOne_fractionMantissa (numerator : ℕ) {denominator : ℕ} (h : 0 < denominator) :
    (fractionMantissa numerator denominator).shiftRightOne =
      fractionMantissa numerator (denominator * 2) := by
  have hrest : numerator % denominator < denominator := Nat.mod_lt _ h
  have hparity := Nat.mod_two_eq_zero_or_one (numerator / denominator)
  have hwhole : numerator / (denominator * 2) = numerator / denominator / 2 :=
    (Nat.div_div_eq_div_mul _ _ _).symm
  rw [fractionMantissa, fractionMantissa, ofMantissaAndAccuracy_accuracyOfFraction h,
    ofMantissaAndAccuracy_accuracyOfFraction (by omega), Nat.mod_mul, hwhole,
    ExtendedMantissa.shiftRightOne]
  rw [ExtendedMantissa.mk.injEq]
  refine ⟨rfl, ?_, ?_⟩ <;> rcases hparity with hparity | hparity <;> rw [hparity, Bool.eq_iff_iff]
  · simp
    omega
  · simp
    omega
  · simp
    omega
  · simp
    omega

/-- Shifts divide a fraction by a power of two. -/
theorem shiftRight_fractionMantissa (numerator : ℕ) {denominator : ℕ} (h : 0 < denominator)
    (shift : ℕ) :
    fractionMantissa numerator denominator >>> shift =
      fractionMantissa numerator (denominator * 2 ^ shift) := by
  change shift.repeat ExtendedMantissa.shiftRightOne _ = _
  induction shift with
  | zero => rw [Nat.repeat, Nat.pow_zero, Nat.mul_one]
  | succ shift ih =>
    rw [Nat.repeat, ih, shiftRightOne_fractionMantissa _ (by positivity), Nat.mul_assoc,
      ← Nat.pow_succ]

/-- A fraction has a natural number as its nearest one, the even one of two. -/
structure Nearest (numerator denominator n : ℕ) : Prop where
  /-- The fraction is at most a half below. -/
  below : 2 * n * denominator ≤ 2 * numerator + denominator
  /-- The fraction is at most a half above. -/
  above : 2 * numerator ≤ (2 * n + 1) * denominator
  /-- An odd number is nearer than a half. -/
  odd : n % 2 = 1 → 2 * n * denominator < 2 * numerator + denominator ∧
    2 * numerator < (2 * n + 1) * denominator

/-- Rounding the mantissa of a fraction results in the nearest number. -/
theorem Nearest.roundedMantissa {numerator denominator n : ℕ} (hd : 0 < denominator)
    (h : Nearest numerator denominator n) :
    (fractionMantissa numerator denominator).roundedMantissa = n := by
  obtain ⟨hbelow, habove, hodd⟩ := h
  have hrest : numerator % denominator < denominator := Nat.mod_lt _ hd
  have hdivide := Nat.div_add_mod numerator denominator
  rw [fractionMantissa, ofMantissaAndAccuracy_accuracyOfFraction hd]
  generalize numerator / denominator = whole at hdivide ⊢
  generalize numerator % denominator = rest at hrest hdivide ⊢
  subst hdivide
  have hupper : denominator * whole < denominator * (n + 1) := by linarith
  have hlower : denominator * n < denominator * (whole + 2) := by linarith
  have hle : whole < n + 1 := Nat.lt_of_mul_lt_mul_left hupper
  have hge : n < whole + 2 := Nat.lt_of_mul_lt_mul_left hlower
  rw [ExtendedMantissa.roundedMantissa]
  rcases Nat.lt_or_eq_of_le (Nat.le_of_lt_succ hle) with hlt | rfl
  · have hn : n = whole + 1 := by omega
    subst hn
    have hhalf : denominator ≤ 2 * rest := by linarith
    by_cases htie : 2 * rest = denominator
    · have heven : (whole + 1) % 2 ≠ 1 := fun hparity => by linarith [(hodd hparity).1]
      simp [ExtendedMantissa.accuracy, htie, Accuracy.roundToNearestEven]
      omega
    · have hne : rest ≠ 0 := by omega
      simp [ExtendedMantissa.accuracy, hhalf, hne, htie, Accuracy.roundToNearestEven]
  · have hhalf : 2 * rest ≤ denominator := by linarith
    by_cases htie : 2 * rest = denominator
    · have heven : whole % 2 ≠ 1 := fun hparity => by linarith [(hodd hparity).2]
      simp [ExtendedMantissa.accuracy, htie, Accuracy.roundToNearestEven]
      omega
    · have hless : ¬ denominator ≤ 2 * rest := by omega
      by_cases hzero : rest = 0
      · simp [ExtendedMantissa.accuracy, hzero, hd.ne', Accuracy.roundToNearestEven]
      · simp [ExtendedMantissa.accuracy, hless, hzero, htie, Accuracy.roundToNearestEven]

/-! ## Floating-point numbers -/

/-- The mantissa and exponent of a finite floating-point number other than zero. The mantissa has
all its 53 bits unless the exponent is the least one. -/
structure Canonical (mantissa : ℕ) (exponent : ℤ) : Prop where
  /-- The number is not zero. -/
  pos : 0 < mantissa
  /-- The mantissa fits. -/
  fits : mantissa < 2 ^ 53
  /-- The mantissa is not shorter than it has to be. -/
  full : 2 ^ 52 ≤ mantissa ∨ exponent = -1074
  /-- The exponent is not too small. -/
  least : -1074 ≤ exponent
  /-- The exponent is not too great. -/
  greatest : exponent ≤ 971

/-- The target exponent leaves 53 bits of mantissa, unless it would be too low. -/
theorem targetExponent_eq (total : ℤ) :
    Format.binary64.targetExponent total = max (total - 53) (-1074) := by
  rfl

/-- A canonical mantissa has its exponent as the target. -/
theorem Canonical.targetExponent {m : ℕ} {e : ℤ} (h : Canonical m e) :
    Format.binary64.targetExponent (totalExponent m e) = e := by
  obtain ⟨hpos, hfits, hfull, hleast, -⟩ := h
  have hlog : m.log2 < 53 := (Nat.log2_lt hpos.ne').2 hfits
  rw [targetExponent_eq, totalExponent]
  rcases hfull with hfull | rfl
  · have hlog' : 52 ≤ m.log2 := (Nat.le_log2 hpos.ne').2 hfull
    omega
  · omega

/-- A fraction that is shifted to its exponent stays the same fraction. -/
theorem shiftToTargetExponent_fraction (numerator : ℕ) {denominator : ℕ} (hd : 0 < denominator)
    {t : ℤ} {shift : ℕ} (h : Format.binary64.targetExponent
      (totalExponent (numerator / denominator) t) = t + shift) :
    shiftToTargetExponent .binary64 (numerator / denominator) t
        (accuracyOfFraction (numerator % denominator) denominator) =
      (fractionMantissa numerator (denominator * 2 ^ shift), t + shift) := by
  have hshift : (t + shift - t).toNat = shift := by omega
  rw [shiftToTargetExponent, h, shiftToExponent, hshift, ← shiftRight_fractionMantissa numerator hd]
  rfl

/-- An exact mantissa is shifted as a fraction over a power of two. -/
theorem shiftToTargetExponent_exact {m : ℕ} {t : ℤ} {shift : ℕ}
    (h : Format.binary64.targetExponent (totalExponent m t) = t + shift) :
    shiftToTargetExponent .binary64 m t .exact =
      (fractionMantissa m (2 ^ shift), t + shift) := by
  have hfraction := shiftToTargetExponent_fraction m one_pos (by rwa [Nat.div_one])
  rw [Nat.div_one, Nat.mod_one, Nat.one_mul] at hfraction
  exact hfraction

/-- A fraction that rounds to a mantissa of 53 bits. The numbers below the least such mantissa are
half as far apart as those above it. -/
structure Rounds (numerator denominator m : ℕ) : Prop extends Nearest numerator denominator m where
  /-- The fraction is at most a quarter below the least mantissa. -/
  quarter : m = 2 ^ 52 → 4 * m * denominator ≤ 4 * numerator + denominator

/-- Rounding a fraction to its nearest number, which may take one bit more than fits. -/
theorem roundWithAccuracy_of_nearest (rounded shift carry : ℕ) {numerator denominator m : ℕ}
    {t e : ℤ} (hd : 0 < denominator) (s : Sign) (hm : 0 < m)
    (htarget : Format.binary64.targetExponent (totalExponent (numerator / denominator) t) =
      t + shift)
    (hn : Nearest numerator (denominator * 2 ^ shift) rounded)
    (hcarry : Format.binary64.targetExponent (totalExponent rounded (t + shift)) =
      t + shift + carry)
    (hmantissa : rounded / 2 ^ carry = m) (he : t + shift + carry = e) :
    roundWithAccuracy .binary64 s (numerator / denominator) t
      (accuracyOfFraction (numerator % denominator) denominator) = .finite s m e hm := by
  subst hmantissa he
  have hround := hn.roundedMantissa (by positivity)
  have hmantissa : (fractionMantissa rounded (2 ^ carry)).mantissa = rounded / 2 ^ carry := by
    rw [fractionMantissa, ofMantissaAndAccuracy_accuracyOfFraction (by positivity)]
  simp only [roundWithAccuracy, shiftToTargetExponent_fraction numerator hd htarget, hround,
    shiftToTargetExponent_exact hcarry, hmantissa]
  rw [dif_neg hm.ne']

/-- A quotient has no more bits than its bound allows. -/
theorem log2_div_le {numerator denominator shift bits : ℕ}
    (h : numerator < 2 ^ (bits + 1) * (denominator * 2 ^ shift)) :
    (numerator / denominator).log2 ≤ bits + shift := by
  have hlt : numerator / denominator < 2 ^ (bits + shift + 1) := by
    refine Nat.div_lt_of_lt_mul ?_
    calc numerator < 2 ^ (bits + 1) * (denominator * 2 ^ shift) := h
      _ = denominator * 2 ^ (bits + shift + 1) := by ring
  by_cases hzero : numerator / denominator = 0
  · rw [hzero, Nat.log2_zero]
    omega
  · exact Nat.le_of_lt_succ ((Nat.log2_lt hzero).2 hlt)

/-- A quotient has as many bits as its bound asks for. -/
theorem le_log2_div {numerator denominator shift bits : ℕ} (hd : 0 < denominator)
    (h : 2 ^ bits * (denominator * 2 ^ shift) ≤ numerator) :
    bits + shift ≤ (numerator / denominator).log2 := by
  have hle : 2 ^ (bits + shift) ≤ numerator / denominator := by
    rw [Nat.le_div_iff_mul_le hd]
    calc 2 ^ (bits + shift) * denominator = 2 ^ bits * (denominator * 2 ^ shift) := by ring
      _ ≤ numerator := h
  have hne : numerator / denominator ≠ 0 := by
    have hpos : 0 < 2 ^ (bits + shift) := by positivity
    omega
  exact (Nat.le_log2 hne).2 hle

/-- A fraction that rounds to the mantissa of a floating-point number is rounded to it. -/
theorem Rounds.roundWithAccuracy {numerator denominator m : ℕ} {t e : ℤ} {shift : ℕ}
    (hc : Canonical m e) (hd : 0 < denominator) (s : Sign) (he : t + shift = e)
    (hle : t ≤ Format.binary64.targetExponent (totalExponent (numerator / denominator) t))
    (h : Rounds numerator (denominator * 2 ^ shift) m) :
    roundWithAccuracy .binary64 s (numerator / denominator) t
      (accuracyOfFraction (numerator % denominator) denominator) = .finite s m e hc.pos := by
  have hcanonical := hc.targetExponent
  obtain ⟨hpos, hfits, hfull, hleast, -⟩ := hc
  obtain ⟨hnearest, hquarter⟩ := h
  have hbelow := hnearest.below
  have habove := hnearest.above
  have hscale : 0 < denominator * 2 ^ shift := by positivity
  rw [targetExponent_eq, totalExponent] at hle
  by_cases hcarry : m = 2 ^ 52 ∧ numerator < 2 ^ 52 * (denominator * 2 ^ shift) ∧ -1074 < e
  · -- Below the least mantissa of 53 bits one bit less is shifted out, and rounding carries.
    obtain ⟨rfl, hless, hexponent⟩ := hcarry
    have hquarter := hquarter rfl
    have hhigh : (numerator / denominator).log2 ≤ 51 + shift := log2_div_le hless
    have hlow : 51 + shift ≤ (numerator / denominator).log2 := le_log2_div hd (by linarith)
    obtain ⟨shift, rfl⟩ : ∃ less, shift = less + 1 := ⟨shift - 1, by omega⟩
    refine roundWithAccuracy_of_nearest (2 ^ 53) shift 1 hd s hpos ?_ ?_ ?_ (by norm_num)
      (by push_cast at he; omega)
    · rw [targetExponent_eq, totalExponent]
      push_cast at he
      omega
    · rw [pow_succ 2 shift] at hless hquarter
      refine ⟨by linarith, by linarith, fun hodd => absurd hodd (by norm_num)⟩
    · rw [targetExponent_eq, totalExponent, Nat.log2_two_pow]
      push_cast at he
      omega
  · -- Otherwise exactly the bits below the exponent are shifted out.
    have hhigh : (numerator / denominator).log2 ≤ 52 + shift := by
      refine log2_div_le ?_
      have hdouble : 2 * numerator < 2 * (2 ^ 53 * (denominator * 2 ^ shift)) :=
        calc 2 * numerator ≤ (2 * m + 1) * (denominator * 2 ^ shift) := habove
          _ < 2 ^ 54 * (denominator * 2 ^ shift) := by gcongr; omega
          _ = 2 * (2 ^ 53 * (denominator * 2 ^ shift)) := by ring
      exact Nat.lt_of_mul_lt_mul_left hdouble
    have htarget : Format.binary64.targetExponent (totalExponent (numerator / denominator) t) =
        t + shift := by
      rw [targetExponent_eq, totalExponent]
      rcases hfull with hfull | rfl
      · by_cases hfloor : 2 ^ 52 * (denominator * 2 ^ shift) ≤ numerator
        · have hlow : 52 + shift ≤ (numerator / denominator).log2 := le_log2_div hd hfloor
          omega
        · have hm : m = 2 ^ 52 := by
            by_contra hne
            have hnext : (2 ^ 52 + 1) * (denominator * 2 ^ shift) ≤ m * (denominator * 2 ^ shift) :=
              Nat.mul_le_mul_right _ (by omega)
            linarith
          have hexponent : ¬ -1074 < e := fun hlt => hcarry ⟨hm, by omega, hlt⟩
          omega
      · omega
    refine roundWithAccuracy_of_nearest m shift 0 hd s hpos htarget hnearest ?_ (by norm_num)
      (by simpa using he)
    rw [he, hcanonical]
    simp

end DiceNotation.Decimal
