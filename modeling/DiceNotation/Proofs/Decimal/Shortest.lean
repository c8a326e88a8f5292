import DiceNotation.Decimal.Shortest
import DiceNotation.Proofs.Decimal.Operations

/-!
# The fewest digits lie in the rounding cell

The point of a decimal grid that is taken for a floating-point number lies in its rounding cell. A
grid that is fine enough for 17 digits always has such a point, since its step is less than the
width of the cell, so digits are always found.
-/

namespace DiceNotation.Decimal

/-- A power with an integer exponent is a fraction of powers with natural exponents. -/
theorem zpow_eq_div {base : ℚ} (h : base ≠ 0) (exponent : ℤ) :
    base ^ exponent = base ^ exponent.toNat / base ^ (-exponent).toNat := by
  rw [← zpow_natCast, ← zpow_natCast, ← zpow_sub₀ h]
  congr 1
  omega

/-! ## Grids -/

namespace RoundingCell

/-- A point of the grid with step `10 ^ unit` lies in the cell. -/
def Holds (cell : RoundingCell) (unit : ℤ) (point : ℕ) : Prop :=
  if cell.closed then
    cell.low * 10 ^ (-unit).toNat ≤ point * (cell.denominator * 10 ^ unit.toNat) ∧
      point * (cell.denominator * 10 ^ unit.toNat) ≤ cell.high * 10 ^ (-unit).toNat
  else
    cell.low * 10 ^ (-unit).toNat < point * (cell.denominator * 10 ^ unit.toNat) ∧
      point * (cell.denominator * 10 ^ unit.toNat) < cell.high * 10 ^ (-unit).toNat

/-- The point that is taken from a grid lies in the cell, and none is taken only if neither of the
two points around the value does. -/
theorem onGrid_cases (cell : RoundingCell) (unit : ℤ) :
    (∃ point, cell.onGrid unit = some point ∧ cell.Holds unit point) ∨
      (cell.onGrid unit = none ∧
        ¬ cell.Holds unit
          (cell.value * 10 ^ (-unit).toNat / (cell.denominator * 10 ^ unit.toNat)) ∧
        ¬ cell.Holds unit
          (cell.value * 10 ^ (-unit).toNat / (cell.denominator * 10 ^ unit.toNat) + 1)) := by
  unfold onGrid
  extract_lets finer step below inside
  have hinside : ∀ point, inside point = true ↔ cell.Holds unit point := by
    intro point
    simp only [inside, Holds]
    cases cell.closed <;> simp [finer, step]
  have hbelow := hinside below
  have habove := hinside (below + 1)
  cases hlow : inside below <;> cases hhigh : inside (below + 1) <;>
    rw [hlow] at hbelow <;> rw [hhigh] at habove
  · refine .inr ⟨rfl, fun h => ?_, fun h => ?_⟩
    · exact Bool.false_ne_true (hbelow.2 h)
    · exact Bool.false_ne_true (habove.2 h)
  · exact .inl ⟨below + 1, rfl, habove.1 rfl⟩
  · exact .inl ⟨below, rfl, hbelow.1 rfl⟩
  · refine .inl ⟨_, rfl, ?_⟩
    split
    · exact habove.1 rfl
    · exact hbelow.1 rfl

end RoundingCell

theorem scaled_le_iff (n point : ℕ) (exponent unit : ℤ) :
    n * 2 ^ exponent.toNat * 10 ^ (-unit).toNat ≤
        point * (2 ^ (-exponent).toNat * 10 ^ unit.toNat) ↔
      (n * 2 ^ exponent : ℚ) ≤ point * 10 ^ unit := by
  rw [zpow_eq_div two_ne_zero, zpow_eq_div (by norm_num : (10 : ℚ) ≠ 0), ← mul_div_assoc,
    ← mul_div_assoc, div_le_div_iff₀ (by positivity) (by positivity), mul_assoc (point : ℚ),
    mul_comm ((10 : ℚ) ^ unit.toNat)]
  exact_mod_cast Iff.rfl

theorem le_scaled_iff (n point : ℕ) (exponent unit : ℤ) :
    point * (2 ^ (-exponent).toNat * 10 ^ unit.toNat) ≤
        n * 2 ^ exponent.toNat * 10 ^ (-unit).toNat ↔
      (point * 10 ^ unit : ℚ) ≤ n * 2 ^ exponent := by
  rw [zpow_eq_div two_ne_zero, zpow_eq_div (by norm_num : (10 : ℚ) ≠ 0), ← mul_div_assoc,
    ← mul_div_assoc, div_le_div_iff₀ (by positivity) (by positivity), mul_assoc (point : ℚ),
    mul_comm ((10 : ℚ) ^ unit.toNat)]
  exact_mod_cast Iff.rfl

/-- How far the lower end of a cell is away, in quarters of the distance of mantissas. -/
def quartersBelow (m : ℕ) : ℕ := if m = 2 ^ 52 then 1 else 2

/-- The ends of a cell are multiples of a quarter of the distance of mantissas. -/
theorem ofBinary_eq (m : ℕ) (e : ℤ) :
    RoundingCell.ofBinary m e =
      { low := (4 * m - quartersBelow m) * 2 ^ (e - 2).toNat
        value := 4 * m * 2 ^ (e - 2).toNat
        high := (4 * m + 2) * 2 ^ (e - 2).toNat
        denominator := 2 ^ (2 - e).toNat
        closed := m % 2 == 0 } := by
  rfl

/-- A point of a grid lies in the cell of a floating-point number if it is between the ends. -/
theorem holds_ofBinary_iff (m : ℕ) (e unit : ℤ) (point : ℕ) :
    (RoundingCell.ofBinary m e).Holds unit point ↔
      if m % 2 = 0 then
        ((4 * m - quartersBelow m : ℕ) * 2 ^ (e - 2) : ℚ) ≤ point * 10 ^ unit ∧
          (point * 10 ^ unit : ℚ) ≤ (4 * m + 2 : ℕ) * 2 ^ (e - 2)
      else
        ((4 * m - quartersBelow m : ℕ) * 2 ^ (e - 2) : ℚ) < point * 10 ^ unit ∧
          (point * 10 ^ unit : ℚ) < (4 * m + 2 : ℕ) * 2 ^ (e - 2) := by
  rw [← scaled_le_iff, ← le_scaled_iff, ← not_le, ← not_le, ← scaled_le_iff, ← le_scaled_iff,
    not_le, not_le, neg_sub, RoundingCell.Holds, ofBinary_eq]
  simp only [beq_iff_eq]

/-- A point of a grid in the cell of a floating-point number rounds to it. -/
theorem inCell_of_holds {m : ℕ} {e unit : ℤ} {point : ℕ} (hm : 0 < m)
    (h : (RoundingCell.ofBinary m e).Holds unit point) :
    InCell m e (point * (10 : ℚ) ^ unit) := by
  have hlow : ((4 * m - quartersBelow m : ℕ) : ℚ) = 4 * m - (if m = 2 ^ 52 then 1 else 2) := by
    rw [quartersBelow]
    split <;> rw [Nat.cast_sub (by omega)] <;> norm_num
  have hhigh : ((4 * m + 2 : ℕ) : ℚ) = 4 * m + 2 := by norm_num
  rw [holds_ofBinary_iff, hlow, hhigh] at h
  split at h
  · next heven => exact ⟨h.1, h.2, fun hodd => by omega⟩
  · next hodd =>
    have hne : m ≠ 2 ^ 52 := by rintro rfl; exact hodd (by norm_num)
    refine ⟨h.1.le, h.2.le, fun _ => ?_⟩
    rw [if_neg hne] at h
    exact h

theorem holds_of_between {m : ℕ} {e unit : ℤ} {point : ℕ}
    (hlow : ((4 * m - quartersBelow m : ℕ) * 2 ^ (e - 2) : ℚ) < point * 10 ^ unit)
    (hhigh : (point * 10 ^ unit : ℚ) < (4 * m + 2 : ℕ) * 2 ^ (e - 2)) :
    (RoundingCell.ofBinary m e).Holds unit point := by
  rw [holds_ofBinary_iff]
  split
  · exact ⟨hlow.le, hhigh.le⟩
  · exact ⟨hlow, hhigh⟩

/-- The value of a floating-point number lies between two neighbours on a grid. If no point of the
grid is taken, neither of the two is in the cell. -/
theorem exists_neighbours (m : ℕ) (e unit : ℤ) :
    ∃ below : ℕ, (below * 10 ^ unit : ℚ) ≤ (4 * m : ℕ) * 2 ^ (e - 2) ∧
      ((4 * m : ℕ) * 2 ^ (e - 2) : ℚ) < (below + 1 : ℕ) * 10 ^ unit ∧
      ((RoundingCell.ofBinary m e).onGrid unit = none →
        ¬ (RoundingCell.ofBinary m e).Holds unit below ∧
          ¬ (RoundingCell.ofBinary m e).Holds unit (below + 1)) := by
  have hstep : 0 < 2 ^ (-(e - 2)).toNat * 10 ^ unit.toNat := by positivity
  have hfloor := Nat.div_mul_le_self (4 * m * 2 ^ (e - 2).toNat * 10 ^ (-unit).toNat)
    (2 ^ (-(e - 2)).toNat * 10 ^ unit.toNat)
  have hceil := (Nat.lt_mul_div_succ (4 * m * 2 ^ (e - 2).toNat * 10 ^ (-unit).toNat) hstep).not_ge
  rw [mul_comm] at hceil
  rw [le_scaled_iff] at hfloor hceil
  refine ⟨_, hfloor, not_le.1 hceil, fun hnone => ?_⟩
  rcases RoundingCell.onGrid_cases (.ofBinary m e) unit with ⟨point, hpoint, -⟩ | ⟨-, hmissing⟩
  · rw [hnone] at hpoint
    cases hpoint
  · rw [neg_sub]
    exact hmissing

/-- If no point of a grid is taken, a step of the grid is at least as wide as the cell. -/
theorem width_le_of_onGrid_eq_none {m : ℕ} {e unit : ℤ} (hm : 0 < m)
    (h : (RoundingCell.ofBinary m e).onGrid unit = none) :
    ((2 + quartersBelow m : ℕ) * 2 ^ (e - 2) : ℚ) ≤ 10 ^ unit := by
  obtain ⟨below, hfloor, hceil, hmissing⟩ := exists_neighbours m e unit
  obtain ⟨hlow, hhigh⟩ := hmissing h
  have hquarters : 0 < quartersBelow m ∧ quartersBelow m ≤ 4 * m := by
    rw [quartersBelow]
    split <;> omega
  -- The lower point is not above the value, so it lies below the cell.
  have hbelow : (below * 10 ^ unit : ℚ) ≤ (4 * m - quartersBelow m : ℕ) * 2 ^ (e - 2) := by
    by_contra hgreater
    refine hlow (holds_of_between (not_le.1 hgreater) (hfloor.trans_lt ?_))
    gcongr
    omega
  -- The upper point is above the value, so it lies above the cell.
  have habove : ((4 * m + 2 : ℕ) * 2 ^ (e - 2) : ℚ) ≤ (below + 1 : ℕ) * 10 ^ unit := by
    by_contra hless
    refine hhigh (holds_of_between (lt_of_le_of_lt ?_ hceil) (not_le.1 hless))
    gcongr
    omega
  rw [Nat.cast_sub hquarters.2] at hbelow
  push_cast at hbelow habove ⊢
  linarith

/-- The cell of a floating-point number is wide enough for a grid with 17 digits. -/
theorem lt_width {m : ℕ} (hfits : m < 2 ^ 53) : 4 * m < (2 + quartersBelow m) * 10 ^ 16 := by
  rw [quartersBelow]
  split <;> omega

/-- A grid with at least 17 digits for a floating-point number has a point in its cell. -/
theorem exists_onGrid {m : ℕ} {e unit : ℤ} (hm : 0 < m) (hfits : m < 2 ^ 53)
    (hunit : (10 : ℚ) ^ (unit + 16) ≤ m * 2 ^ e) :
    ∃ point, (RoundingCell.ofBinary m e).onGrid unit = some point := by
  refine Option.ne_none_iff_exists'.1 fun hnone => ?_
  have hwide := width_le_of_onGrid_eq_none hm hnone
  have hcell : (0 : ℚ) < 2 ^ (e - 2) := by positivity
  have hvalue : (m * 2 ^ e : ℚ) = (4 * m : ℕ) * 2 ^ (e - 2) := by
    rw [zpow_sub₀ two_ne_zero]
    push_cast
    ring
  have hscaled : ((2 + quartersBelow m : ℕ) * 2 ^ (e - 2) * 10 ^ 16 : ℚ) ≤
      (4 * m : ℕ) * 2 ^ (e - 2) := by
    rw [← hvalue]
    refine le_trans ?_ hunit
    rw [zpow_add₀ (by norm_num)]
    gcongr
    norm_num
  have hnarrow : ((4 * m : ℕ) * 2 ^ (e - 2) : ℚ) <
      ((2 + quartersBelow m) * 10 ^ 16 : ℕ) * 2 ^ (e - 2) :=
    mul_lt_mul_of_pos_right (by exact_mod_cast lt_width hfits) hcell
  push_cast at hscaled hnarrow
  linarith

/-! ## The leading digit -/

theorem le_liftToOne {denominator : ℕ} (fuel : ℕ) {numerator : ℕ}
    (h : denominator ≤ numerator * 10 ^ fuel) :
    denominator ≤ numerator * 10 ^ liftToOne denominator fuel numerator := by
  induction fuel generalizing numerator with
  | zero => exact h
  | succ fuel ih =>
    rw [liftToOne]
    split
    · next hle => rwa [pow_zero, mul_one]
    · have hnext : denominator ≤ numerator * 10 * 10 ^ fuel := by rwa [mul_assoc, ← pow_succ']
      have hlifted := ih hnext
      rwa [mul_assoc, ← pow_succ'] at hlifted

theorem pow_length_toDigits_le {n : ℕ} (h : 0 < n) :
    10 ^ ((Nat.toDigits 10 n).length - 1) ≤ n := by
  by_contra hless
  rw [not_le] at hless
  by_cases hone : (Nat.toDigits 10 n).length - 1 = 0
  · rw [hone, pow_zero] at hless
    omega
  · have hle := (Nat.length_toDigits_le_iff (by decide) (Nat.pos_of_ne_zero hone)).2 hless
    omega

/-- A positive fraction is at least the power of ten that its leading digit stands for. -/
theorem zpow_leadingExponent_le {numerator denominator : ℕ} (hn : 0 < numerator)
    (hd : 0 < denominator) :
    (10 : ℚ) ^ leadingExponent numerator denominator ≤ numerator / denominator := by
  have hd' : (0 : ℚ) < denominator := by exact_mod_cast hd
  rw [leadingExponent]
  split
  · next hle =>
    have hlength : ((Nat.toDigits 10 (numerator / denominator)).length : ℤ) - 1 =
        ((Nat.toDigits 10 (numerator / denominator)).length - 1 : ℕ) := by
      have hpos := Nat.length_toDigits_pos (b := 10) (n := numerator / denominator)
      omega
    rw [hlength, zpow_natCast]
    calc ((10 : ℚ) ^ ((Nat.toDigits 10 (numerator / denominator)).length - 1))
        ≤ (numerator / denominator : ℕ) := by
          exact_mod_cast pow_length_toDigits_le (Nat.div_pos hle hd)
      _ ≤ numerator / denominator := Nat.cast_div_le
  · have hfuel : denominator ≤ numerator * 10 ^ (denominator.log2 + 1) :=
      calc denominator ≤ 2 ^ (denominator.log2 + 1) := Nat.lt_log2_self.le
        _ ≤ 10 ^ (denominator.log2 + 1) := Nat.pow_le_pow_left (by norm_num) _
        _ ≤ numerator * 10 ^ (denominator.log2 + 1) := Nat.le_mul_of_pos_left _ hn
    rw [zpow_neg, zpow_natCast, inv_eq_one_div, div_le_div_iff₀ (by positivity) hd', one_mul]
    exact_mod_cast le_liftToOne _ hfuel

theorem value_ofBinary (m : ℕ) (e : ℤ) :
    ((RoundingCell.ofBinary m e).value / (RoundingCell.ofBinary m e).denominator : ℚ) =
      m * 2 ^ e := by
  have hscale : (2 : ℚ) ^ e = 4 * 2 ^ (e - 2) := by
    rw [zpow_sub₀ two_ne_zero]
    ring
  rw [hscale, zpow_eq_div two_ne_zero, neg_sub, ofBinary_eq]
  push_cast
  ring

/-- The fewest digits of a floating-point number lie in its cell. -/
theorem shortest_inCell {m : ℕ} (e : ℤ) (hm : 0 < m) (hfits : m < 2 ^ 53) :
    InCell m e ((shortest m e).digits * (10 : ℚ) ^ (shortest m e).exponent) := by
  have hvalue : 0 < (RoundingCell.ofBinary m e).value := by
    rw [ofBinary_eq]
    positivity
  have hdenominator : 0 < (RoundingCell.ofBinary m e).denominator := by
    rw [ofBinary_eq]
    positivity
  have hleading := zpow_leadingExponent_le hvalue hdenominator
  rw [value_ofBinary] at hleading
  unfold shortest
  extract_lets cell leading hit
  cases hhit : hit with
  | some scaled =>
    obtain ⟨further, -, hgrid⟩ := List.exists_of_findSome?_eq_some hhit
    obtain ⟨point, hpoint, rfl⟩ := Option.map_eq_some_iff.1 hgrid
    rcases RoundingCell.onGrid_cases cell (leading - further) with ⟨point', hpoint', hholds⟩ | h
    · rw [hpoint] at hpoint'
      cases hpoint'
      exact inCell_of_holds hm hholds
    · rw [h.1] at hpoint
      cases hpoint
  | none =>
    have hfine : (10 : ℚ) ^ (leading - 16 + 16) ≤ m * 2 ^ e := by rwa [sub_add_cancel]
    obtain ⟨point, hpoint⟩ := exists_onGrid hm hfits hfine
    have hmissing := List.findSome?_eq_none_iff.1 hhit 16 (by simp)
    rw [Option.map_eq_none_iff] at hmissing
    exact absurd (hmissing.symm.trans hpoint) nofun

end DiceNotation.Decimal
