import DiceNotation.Proofs.Applications

/-!
# The size of rolled sets

A set of dice that can be rolled never ends up with fewer dice than it was asked for, nor with more
than `maxRolls`: keeping drops no die from the list, exploding stops at the limit, and at most as
many dice are rerolled as were rolled.
-/

namespace DiceNotation

open Rolling

/-- Applying a modifier keeps a set of dice within its bounds. -/
theorem Modifier.Applies.length_le {modifier : Modifier} {rolled : Rolled} {left : List Die}
    {values : List UInt32} (h : modifier.Applies rolled left values)
    (hcount : rolled.rolls.length = rolled.dice.count.toNat) (hmax : rolled.dice.count ≤ maxDice) :
    left.length + values.length ≤ maxRolls := by
  have hdice : rolled.dice.count.toNat ≤ 1000 := UInt32.le_iff_toNat_le.mp hmax
  have hsize : rolled.rolls.length ≤ maxRolls := by
    rw [hcount, maxRolls]
    omega
  rw [← h.persist.length_eq]
  cases h with
  | explode _ hlimit => exact hlimit hsize
  | keepHighest _ => exact hsize
  | keepLowest _ => exact hsize
  | rerollLowest hfew _ hvalues =>
    have hagain := UInt32.le_iff_toNat_le.mp hfew
    rw [hvalues, hcount, maxRolls]
    omega

/-- Dice are rolled in the number asked for, which is not above the limit. -/
theorem Dice.always_length_rollPlain (dice : Dice) :
    dice.rollPlain.Always fun rolled =>
      rolled.dice = dice ∧ dice.count ≤ maxDice ∧ rolled.rolls.length = dice.count.toNat := by
  apply Always.of_forall_ends
  intro shown rolled h
  obtain ⟨hmax, originals, hlength, -, rfl⟩ := Dice.ends_rollPlain_iff.1 h
  exact ⟨rfl, hmax, by rw [List.length_map, hlength]⟩

/-- A set of dice that was rolled has at least the dice asked for and at most `maxRolls`. -/
theorem Dice.always_length_roll (dice : Dice) :
    dice.roll.Always fun rolled =>
      dice.count.toNat ≤ rolled.rolls.length ∧ rolled.rolls.length ≤ maxRolls := by
  apply Always.of_forall_ends
  intro shown rolled h
  obtain ⟨hmax, originals, added, rolls, hlength, -, hrolls, rfl⟩ := Dice.rolls_of_ends h
  have hsize : (originals.map Die.original).length = dice.count.toNat := by
    rw [List.length_map, hlength]
  cases hrolls with
  | plain hmodifier =>
    have hfew : dice.count.toNat ≤ 1000 := UInt32.le_iff_toNat_le.mp hmax
    change _ ≤ (originals.map Die.original).length ∧ (originals.map Die.original).length ≤ _
    rw [hsize, maxRolls]
    omega
  | @modified modifier left _ hmodifier happlies =>
    have hmost := happlies.length_le hsize hmax
    have hleast := happlies.persist.length_eq.symm.trans hsize
    change _ ≤ (left ++ added.map (Die.added modifier)).length ∧
      (left ++ added.map (Die.added modifier)).length ≤ _
    rw [List.length_append, List.length_map]
    omega

end DiceNotation
