import DiceNotation.Proofs.Thresholds
import DiceNotation.Proofs.Totals

/-!
# Which values are kept

Which values a set of dice keeps follows from the values that it was shown alone: all of them, the
highest or the lowest of them, or the highest of the first ones and all that were shown for a
reroll. The total and the hits of every check depend on these values only, in any order.
-/

namespace DiceNotation

open Rolling

/-- The values that a modifier keeps of those that were shown, the first `count` of which are
original ones. -/
def Modifier.keeps (count : Nat) (values : List UInt32) : Modifier → List UInt32
  | explode _ _ => values
  | keepHighest best => (descending values).take best.toNat
  | keepLowest best => (ascending values).take best.toNat
  | rerollLowest again =>
    (descending (values.take count)).take (count - again.toNat) ++ values.drop count

/-- Rerolling keeps the highest of the original values and all fresh ones. -/
theorem Modifier.keeps_rerollLowest {count : Nat} {again : UInt32} {originals fresh : List UInt32}
    (h : originals.length = count) :
    (rerollLowest again).keeps count (originals ++ fresh) =
      (descending originals).take (count - again.toNat) ++ fresh := by
  rw [keeps, List.take_left' h, List.drop_left' h]

/-- The values that dice keep of those that were shown. -/
def Dice.keeps (dice : Dice) (values : List UInt32) : List UInt32 :=
  match dice.modifier with
  | some modifier => modifier.keeps dice.count.toNat values
  | none => values

/-! ## Keeping the first of a ranking -/

section Ranking

variable {modifier : Modifier} {count : Nat} {rolls marked : List Die}
  (hall : ∀ die ∈ rolls, die.isKept = true)

include hall

/-- In the order of the highest dice, the first values in descending order stay kept. -/
theorem kept_higherFirst (h : keepFirst Die.higherFirst modifier count rolls = .ok marked) :
    ((marked.filter Die.isKept).map Die.value).Perm
      ((descending (rolls.map Die.value)).take count) := by
  obtain ⟨sorted, hperm, hsorted, hkept⟩ := ranks_higherFirst.exists_sorted h hall
  rwa [← eq_descending hperm (hsorted.imp fun {x y} h =>
    h.elim UInt32.le_of_lt fun hsame => UInt32.le_of_eq hsame.symm)]

/-- In the order of the lowest dice, the first values in ascending order stay kept. -/
theorem kept_lowerFirst (h : keepFirst Die.lowerFirst modifier count rolls = .ok marked) :
    ((marked.filter Die.isKept).map Die.value).Perm
      ((ascending (rolls.map Die.value)).take count) := by
  obtain ⟨sorted, hperm, hsorted, hkept⟩ := ranks_lowerFirst.exists_sorted h hall
  rwa [← eq_ascending hperm (hsorted.imp fun {x y} h => h.elim UInt32.le_of_lt UInt32.le_of_eq)]

end Ranking

/-! ## Rolling -/

/-- The values of dice that are all kept are kept. -/
theorem Rolled.keptValues_eq {rolled : Rolled} (h : ∀ die ∈ rolled.rolls, die.isKept = true) :
    rolled.keptValues = rolled.values := by
  rw [keptValues, List.filter_eq_self.2 h, values]

/-- Applied to original dice, a modifier keeps what it does of their values and the added ones. -/
theorem Modifier.Applies.kept {modifier : Modifier} {dice : Dice} {originals values : List UInt32}
    {left : List Die} (h : modifier.Applies ⟨dice, originals.map Die.original⟩ left values)
    (hcount : originals.length = dice.count.toNat) :
    (Rolled.mk dice (left ++ values.map (Die.added modifier))).keptValues.Perm
      (modifier.keeps dice.count.toNat (originals ++ values)) := by
  have hall := isKept_original originals
  cases h with
  | @explode threshold cap _ _ _ _ =>
    have hkept := List.forall_mem_append.2 ⟨hall, isKept_added (.explode threshold cap) values⟩
    rw [Rolled.keptValues_eq hkept, Rolled.values, List.map_append, map_value_original,
      map_value_added]
    exact .refl _
  | keepHighest hkeep =>
    have hkept := kept_higherFirst hall hkeep
    rw [map_value_original] at hkept
    rwa [List.map_nil, List.append_nil, List.append_nil]
  | keepLowest hkeep =>
    have hkept := kept_lowerFirst hall hkeep
    rw [map_value_original] at hkept
    rwa [List.map_nil, List.append_nil, List.append_nil]
  | rerollLowest hfew hkeep hvalues =>
    have hkept := kept_higherFirst hall hkeep
    rw [map_value_original] at hkept
    rw [keeps_rerollLowest hcount, Rolled.keptValues, List.filter_append, List.map_append,
      List.filter_eq_self.2 (isKept_added _ values), map_value_added]
    exact hkept.append_right values

/-- Whatever dice show, the values that they keep are determined by those that were shown. -/
theorem Dice.kept_of_ends {dice : Dice} {shown : List ShownDie} {rolled : Rolled}
    (h : dice.roll.Ends shown rolled) :
    rolled.keptValues.Perm (dice.keeps (shown.map ShownDie.value)) := by
  obtain ⟨-, originals, added, rolls, hcount, rfl, hrolls, rfl⟩ := Dice.rolls_of_ends h
  rw [map_value_shown, keeps]
  cases hrolls with
  | plain hmodifier =>
    rw [hmodifier, Rolled.keptValues_eq (isKept_original originals), Rolled.values,
      map_value_original, List.append_nil]
  | modified hmodifier happlies =>
    rw [hmodifier]
    exact happlies.kept hcount

end DiceNotation
