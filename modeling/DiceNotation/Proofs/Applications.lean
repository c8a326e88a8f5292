import DiceNotation.Proofs.Endings
import DiceNotation.Proofs.Markings

/-!
# What rolling does

Rolling a set of dice shows its original dice, and then those that its modifier asks for. Whatever
is shown, the original dice stand first, each of them as the modifier leaves it, and the dice that
were added stand behind them. All that a modifier does can be told without the procedure that does
it: which dice it leaves, and how many it adds.
-/

namespace DiceNotation

open Rolling

/-! ## The parts of a modifier -/

/-- Any values can be shown for dice that are added, one for each die. -/
theorem ends_rollAdded_iff {modifier : Modifier} {sides : UInt32} {count : Nat}
    {shown : List ShownDie} {added : List Die} :
    (rollAdded modifier sides count).Ends shown added ↔
      ∃ values : List UInt32, values.length = count ∧ shown = values.map (ShownDie.mk sides) ∧
        added = values.map (Die.added modifier) := by
  simp only [rollAdded, addedDice_eq, ends_askMany_iff]
  constructor
  · rintro ⟨values, rest, hlength, hends, rfl⟩
    obtain ⟨rfl, hadded⟩ := ends_ofExcept_iff.1 hends
    exact ⟨values, hlength, List.append_nil _, (Except.ok.inj hadded).symm⟩
  · rintro ⟨values, hlength, rfl, rfl⟩
    exact ⟨values, [], hlength, .done _, (List.append_nil _).symm⟩

/-- Keeping some dice asks for none. -/
theorem keepFirst_of_ends {order : Die → Die → Bool} {modifier : Modifier} {count : Nat}
    {rolls marked : List Die} {shown : List ShownDie}
    (h : (Rolling.ofExcept ((keepFirst order modifier count rolls).mapError RollFault.mark)).Ends
      shown marked) : shown = [] ∧ keepFirst order modifier count rolls = .ok marked := by
  obtain ⟨hshown, hmarked⟩ := ends_ofExcept_iff.1 h
  exact ⟨hshown, mapError_eq_ok_iff.1 hmarked⟩

/-- Explosions put dice behind the others, one for each value that is shown. One batch never takes a
set beyond the limit, so no number of them does. -/
theorem exists_of_ends_explosions {modifier : Modifier} {sides threshold : UInt32}
    {rounds pending : Nat} {rolls grown : List Die} {shown : List ShownDie}
    (h : (explosions modifier sides threshold rounds pending rolls).Ends shown grown) :
    ∃ values : List UInt32, grown = rolls ++ values.map (Die.added modifier) ∧
      shown = values.map (ShownDie.mk sides) ∧
      (rolls.length ≤ maxRolls → rolls.length + values.length ≤ maxRolls) := by
  induction rounds generalizing pending rolls shown with
  | zero =>
    obtain ⟨rfl, rfl⟩ := ends_pure_iff.1 h
    exact ⟨[], (List.append_nil rolls).symm, rfl, id⟩
  | succ rounds ih =>
    rw [explosions] at h
    split at h
    · obtain ⟨rfl, rfl⟩ := ends_pure_iff.1 h
      exact ⟨[], (List.append_nil rolls).symm, rfl, id⟩
    · obtain ⟨_, first, second, hadded, hgrown, rfl⟩ := ends_bind_iff.1 h
      obtain ⟨values, hlength, rfl, rfl⟩ := ends_rollAdded_iff.1 hadded
      obtain ⟨others, rfl, rfl, hfits⟩ := ih hgrown
      refine ⟨values ++ others, ?_, List.map_append.symm, fun hsize => ?_⟩
      · rw [List.map_append, List.append_assoc]
      · -- A batch is no greater than the room that is left, so the others have the rest of it.
        rw [List.length_append, List.length_map] at hfits
        rw [List.length_append]
        omega

/-! ## Modifiers -/

/-- What a modifier does to rolled dice: the dice that were there, as they are left, and the values
of those that are put behind them. -/
inductive Modifier.Applies : Modifier → Rolled → List Die → List UInt32 → Prop where
  /-- Exploding leaves all dice as they were, and does not add dice beyond the limit. -/
  | explode {threshold cap : UInt32} {rolled : Rolled} {values : List UInt32}
    (hthreshold : 2 ≤ threshold)
    (hlimit : rolled.rolls.length ≤ maxRolls → rolled.rolls.length + values.length ≤ maxRolls) :
    Applies (.explode threshold cap) rolled rolled.rolls values
  /-- Keeping the highest dice adds none. -/
  | keepHighest {best : UInt32} {rolled : Rolled} {left : List Die}
    (h : keepFirst Die.higherFirst (.keepHighest best) best.toNat rolled.rolls = .ok left) :
    Applies (.keepHighest best) rolled left []
  /-- Keeping the lowest dice adds none. -/
  | keepLowest {best : UInt32} {rolled : Rolled} {left : List Die}
    (h : keepFirst Die.lowerFirst (.keepLowest best) best.toNat rolled.rolls = .ok left) :
    Applies (.keepLowest best) rolled left []
  /-- Rerolling adds a die for each that it may drop. -/
  | rerollLowest {again : UInt32} {rolled : Rolled} {left : List Die} {values : List UInt32}
    (hfew : again ≤ rolled.dice.count)
    (h : keepFirst Die.higherFirst (.rerollLowest again) (rolled.dice.count.toNat - again.toNat)
      rolled.rolls = .ok left)
    (hvalues : values.length = again.toNat) : Applies (.rerollLowest again) rolled left values

/-- Every die persists where it stands. -/
theorem Modifier.Applies.persist {modifier : Modifier} {rolled : Rolled} {left : List Die}
    {values : List UInt32} (h : modifier.Applies rolled left values) :
    List.Forall₂ (Die.Persists [modifier]) rolled.rolls left := by
  cases h with
  | explode _ _ => exact forall₂_persists_refl _ rolled.rolls
  | keepHighest h => exact persist_of_keepFirst h
  | keepLowest h => exact persist_of_keepFirst h
  | rerollLowest _ h _ => exact persist_of_keepFirst h

/-- A modifier that was applied after some dice were shown has added these dice. This is all that it
can have done, so what holds of sets after rolling is read off `Modifier.Applies`. -/
theorem Modifier.applies_of_ends {modifier : Modifier} {rolled after : Rolled}
    {shown : List ShownDie} (h : (modifier.apply rolled).Ends shown after) :
    ∃ left values, modifier.Applies rolled left values ∧
      shown = values.map (ShownDie.mk rolled.dice.sides) ∧
      after = { rolled with rolls := left ++ values.map (Die.added modifier) } := by
  cases modifier with
  | explode threshold cap =>
    rw [Modifier.apply] at h
    split at h
    · exact absurd h not_ends_fail
    · rename_i hthreshold
      obtain ⟨_, hrolls, rfl⟩ := ends_bind_pure_iff.1 h
      obtain ⟨values, rfl, rfl, hlimit⟩ := exists_of_ends_explosions hrolls
      exact ⟨rolled.rolls, values, .explode (UInt32.not_lt.1 hthreshold) hlimit, rfl, rfl⟩
  | keepHighest best =>
    obtain ⟨left, hleft, rfl⟩ := ends_bind_pure_iff.1 h
    obtain ⟨rfl, hkeep⟩ := keepFirst_of_ends hleft
    refine ⟨left, [], .keepHighest hkeep, rfl, ?_⟩
    rw [List.map_nil, List.append_nil]
  | keepLowest best =>
    obtain ⟨left, hleft, rfl⟩ := ends_bind_pure_iff.1 h
    obtain ⟨rfl, hkeep⟩ := keepFirst_of_ends hleft
    refine ⟨left, [], .keepLowest hkeep, rfl, ?_⟩
    rw [List.map_nil, List.append_nil]
  | rerollLowest again =>
    rw [Modifier.apply] at h
    split at h
    · exact absurd h not_ends_fail
    · rename_i hfew
      obtain ⟨left, first, second, hleft, hadding, rfl⟩ := ends_bind_iff.1 h
      obtain ⟨_, hadded, rfl⟩ := ends_bind_pure_iff.1 hadding
      obtain ⟨rfl, hkeep⟩ := keepFirst_of_ends hleft
      obtain ⟨values, hvalues, rfl, rfl⟩ := ends_rollAdded_iff.1 hadded
      exact ⟨left, values, .rerollLowest (UInt32.not_lt.1 hfew) hkeep hvalues, rfl, rfl⟩

/-! ## Sets of dice -/

/-- Rolling without the modifier ends with any values on original dice, unless there are too many
of them. -/
theorem Dice.ends_rollPlain_iff {dice : Dice} {shown : List ShownDie} {rolled : Rolled} :
    dice.rollPlain.Ends shown rolled ↔
      dice.count ≤ maxDice ∧ ∃ originals : List UInt32, originals.length = dice.count.toNat ∧
        shown = originals.map (ShownDie.mk dice.sides) ∧
        rolled = ⟨dice, originals.map Die.original⟩ := by
  rw [Dice.rollPlain]
  split
  · rename_i hmany
    exact ⟨fun h => absurd h not_ends_fail, fun h => absurd hmany (UInt32.not_lt.2 h.1)⟩
  · rename_i hfew
    rw [ends_askMany_iff]
    constructor
    · rintro ⟨originals, rest, hlength, hpure, rfl⟩
      obtain ⟨rfl, rfl⟩ := ends_pure_iff.1 hpure
      exact ⟨UInt32.not_lt.1 hfew, originals, hlength, List.append_nil _, rfl⟩
    · rintro ⟨-, originals, hlength, rfl, rfl⟩
      exact ⟨originals, [], hlength, .done _, (List.append_nil _).symm⟩

/-- What rolling a set of dice does: the values of its original dice, those of the dice that its
modifier adds, and all dice in the end. -/
inductive Dice.Rolls (dice : Dice) (originals : List UInt32) : List UInt32 → List Die → Prop where
  /-- Without a modifier, there are only the original dice. -/
  | plain (h : dice.modifier = none) : Rolls dice originals [] (originals.map Die.original)
  /-- A modifier is applied to the original dice. -/
  | modified {modifier : Modifier} {left : List Die} {values : List UInt32}
    (h : dice.modifier = some modifier)
    (happlies : modifier.Applies ⟨dice, originals.map Die.original⟩ left values) :
    Rolls dice originals values (left ++ values.map (Die.added modifier))

/-- A set of dice is rolled after the values of its original dice and of those that were added. -/
theorem Dice.rolls_of_ends {dice : Dice} {shown : List ShownDie} {rolled : Rolled}
    (h : dice.roll.Ends shown rolled) :
    dice.count ≤ maxDice ∧ ∃ (originals added : List UInt32) (rolls : List Die),
      originals.length = dice.count.toNat ∧
      shown = (originals ++ added).map (ShownDie.mk dice.sides) ∧
      dice.Rolls originals added rolls ∧ rolled = ⟨dice, rolls⟩ := by
  obtain ⟨_, first, second, hplain, hmodified, rfl⟩ := ends_bind_iff.1 h
  obtain ⟨hmax, originals, hlength, rfl, rfl⟩ := Dice.ends_rollPlain_iff.1 hplain
  cases hmodifier : dice.modifier with
  | none =>
    rw [hmodifier] at hmodified
    obtain ⟨rfl, rfl⟩ := ends_pure_iff.1 hmodified
    refine ⟨hmax, originals, [], _, hlength, ?_, .plain hmodifier, rfl⟩
    rw [List.append_nil, List.append_nil]
  | some modifier =>
    rw [hmodifier] at hmodified
    obtain ⟨left, values, happlies, rfl, rfl⟩ := Modifier.applies_of_ends hmodified
    exact ⟨hmax, originals, values, _, hlength, List.map_append.symm,
      .modified hmodifier happlies, rfl⟩

end DiceNotation
