import DiceNotation.Dice.Die

/-!
# Keeping the best dice

The kept dice of a list are sorted by their values, the best first, and equal values stay in place.
All but some number of the first ones are dropped. Dropping marks the dice where they stand: their
order, their values and the dice dropped before do not change.
-/

namespace DiceNotation

/-- A die and its place in the list. -/
abbrev PlacedDie := Die × Nat

/-- The kept dice with their places, sorted by an order of dice. What is equal in the order stays in
place. -/
def ranking (order : Die → Die → Bool) (rolls : List Die) : List PlacedDie :=
  (rolls.zipIdx.filter fun entry => entry.1.isKept).mergeSort fun a b => order a.1 b.1

/-- Drops the dice at the given places; the first die stands at place `start`. -/
def dropPlaces (modifier : Modifier) (places : List Nat) :
    (start : Nat) → List Die → Except MarkFault (List Die)
  | _, [] => .ok []
  | start, die :: rolls => do
    let die ← if places.contains start then die.drop modifier else .ok die
    return die :: (← dropPlaces modifier places (start + 1) rolls)

/-- Keeps the first `count` of the kept dice in an order and drops the others. -/
def keepFirst (order : Die → Die → Bool) (modifier : Modifier) (count : Nat)
    (rolls : List Die) : Except MarkFault (List Die) :=
  dropPlaces modifier (((ranking order rolls).drop count).map Prod.snd) 0 rolls

end DiceNotation
