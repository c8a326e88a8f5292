/-!
# Dice

A set of dice has a number of dice, a number of sides per die, and possibly a modifier, which says
what happens to the dice once they are rolled. Not every set can be rolled: there is a limit on
the number of dice, dice that explode on everything would never stop, and no more dice can be
rerolled than were rolled.
-/

namespace DiceNotation

/-- What happens to a set of dice once it is rolled. -/
inductive Modifier where
  /-- Every die that shows at least `threshold` adds a die, for at most `cap` rounds. -/
  | explode (threshold cap : UInt32)
  /-- Only the highest dice are kept. -/
  | keepHighest (count : UInt32)
  /-- Only the lowest dice are kept. -/
  | keepLowest (count : UInt32)
  /-- The lowest dice are dropped, and as many new ones are rolled. -/
  | rerollLowest (count : UInt32)
deriving DecidableEq, Repr

/-- A set of dice to be rolled. -/
structure Dice where
  /-- The number of dice. -/
  count : UInt32
  /-- The number of sides of each die. -/
  sides : UInt32
  /-- What happens to the dice once they are rolled. -/
  modifier : Option Modifier
deriving DecidableEq, Repr

/-- Why dice cannot be rolled or a check cannot be made. -/
inductive DiceError where
  /-- The dice explode on every value. -/
  | infiniteRolls (dice : Dice)
  /-- More dice are rerolled than rolled. -/
  | tooManyRerolls (dice : Dice)
  /-- More dice are rolled than the limit. -/
  | tooManyDice (dice : Dice)
  /-- No condition has this symbol. -/
  | unknownCondition (symbol : String)
deriving DecidableEq, Repr

/-- The greatest number of dice that can be rolled at once. -/
def maxDice : UInt32 := 1000

/-- The greatest number of dice that a set can grow to by exploding. -/
def maxRolls : Nat := 10000

/-- The number of rounds in which dice explode unless another one is given. -/
def defaultExplosionCap : UInt32 := 100

/-- The notation of a modifier; the cap of an explosion is not written. -/
def Modifier.text : Modifier → String
  | .explode threshold _ => "explode " ++ toString threshold
  | .keepHighest count => "highest " ++ toString count
  | .keepLowest count => "lowest " ++ toString count
  | .rerollLowest count => "reroll " ++ toString count

namespace Dice

/-- Dice without a modifier. -/
def plain (dice : Dice) : Dice := { dice with modifier := none }

/-- A single die with twenty sides. -/
def d20 : Dice := ⟨1, 20, none⟩

/-- The same dice, exploding on a threshold for the usual number of rounds. -/
def exploding (dice : Dice) (threshold : UInt32) : Dice :=
  { dice with modifier := some (.explode threshold defaultExplosionCap) }

/-- The same dice with another cap, if they explode. -/
def withExplosionCap (dice : Dice) (cap : UInt32) : Dice :=
  match dice.modifier with
  | some (.explode threshold _) => { dice with modifier := some (.explode threshold cap) }
  | _ => dice

/-- The notation of dice. -/
def text (dice : Dice) : String :=
  let plain := toString dice.count ++ "d" ++ toString dice.sides
  match dice.modifier with
  | some modifier => plain ++ " " ++ modifier.text
  | none => plain

/-- Checks that dice can be rolled. The number of dice is checked first. -/
def validate (dice : Dice) : Except DiceError Unit :=
  if maxDice < dice.count then .error (.tooManyDice dice)
  else match dice.modifier with
    | some (.explode threshold _) =>
      if threshold < 2 then .error (.infiniteRolls dice) else .ok ()
    | some (.rerollLowest count) =>
      if dice.count < count then .error (.tooManyRerolls dice) else .ok ()
    | _ => .ok ()

end Dice

/-- The wording of a dice error. -/
def DiceError.message : DiceError → String
  | .infiniteRolls dice =>
    dice.text ++ " would result in infinite rolls; dice must explode on at least 2"
  | .tooManyRerolls dice => dice.text ++ " rerolls more dice than it rolls"
  | .tooManyDice dice =>
    dice.text ++ " rolls too many dice; at most " ++ toString maxDice ++ " can be rolled at once"
  | .unknownCondition symbol => "unknown condition symbol: " ++ symbol

end DiceNotation
