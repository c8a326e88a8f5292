import DiceNotation.Dice.Rolled
import DiceNotation.Dice.Rolling
import DiceNotation.Dice.Selection

/-!
# Rolling dice

Dice are rolled one after the other, and then their modifier is applied. Exploding goes in rounds:
every die of the last batch that reaches the threshold adds a die to the next batch, until a batch
is empty, the rounds are used up, or the set is full. Rerolling drops the lowest dice and adds as
many new ones as its count says. A modifier that cannot be applied fails before it asks for a die.
-/

namespace DiceNotation

/-- Why dice could not be rolled. -/
inductive RollFault where
  /-- A rule of the dice is broken. -/
  | rule (error : DiceError)
  /-- A die was marked twice. -/
  | mark (fault : MarkFault)
deriving DecidableEq, Repr

/-- The wording of a roll fault. -/
def RollFault.message : RollFault → String
  | .rule error => error.message
  | .mark fault => fault.message

/-- Makes new dice of values, marked as added by a modifier. -/
def addedDice (modifier : Modifier) : List UInt32 → Except MarkFault (List Die)
  | [] => .ok []
  | value :: values => do
    let die ← Die.add modifier { value }
    return die :: (← addedDice modifier values)

/-- Asks for new dice and marks them as added by a modifier. -/
def rollAdded (modifier : Modifier) (sides : UInt32) (count : Nat) : Rolling RollFault (List Die) :=
  .askMany sides count fun values => .ofExcept ((addedDice modifier values).mapError .mark)

/-- The number of dice that reach a threshold, kept or not. -/
def countReaching (threshold : UInt32) (rolls : List Die) : Nat :=
  rolls.countP fun die => threshold ≤ die.value

/-- Adds the dice of at most `rounds` explosions to a list. Dice are `pending` if they explode and
have not added a die yet; those that do not fit stay pending. -/
def explosions (modifier : Modifier) (sides threshold : UInt32) :
    (rounds pending : Nat) → List Die → Rolling RollFault (List Die)
  | 0, _, rolls => pure rolls
  | rounds + 1, pending, rolls =>
    let batch := min pending (maxRolls - rolls.length)
    if batch = 0 then pure rolls
    else do
      let added ← rollAdded modifier sides batch
      explosions modifier sides threshold rounds
        (countReaching threshold added + (pending - batch)) (rolls ++ added)

/-- Applies a modifier to rolled dice. -/
def Modifier.apply (modifier : Modifier) (rolled : Rolled) : Rolling RollFault Rolled :=
  match modifier with
  | .explode threshold cap =>
    if threshold < 2 then .fail (.rule (.infiniteRolls rolled.dice))
    else do
      let rolls ← explosions modifier rolled.dice.sides threshold cap.toNat
        (countReaching threshold rolled.rolls) rolled.rolls
      return { rolled with rolls }
  | .keepHighest count => do
    let rolls ← .ofExcept
      ((keepFirst Die.higherFirst modifier count.toNat rolled.rolls).mapError .mark)
    return { rolled with rolls }
  | .keepLowest count => do
    let rolls ← .ofExcept
      ((keepFirst Die.lowerFirst modifier count.toNat rolled.rolls).mapError .mark)
    return { rolled with rolls }
  | .rerollLowest count =>
    if rolled.dice.count < count then .fail (.rule (.tooManyRerolls rolled.dice))
    else do
      let kept ← .ofExcept ((keepFirst Die.higherFirst modifier
        (rolled.dice.count.toNat - count.toNat) rolled.rolls).mapError .mark)
      let added ← rollAdded modifier rolled.dice.sides count.toNat
      return { rolled with rolls := kept ++ added }

/-- Rolls dice and leaves their modifier out. -/
def Dice.rollPlain (dice : Dice) : Rolling RollFault Rolled :=
  if maxDice < dice.count then .fail (.rule (.tooManyDice dice))
  else .askMany dice.sides dice.count.toNat fun values =>
    pure { dice, rolls := values.map fun value => { value } }

/-- Rolls dice and applies their modifier. -/
def Dice.roll (dice : Dice) : Rolling RollFault Rolled := do
  let rolled ← dice.rollPlain
  match dice.modifier with
  | some modifier => modifier.apply rolled
  | none => return rolled

end DiceNotation
