import DiceNotation.Dice.Die

/-!
# Rolled dice

A set of dice that was rolled holds every die in the order in which it was rolled, the added ones
behind the first ones. Its total counts the kept dice only. Its description lists the dice, dropped
ones struck through and exploding ones in italics, and ends with the total; a list that is cut
short says how many dice are missing, and the total is that of all dice all the same.
-/

namespace DiceNotation

/-- A set of dice that was rolled. -/
structure Rolled where
  /-- The dice as they were asked for. -/
  dice : Dice
  /-- Every die, in the order rolled. -/
  rolls : List Die
deriving DecidableEq, Repr

/-- The sum of the values of the kept dice. -/
def keptSum : List Die → Nat
  | [] => 0
  | die :: rolls => (if die.isKept then die.value.toNat else 0) + keptSum rolls

/-- The first `limit` items, or all of them without a limit. -/
def takeUpTo {α : Type} (limit : Option Nat) (items : List α) : List α :=
  match limit with
  | some count => items.take count
  | none => items

/-- The note that stands for the items beyond a limit, if there are any. -/
def moreNote (limit : Option Nat) (total : Nat) : List String :=
  match limit with
  | some count => if count < total then [toString (total - count) ++ " more..."] else []
  | none => []

namespace Rolled

/-- The total of the kept dice, which has to fit 64 bits. -/
def total? (rolled : Rolled) : Option Nat :=
  let sum := keptSum rolled.rolls
  if sum < Nat.pow 2 64 then some sum else none

/-- The total of the kept dice as it is shown, at most the greatest number of 64 bits. -/
def shownTotal (rolled : Rolled) : Nat := min (keptSum rolled.rolls) (Nat.pow 2 64 - 1)

/-- The places of the kept dice. -/
def keptPlaces (rolled : Rolled) : List Nat :=
  (rolled.rolls.zipIdx.filter fun entry => entry.1.isKept).map Prod.snd

/-- Whether a die reaches the threshold on which these dice explode. -/
def isExplosive (rolled : Rolled) (die : Die) : Bool :=
  match rolled.dice.modifier with
  | some (.explode threshold _) => threshold ≤ die.value
  | _ => false

/-- One die in a description. -/
def describeDie (rolled : Rolled) (die : Die) : String :=
  if !die.isKept then die.text
  else if rolled.isExplosive die then "_" ++ toString die.value ++ "_"
  else toString die.value

/-- The description of rolled dice with at most `limit` of them listed. A lone kept die is shown as
its value in bold. -/
def describe (rolled : Rolled) (limit : Option Nat) : String :=
  let listed :=
    let items := (takeUpTo limit rolled.rolls).map rolled.describeDie ++
      moreNote limit rolled.rolls.length
    "(" ++ " + ".intercalate items ++ " => **" ++ toString rolled.shownTotal ++ "**)"
  match rolled.rolls with
  | [die] => if die.isKept then "(**" ++ toString die.value ++ "**)" else listed
  | _ => listed

end Rolled

end DiceNotation
