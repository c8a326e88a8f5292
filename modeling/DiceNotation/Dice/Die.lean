import DiceNotation.Dice

/-!
# Single dice

A die that was rolled shows a value. A modifier may have added it to the set, and a modifier may
have dropped it from the set; both are marked on the die, each at most once.
-/

namespace DiceNotation

/-- A die that was rolled. -/
structure Die where
  /-- The value shown. -/
  value : UInt32
  /-- The modifier that added the die, if it was not rolled with the first ones. -/
  addedBy : Option Modifier := none
  /-- The modifier that dropped the die, if it is not kept. -/
  droppedBy : Option Modifier := none
deriving DecidableEq, Repr

/-- A die cannot be marked in the same way twice. -/
inductive MarkFault where
  /-- The die has been marked as added before. -/
  | alreadyAdded
  /-- The die has been marked as dropped before. -/
  | alreadyDropped
deriving DecidableEq, Repr

/-- The wording of a mark fault. -/
def MarkFault.message : MarkFault → String
  | .alreadyAdded =>
    "marking a die as added that has already been marked as added by another modifier"
  | .alreadyDropped =>
    "marking a die as dropped that has already been marked as dropped by another modifier"

namespace Die

/-- Whether a modifier added the die. -/
def isAdded (die : Die) : Bool := die.addedBy.isSome

/-- Whether the die is kept. -/
def isKept (die : Die) : Bool := die.droppedBy.isNone

/-- Marks a die as added by a modifier. -/
def add (modifier : Modifier) (die : Die) : Except MarkFault Die :=
  if die.isAdded then .error .alreadyAdded else .ok { die with addedBy := some modifier }

/-- Marks a die as dropped by a modifier. -/
def drop (modifier : Modifier) (die : Die) : Except MarkFault Die :=
  if die.isKept then .ok { die with droppedBy := some modifier } else .error .alreadyDropped

/-- Compares dice by their values alone. -/
def order (a b : Die) : Ordering := compare a.value b.value

/-- Smaller values come first. -/
def lowerFirst (a b : Die) : Bool := (a.order b).isLE

/-- Greater values come first. -/
def higherFirst (a b : Die) : Bool := (b.order a).isLE

/-- Puts dice in the order of their values; equal values stay in place. -/
def sort (rolls : List Die) : List Die := rolls.mergeSort lowerFirst

/-- The value of a die, struck through if the die is dropped. -/
def text (die : Die) : String :=
  if die.isKept then toString die.value else "~~" ++ toString die.value ++ "~~"

end Die

end DiceNotation
