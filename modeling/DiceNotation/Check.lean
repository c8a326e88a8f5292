import DiceNotation.Dice.Roll

/-!
# Checks

A check rolls dice and counts hits: the kept dice whose values meet a condition. A condition
compares a value with a number. Each comparison has one symbol in notation, and some have another
spelling that is understood too.
-/

namespace DiceNotation

/-- How a value is compared with a number. -/
inductive Comparison where
  /-- The value is the number. -/
  | equal
  /-- The value is another number. -/
  | notEqual
  /-- The value is greater. -/
  | greater
  /-- The value is greater or the same. -/
  | atLeast
  /-- The value is less. -/
  | less
  /-- The value is less or the same. -/
  | atMost
deriving DecidableEq, Repr

/-- The symbol of a comparison. -/
def Comparison.symbol : Comparison → String
  | .equal => "="
  | .notEqual => "!="
  | .greater => ">"
  | .atLeast => ">="
  | .less => "<"
  | .atMost => "<="

/-- Reads a symbol in any of its spellings. -/
def Comparison.ofSymbol? (symbol : String) : Option Comparison :=
  if symbol = "=" ∨ symbol = "==" then some .equal
  else if symbol = "!=" ∨ symbol = "≠" then some .notEqual
  else if symbol = ">" then some .greater
  else if symbol = ">=" ∨ symbol = "≥" then some .atLeast
  else if symbol = "<" then some .less
  else if symbol = "<=" ∨ symbol = "≤" then some .atMost
  else none

/-- Every symbol reads back. -/
theorem Comparison.ofSymbol?_symbol (comparison : Comparison) :
    ofSymbol? comparison.symbol = some comparison := by
  cases comparison <;> decide

/-- A condition that values are checked against. -/
structure Condition where
  /-- How a value is compared. -/
  comparison : Comparison
  /-- The number it is compared with. -/
  value : UInt32
deriving DecidableEq, Repr

namespace Condition

/-- The condition with a symbol and a number. -/
def ofSymbol (symbol : String) (value : UInt32) : Except DiceError Condition :=
  match Comparison.ofSymbol? symbol with
  | some comparison => .ok ⟨comparison, value⟩
  | none => .error (.unknownCondition symbol)

/-- Checks a value. -/
def holds (condition : Condition) (value : UInt32) : Bool :=
  match condition.comparison with
  | .equal => value == condition.value
  | .notEqual => value != condition.value
  | .greater => condition.value < value
  | .atLeast => condition.value ≤ value
  | .less => value < condition.value
  | .atMost => value ≤ condition.value

/-- The notation of a condition. -/
def text (condition : Condition) : String :=
  condition.comparison.symbol ++ " " ++ toString condition.value

end Condition

/-- Dice whose hits are counted. -/
structure Check where
  /-- The dice to be rolled. -/
  dice : Dice
  /-- The condition that a hit meets. -/
  condition : Condition
deriving DecidableEq, Repr

namespace Check

/-- A check of six-sided dice that hit on at least a threshold. -/
def nb (count threshold : UInt32) : Check := ⟨⟨count, 6, none⟩, ⟨.atLeast, threshold⟩⟩

/-- The notation of a check. -/
def text (check : Check) : String := "(" ++ check.dice.text ++ " " ++ check.condition.text ++ ")"

end Check

/-- A check whose dice were rolled. -/
structure RolledCheck where
  /-- The dice that were rolled. -/
  rolled : Rolled
  /-- The condition that a hit meets. -/
  condition : Condition
deriving DecidableEq, Repr

/-- Rolls the dice of a check. -/
def Check.roll (check : Check) : Rolling RollFault RolledCheck := do
  return { rolled := ← check.dice.roll, condition := check.condition }

namespace RolledCheck

/-- Whether a die is a hit; a dropped die never is. -/
def isHit (check : RolledCheck) (die : Die) : Bool :=
  die.isKept && check.condition.holds die.value

/-- The number of hits, at most the greatest number of 32 bits. -/
def count (check : RolledCheck) : Nat :=
  min (check.rolled.rolls.countP check.isHit) (Nat.pow 2 32 - 1)

/-- One die in a description: a hit in bold, anything else struck through. -/
def describeDie (check : RolledCheck) (die : Die) : String :=
  if check.isHit die then "**" ++ check.rolled.describeDie die ++ "**"
  else "~~" ++ toString die.value ++ "~~"

/-- The description of a check with at most `limit` of its dice listed, and the number of hits. -/
def describe (check : RolledCheck) (limit : Option Nat) : String :=
  let items := (takeUpTo limit check.rolled.rolls).map check.describeDie ++
    moreNote limit check.rolled.rolls.length
  "(" ++ " ".intercalate items ++ " => **" ++ toString check.count ++ " hit" ++
    (if check.count = 1 then "" else "s") ++ "**)"

end RolledCheck

end DiceNotation
