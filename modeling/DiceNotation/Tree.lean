/-!
# Trees of written expressions

A tree holds an expression as it was written. Numbers are kept as the text of their digits, and
sums and products as a first operand and the operators and operands that follow it, so that nothing
is calculated and no order is lost.
-/

namespace DiceNotation

/-- The words that introduce a modifier. -/
inductive ModifierWord where
  /-- The dice explode. -/
  | explode
  /-- The highest dice are kept. -/
  | highest
  /-- The lowest dice are kept. -/
  | lowest
  /-- The lowest dice are rerolled. -/
  | reroll
deriving DecidableEq, Repr

/-- The written form of a modifier word. -/
def ModifierWord.word : ModifierWord → String
  | .explode => "explode"
  | .highest => "highest"
  | .lowest => "lowest"
  | .reroll => "reroll"

/-- The difficulties of a short check. -/
inductive Difficulty where
  /-- Hits on 4 or more. -/
  | easy
  /-- Hits on 5 or more. -/
  | normal
  /-- Hits on 6. -/
  | hard
deriving DecidableEq, Repr

/-- The written form of a difficulty. -/
def Difficulty.word : Difficulty → String
  | .easy => "easy"
  | .normal => "normal"
  | .hard => "hard"

/-- The least value that is a hit. -/
def Difficulty.threshold : Difficulty → UInt32
  | .easy => 4
  | .normal => 5
  | .hard => 6

/-- The operators of a sum. -/
inductive TermSign where
  /-- The term is added. -/
  | plus
  /-- The term is subtracted. -/
  | minus
deriving DecidableEq, Repr

/-- The operators of a product. -/
inductive FactorSign where
  /-- The factor is multiplied. -/
  | times
  /-- The factor is divided by. -/
  | over
deriving DecidableEq, Repr

/-- Dice as written. -/
structure WrittenDice where
  /-- The number of dice, if it is written. -/
  count : Option String
  /-- The number of sides. -/
  sides : String
  /-- The modifier and its argument, if there is one. -/
  modifier : Option (ModifierWord × String)
deriving DecidableEq, Repr

/-- A written expression. -/
inductive Node where
  /-- An integer. -/
  | integer (digits : String)
  /-- A decimal number. -/
  | decimal (digits : String)
  /-- Dice. -/
  | dice (written : WrittenDice)
  /-- A check of dice against a threshold. -/
  | check (written : WrittenDice) (comparison threshold : String)
  /-- A short check. -/
  | nb (difficulty : Difficulty) (count : String)
  /-- An expression with a minus sign in front. -/
  | negation (body : Node)
  /-- A chain of powers. -/
  | power (operands : List Node)
  /-- A first factor and the factors that follow it. -/
  | product (first : Node) (rest : List (FactorSign × Node))
  /-- A first term and the terms that follow it. -/
  | sum (first : Node) (rest : List (TermSign × Node))

/-- A written expression with the comments around it, as they were written. -/
structure Entry where
  /-- The comment before the expression. -/
  before : Option String
  /-- The expression. -/
  node : Node
  /-- The comment behind the expression. -/
  after : Option String

end DiceNotation
