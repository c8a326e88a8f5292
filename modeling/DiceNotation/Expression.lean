import DiceNotation.Check
import DiceNotation.Number

/-!
# Expressions

An expression combines numbers, dice and checks by sums, products and powers; several independent
expressions form a list, and an expression may carry comments. There is no difference and no
quotient: a subtracted term is multiplied by -1, and a divisor is raised to the power of -1. The
notation of an expression puts an operand in parentheses when it is an operation of another kind
than the one around it, or when it is an operand of a power.
-/

namespace DiceNotation

/-- The kinds of arithmetic operation. -/
inductive Operation where
  /-- The sum of any number of terms. -/
  | sum
  /-- The product of any number of factors. -/
  | product
  /-- A base raised to the power of an exponent. -/
  | power
deriving DecidableEq, Repr

/-- The symbol of an operation. -/
def Operation.symbol : Operation → String
  | .sum => "+"
  | .product => "*"
  | .power => "^"

/-- A dice expression. A power always has exactly two operands. -/
inductive Expression where
  /-- A number. -/
  | number (value : Number)
  /-- Dice to be rolled, worth their total. -/
  | dice (dice : Dice)
  /-- A check to be rolled, worth its number of hits. -/
  | check (check : Check)
  /-- The sum of some terms. -/
  | sum (terms : List Expression)
  /-- The product of some factors. -/
  | product (factors : List Expression)
  /-- A base raised to the power of an exponent. -/
  | power (base exponent : Expression)
  /-- Independent expressions. -/
  | list (entries : List Expression)
  /-- An expression with comments around it. -/
  | commented (body : Expression) (before after : Option String)

/-- Separates the texts of independent expressions. -/
def listSeparator : String := ",  "

/-- The text of an operand, in parentheses if the operation around it asks for them. -/
def operandText (around : Operation) (own : Option Operation) (text : String) : String :=
  match own with
  | some operation =>
    if operation ≠ around ∨ around = .power then "(" ++ text ++ ")" else text
  | none => text

/-- The text of an operation from the texts of its operands. -/
def operationText (operation : Operation) (operands : List String) : String :=
  (" " ++ operation.symbol ++ " ").intercalate operands

/-- A text with comments around it. -/
def commentedText (before after : Option String) (text : String) : String :=
  let opened := match before with
    | some comment => comment ++ " : " ++ text
    | none => text
  match after with
  | some comment => opened ++ " # " ++ comment
  | none => opened

namespace Expression

/-- The kind of an expression that is an operation. -/
def operation? : Expression → Option Operation
  | sum _ => some .sum
  | product _ => some .product
  | power _ _ => some .power
  | _ => none

mutual

/-- The notation of an expression. -/
def text : Expression → String
  | number value => value.text
  | dice leaf => leaf.text
  | check leaf => leaf.text
  | sum terms => operationText .sum (operandTexts .sum terms)
  | product factors => operationText .product (operandTexts .product factors)
  | power base exponent =>
    operationText .power
      [operandText .power base.operation? base.text,
        operandText .power exponent.operation? exponent.text]
  | list entries => listSeparator.intercalate (texts entries)
  | commented body before after => commentedText before after body.text

/-- The notations of the operands of an operation. -/
def operandTexts (around : Operation) : List Expression → List String
  | [] => []
  | operand :: operands =>
    operandText around operand.operation? operand.text :: operandTexts around operands

/-- The notations of independent expressions. -/
def texts : List Expression → List String
  | [] => []
  | entry :: entries => entry.text :: texts entries

end

mutual

/-- Whether an expression has no dice and no checks, so that it has the same value always. -/
def isDeterministic : Expression → Bool
  | number _ => true
  | dice _ => false
  | check _ => false
  | sum terms => areDeterministic terms
  | product factors => areDeterministic factors
  | power base exponent => base.isDeterministic && exponent.isDeterministic
  | list entries => areDeterministic entries
  | commented body _ _ => body.isDeterministic

/-- Whether all of some expressions are deterministic. -/
def areDeterministic : List Expression → Bool
  | [] => true
  | entry :: entries => entry.isDeterministic && areDeterministic entries

end

mutual

/-- Equality of expressions, in which numbers are compared numerically. -/
protected def beq : Expression → Expression → Bool
  | number x, number y => x == y
  | dice x, dice y => x == y
  | check x, check y => x == y
  | sum xs, sum ys => beqList xs ys
  | product xs, product ys => beqList xs ys
  | power b x, power c y => b.beq c && x.beq y
  | list xs, list ys => beqList xs ys
  | commented x b a, commented y c d => x.beq y && b == c && a == d
  | _, _ => false

/-- Equality of lists of expressions. -/
def beqList : List Expression → List Expression → Bool
  | [], [] => true
  | x :: xs, y :: ys => x.beq y && beqList xs ys
  | _, _ => false

end

instance : BEq Expression := ⟨Expression.beq⟩

end Expression

end DiceNotation
