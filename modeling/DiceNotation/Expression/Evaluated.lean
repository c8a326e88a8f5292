import DiceNotation.Expression

/-!
# Evaluated expressions

Evaluating an expression gives a tree of the same shape in which every set of dice and every check
has been rolled. Its value is calculated from the bottom up, operands from left to right: dice are
worth their total, a check its number of hits, and a list the list of its values. Its trace is
written like the notation of the expression, with descriptions in place of dice and checks.
-/

namespace DiceNotation

/-- An expression whose dice have been rolled. -/
inductive Evaluated where
  /-- A number. -/
  | number (value : Number)
  /-- Rolled dice. -/
  | dice (rolled : Rolled)
  /-- A rolled check. -/
  | check (check : RolledCheck)
  /-- An operation on some operands. -/
  | arithmetic (operation : Operation) (operands : List Evaluated)
  /-- Independent expressions. -/
  | list (entries : List Evaluated)
  /-- An expression with comments around it. -/
  | commented (body : Evaluated) (before after : Option String)

/-- The result of an operation on numbers: sums and products are taken from left to right. -/
def Operation.combine (operation : Operation) (numbers : List Number) :
    Except ArithmeticError Number :=
  match operation with
  | .sum => numbers.foldlM Number.add Number.zero
  | .product => numbers.foldlM Number.multiply Number.one
  | .power =>
    match numbers with
    | [base, exponent] => base.power exponent
    | _ => .error (.powerArity numbers.length)

namespace Evaluated

/-- The kind of an evaluated expression that is an operation. -/
def operation? : Evaluated → Option Operation
  | arithmetic operation _ => some operation
  | _ => none

/-- The total of rolled dice as a number. Both the total and the number have a range to fit. -/
def totalOf (rolled : Rolled) : Except ArithmeticError Number :=
  match rolled.total? with
  | some total => Number.ofInt total
  | none => .error (.total rolled)

mutual

/-- The value of an evaluated expression. -/
def value : Evaluated → Except ArithmeticError Value
  | number x => .ok (.number x)
  | dice rolled => return .number (← totalOf rolled)
  | check rolled => return .number (← Number.ofInt rolled.count)
  | arithmetic operation operands => do
    return .number (← operation.combine (← numbers operands))
  | list entries => return .list (← values entries)
  | commented body _ _ => body.value

/-- The values of operands, each of which has to be a single number. -/
def numbers : List Evaluated → Except ArithmeticError (List Number)
  | [] => .ok []
  | operand :: operands => do
    let x ← (← operand.value).toNumber
    return x :: (← numbers operands)

/-- The values of independent expressions. -/
def values : List Evaluated → Except ArithmeticError (List Value)
  | [] => .ok []
  | entry :: entries => do
    let x ← entry.value
    return x :: (← values entries)

end

mutual

/-- The trace of an evaluated expression with at most `limit` dice listed in each description. -/
def describe (limit : Option Nat) : Evaluated → String
  | number x => x.text
  | dice rolled => rolled.describe limit
  | check rolled => rolled.describe limit
  | arithmetic operation operands =>
    operationText operation (describeOperands limit operation operands)
  | list entries => listSeparator.intercalate (describeList limit entries)
  | commented body before after => commentedText before after (body.describe limit)

/-- The traces of the operands of an operation. -/
def describeOperands (limit : Option Nat) (around : Operation) : List Evaluated → List String
  | [] => []
  | operand :: operands =>
    operandText around operand.operation? (operand.describe limit) ::
      describeOperands limit around operands

/-- The traces of independent expressions. -/
def describeList (limit : Option Nat) : List Evaluated → List String
  | [] => []
  | entry :: entries => entry.describe limit :: describeList limit entries

end

/-- The full trace of an evaluated expression. -/
def trace (evaluated : Evaluated) : String := evaluated.describe none

mutual

/-- Equality of evaluated expressions, in which numbers are compared numerically. -/
protected def beq : Evaluated → Evaluated → Bool
  | number x, number y => x == y
  | dice x, dice y => x == y
  | check x, check y => x == y
  | arithmetic o xs, arithmetic p ys => o == p && beqList xs ys
  | list xs, list ys => beqList xs ys
  | commented x b a, commented y c d => x.beq y && b == c && a == d
  | _, _ => false

/-- Equality of lists of evaluated expressions. -/
def beqList : List Evaluated → List Evaluated → Bool
  | [], [] => true
  | x :: xs, y :: ys => x.beq y && beqList xs ys
  | _, _ => false

end

instance : BEq Evaluated := ⟨Evaluated.beq⟩

end Evaluated

end DiceNotation
