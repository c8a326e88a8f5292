import DiceNotation.Expression.Evaluated

/-!
# Evaluation

Evaluating an expression rolls its dice and checks from left to right, each with its modifier. It
fails at the first dice that cannot be rolled, and names them.
-/

namespace DiceNotation

/-- A failure to roll the dice of an expression. -/
structure EvaluationError where
  /-- The dice or the check that could not be rolled. -/
  leaf : Expression
  /-- Why they could not be rolled. -/
  fault : RollFault

/-- The wording of an evaluation error. -/
def EvaluationError.message (error : EvaluationError) : String :=
  "dice error while evaluating \"" ++ error.leaf.text ++ "\": " ++ error.fault.message

namespace Expression

mutual

/-- Rolls all dice of an expression. -/
def evaluate : Expression → Rolling EvaluationError Evaluated
  | number x => return .number x
  | dice leaf => return .dice (← leaf.roll.mapError (EvaluationError.mk (dice leaf)))
  | check leaf => return .check (← leaf.roll.mapError (EvaluationError.mk (check leaf)))
  | sum terms => return .arithmetic .sum (← evaluateAll terms)
  | product factors => return .arithmetic .product (← evaluateAll factors)
  | power base exponent => do
    let base ← base.evaluate
    return .arithmetic .power [base, ← exponent.evaluate]
  | list entries => return .list (← evaluateAll entries)
  | commented body before after => return .commented (← body.evaluate) before after

/-- Rolls all dice of several expressions, one expression after the other. -/
def evaluateAll : List Expression → Rolling EvaluationError (List Evaluated)
  | [] => return []
  | entry :: entries => do
    let entry ← entry.evaluate
    return entry :: (← evaluateAll entries)

end

end Expression

end DiceNotation
