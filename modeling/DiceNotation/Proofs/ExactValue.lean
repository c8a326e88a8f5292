import DiceNotation.Session
import Mathlib.Algebra.BigOperators.Group.List.Basic
import Mathlib.Algebra.Ring.Int.Defs

/-!
# Exact integer values

Written expressions, expressions and evaluated expressions have exact values in the integers, which
have no range and so never overflow. They are taken operand by operand in the order written, and
nothing is folded. What dice and checks are worth is left open: it comes out of any sequence of
effects, of which rolling dice is one, so that the order of the leaves counts. Decimal numbers and
divisors have no exact integer value; the parts of a text without them are called integral.
-/

namespace DiceNotation

variable {m : Type → Type} [Monad m]

/-- The result of an operation on integers. A power has two operands and a natural exponent. -/
def Operation.exact : Operation → List Int → Int
  | .sum, values => values.sum
  | .product, values => values.prod
  | .power, [base, exponent] => base ^ exponent.toNat
  | .power, _ => 0

/-- The integer that a text of digits stands for; a text that is no integer counts as zero. -/
def literal (digits : String) : Int := (Decimal.readSigned digits.toList).getD 0

namespace Number

/-- The integer that a number is; a decimal number counts as zero. -/
def exact : Number → Int
  | .integer z => z.toInt
  | .decimal _ => 0

/-- A number of the integer kind with a given value. -/
def Represents : Number → Int → Prop
  | .integer z, value => z.toInt = value
  | .decimal _, _ => False

end Number

namespace Node

mutual

/-- The exact value of a written expression, given what its leaves are worth. -/
def exact (leaf : Node → m Int) : Node → m Int
  | integer digits => return literal digits
  | decimal _ => return 0
  | dice written => leaf (dice written)
  | check written comparison threshold => leaf (check written comparison threshold)
  | nb difficulty count => leaf (nb difficulty count)
  | negation body => return -(← body.exact leaf)
  | power operands => return Operation.power.exact (← exactAll leaf operands)
  | product first rest => do exactFactors leaf (← first.exact leaf) rest
  | sum first rest => do exactTerms leaf (← first.exact leaf) rest

/-- The exact values of written expressions, one after the other. -/
def exactAll (leaf : Node → m Int) : List Node → m (List Int)
  | [] => return []
  | node :: nodes => do
    let value ← node.exact leaf
    return value :: (← exactAll leaf nodes)

/-- The product of a value and the factors behind it, one factor at a time. -/
def exactFactors (leaf : Node → m Int) (value : Int) : List (FactorSign × Node) → m Int
  | [] => return value
  | (.times, node) :: rest => do exactFactors leaf (value * (← node.exact leaf)) rest
  | (.over, _) :: _ => return 0

/-- The sum of a value and the terms behind it, one term at a time. -/
def exactTerms (leaf : Node → m Int) (value : Int) : List (TermSign × Node) → m Int
  | [] => return value
  | (.plus, node) :: rest => do exactTerms leaf (value + (← node.exact leaf)) rest
  | (.minus, node) :: rest => do exactTerms leaf (value - (← node.exact leaf)) rest

end

/-- A written expression of integers, dice and checks, without divisors, in which every power has a
natural number as its exponent. -/
inductive Integral : Node → Prop where
  | integer (digits : String) : Integral (.integer digits)
  | dice (written : WrittenDice) : Integral (.dice written)
  | check (written : WrittenDice) (comparison threshold : String) :
    Integral (.check written comparison threshold)
  | nb (difficulty : Difficulty) (count : String) : Integral (.nb difficulty count)
  | negation {body : Node} (hbody : Integral body) : Integral (.negation body)
  | power {base : Node} {digits : String} (hbase : Integral base) (hdigits : 0 ≤ literal digits) :
    Integral (.power [base, .integer digits])
  | product {first : Node} {rest : List (FactorSign × Node)} (hfirst : Integral first)
    (hsigns : ∀ factor ∈ rest, factor.1 = .times) (hrest : ∀ factor ∈ rest, Integral factor.2) :
    Integral (.product first rest)
  | sum {first : Node} {rest : List (TermSign × Node)} (hfirst : Integral first)
    (hrest : ∀ term ∈ rest, Integral term.2) : Integral (.sum first rest)

end Node

namespace Expression

mutual

/-- The exact value of an expression, given what its leaves are worth. Lists have none. -/
def exact (leaf : Expression → m Int) : Expression → m Int
  | number x => return x.exact
  | dice set => leaf (dice set)
  | check set => leaf (check set)
  | sum terms => return Operation.sum.exact (← exactAll leaf terms)
  | product factors => return Operation.product.exact (← exactAll leaf factors)
  | power base exponent => do
    let base ← base.exact leaf
    return Operation.power.exact [base, ← exponent.exact leaf]
  | list _ => return 0
  | commented body _ _ => body.exact leaf

/-- The exact values of expressions, one after the other. -/
def exactAll (leaf : Expression → m Int) : List Expression → m (List Int)
  | [] => return []
  | operand :: operands => do
    let value ← operand.exact leaf
    return value :: (← exactAll leaf operands)

end

/-- An expression of integers, dice and checks in which every exponent is a natural number. -/
inductive Integral : Expression → Prop where
  | number (z : Int64) : Integral (.number (.integer z))
  | dice (set : Dice) : Integral (.dice set)
  | check (set : Check) : Integral (.check set)
  | sum {terms : List Expression} (hterms : ∀ term ∈ terms, Integral term) :
    Integral (.sum terms)
  | product {factors : List Expression} (hfactors : ∀ factor ∈ factors, Integral factor) :
    Integral (.product factors)
  | power {base : Expression} {z : Int64} (hbase : Integral base) (hz : 0 ≤ z.toInt) :
    Integral (.power base (.number (.integer z)))

/-- What a leaf is worth when it is rolled: dice their total, a check its number of hits. -/
def roll (leaf : Expression) : Rolling EvaluationError Int :=
  match leaf with
  | dice set => do
    let rolled ← set.roll.mapError (EvaluationError.mk leaf)
    return keptSum rolled.rolls
  | check set => do
    let rolled ← set.roll.mapError (EvaluationError.mk leaf)
    return rolled.rolled.rolls.countP rolled.isHit
  | _ => return 0

end Expression

/-- What a written leaf is worth when it is rolled. -/
def Node.roll (leaf : Node) : Rolling RollError Int :=
  match leaf.build with
  | .ok leaf => leaf.roll.mapError .evaluation
  | .error error => .fail (.meaningless error)

namespace Evaluated

mutual

/-- The exact value of an evaluated expression. Lists have none. -/
def exact : Evaluated → Int
  | number x => x.exact
  | dice rolled => keptSum rolled.rolls
  | check rolled => rolled.rolled.rolls.countP rolled.isHit
  | arithmetic operation operands => operation.exact (exactAll operands)
  | list _ => 0
  | commented body _ _ => body.exact

/-- The exact values of evaluated expressions. -/
def exactAll : List Evaluated → List Int
  | [] => []
  | operand :: operands => operand.exact :: exactAll operands

end

/-- An evaluated expression of integers and of dice and checks of bounded size, in which no
exponent is negative. -/
inductive Integral : Evaluated → Prop where
  | number (z : Int64) : Integral (.number (.integer z))
  | dice {rolled : Rolled} (hsize : rolled.rolls.length ≤ maxRolls) : Integral (.dice rolled)
  | check {rolled : RolledCheck} (hsize : rolled.rolled.rolls.length ≤ maxRolls) :
    Integral (.check rolled)
  | sum {terms : List Evaluated} (hterms : ∀ term ∈ terms, Integral term) :
    Integral (.arithmetic .sum terms)
  | product {factors : List Evaluated} (hfactors : ∀ factor ∈ factors, Integral factor) :
    Integral (.arithmetic .product factors)
  | power {base exponent : Evaluated} (hbase : Integral base) (hexponent : Integral exponent)
    (hnatural : 0 ≤ exponent.exact) : Integral (.arithmetic .power [base, exponent])
  | commented {body : Evaluated} {before after : Option String} (hbody : Integral body) :
    Integral (.commented body before after)

end Evaluated

end DiceNotation
