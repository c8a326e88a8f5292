import DiceNotation.Decimal.Reading
import DiceNotation.Expression
import DiceNotation.Reading.Entries

/-!
# Building expressions

A written expression is turned into an expression, and its constant parts are calculated on the
way. The constant operands of a sum or product are combined into one residual, which stands behind
the other operands, in their written order, unless it is the identity of the operation. A
subtracted term is negated and a divisor is inverted: a number at once, anything else by a product
with -1 or a power of -1. A power needs two operands, and is calculated if both are numbers.
-/

namespace DiceNotation

open Decimal

/-- Why a written expression has no meaning. -/
inductive BuildError where
  /-- A power has some other number of operands than two. -/
  | powerArity (count : Nat)
  /-- Dice cannot be rolled, or a comparison is unknown. -/
  | dice (error : DiceError)
  /-- A number does not fit. -/
  | invalidNumber (text : String)
  /-- A constant part has no value. -/
  | calculation (error : ArithmeticError)
deriving DecidableEq, Repr

/-- The wording of a build error. -/
def BuildError.message : BuildError → String
  | .powerArity count => (ArithmeticError.powerArity count).message
  | .dice error => error.message
  | .invalidNumber text => "invalid number \"" ++ text ++ "\""
  | .calculation error =>
    "unable to calculate a constant part of the expression: " ++ error.message

/-- The operations that take any number of operands and fold their constants. -/
inductive Chain where
  /-- Sums. -/
  | sum
  /-- Products. -/
  | product
deriving DecidableEq, Repr

namespace Chain

/-- The number that changes nothing. -/
def identity : Chain → Number
  | sum => Number.zero
  | product => Number.one

/-- Combines two numbers. -/
def combine : Chain → Number → Number → Except ArithmeticError Number
  | sum => Number.add
  | product => Number.multiply

/-- The operation on some operands. -/
def toExpression : Chain → List Expression → Expression
  | sum, operands => .sum operands
  | product, operands => .product operands

/-- Combines the constants among some operands with a residual, and keeps the others. -/
def partition (chain : Chain) (residual : Number) :
    List Expression → Except ArithmeticError (Number × List Expression)
  | [] => .ok (residual, [])
  | .number x :: operands => do chain.partition (← chain.combine residual x) operands
  | operand :: operands => do
    let (residual, kept) ← chain.partition residual operands
    return (residual, operand :: kept)

/-- The operation on some operands with its constants folded. A single operand stands by itself. -/
def fold (chain : Chain) (operands : List Expression) : Except ArithmeticError Expression := do
  let (residual, kept) ← chain.partition chain.identity operands
  match kept with
  | [] => return .number residual
  | [operand] =>
    if residual == chain.identity then return operand
    else return chain.toExpression [operand, .number residual]
  | _ =>
    if residual == chain.identity then return chain.toExpression kept
    else return chain.toExpression (kept ++ [.number residual])

end Chain

/-- Makes a calculation part of building. -/
def calculated {α : Type} : Except ArithmeticError α → Except BuildError α :=
  Except.mapError .calculation

/-- The operation of some kind on some operands; only a power can refuse them. -/
def Expression.ofOperation (operation : Operation) (operands : List Expression) :
    Except BuildError Expression :=
  match operation, operands with
  | .sum, operands => .ok (.sum operands)
  | .product, operands => .ok (.product operands)
  | .power, [base, exponent] => .ok (.power base exponent)
  | .power, operands => .error (.powerArity operands.length)

/-- The negated expression. -/
def Expression.negate : Expression → Except BuildError Expression
  | .number x => return .number (← calculated x.negate)
  | body => .ok (.product [.number (.integer (-1)), body])

/-- The inverted expression. -/
def Expression.invert : Expression → Except BuildError Expression
  | .number x => return .number (← calculated (Number.one.divide x))
  | body => .ok (.power body (.number (.integer (-1))))

/-- The power of two operands, calculated if both are numbers. -/
def Expression.raise : List Expression → Except BuildError Expression
  | [.number base, .number exponent] => return .number (← calculated (base.power exponent))
  | operands => Expression.ofOperation .power operands

/-- Reads a count, a number of sides, a threshold or an argument. -/
def readCount (text : String) : Except BuildError UInt32 :=
  match readUInt32 text.toList with
  | some n => .ok n
  | none => .error (.invalidNumber text)

/-- The modifier of a word and its argument. -/
def ModifierWord.modifier : ModifierWord → UInt32 → Modifier
  | .explode, threshold => .explode threshold defaultExplosionCap
  | .highest, count => .keepHighest count
  | .lowest, count => .keepLowest count
  | .reroll, count => .rerollLowest count

/-- Dice that can be rolled. -/
def validDice (dice : Dice) : Except BuildError Dice :=
  match dice.validate with
  | .ok () => .ok dice
  | .error error => .error (.dice error)

/-- The dice that are written; a missing count is one. -/
def WrittenDice.build (written : WrittenDice) : Except BuildError Dice := do
  let count ← match written.count with
    | some text => readCount text
    | none => .ok 1
  let sides ← readCount written.sides
  match written.modifier with
  | some (word, text) => validDice ⟨count, sides, some (word.modifier (← readCount text))⟩
  | none => validDice ⟨count, sides, none⟩

namespace Node

mutual

/-- The expression that a node stands for. -/
def build : Node → Except BuildError Expression
  | integer digits =>
    match readInt64 digits.toList with
    | some z => .ok (.number (.integer z))
    | none => .error (.invalidNumber digits)
  | decimal digits =>
    match readFloat digits.toList with
    | some x => .ok (.number (.decimal x))
    | none => .error (.invalidNumber digits)
  | dice written => return .dice (← written.build)
  | check written comparison threshold => do
    let threshold ← readCount threshold
    let condition ← (Condition.ofSymbol comparison threshold).mapError .dice
    return .check ⟨← written.build, condition⟩
  | nb difficulty count => do
    let check := Check.nb (← readCount count) difficulty.threshold
    let _ ← validDice check.dice
    return .check check
  | negation body => do (← body.build).negate
  | power operands => do Expression.raise (← buildAll operands)
  | product first rest => do
    let first ← first.build
    calculated (Chain.product.fold (first :: (← buildFactors rest)))
  | sum first rest => do
    let first ← first.build
    calculated (Chain.sum.fold (first :: (← buildTerms rest)))

/-- The expressions that nodes stand for. -/
def buildAll : List Node → Except BuildError (List Expression)
  | [] => .ok []
  | node :: nodes => do
    let operand ← node.build
    return operand :: (← buildAll nodes)

/-- The factors of a product, divisors inverted. -/
def buildFactors : List (FactorSign × Node) → Except BuildError (List Expression)
  | [] => .ok []
  | (sign, node) :: rest => do
    let operand ← node.build
    let factor ← match sign with
      | .times => .ok operand
      | .over => operand.invert
    return factor :: (← buildFactors rest)

/-- The terms of a sum, subtracted ones negated. -/
def buildTerms : List (TermSign × Node) → Except BuildError (List Expression)
  | [] => .ok []
  | (sign, node) :: rest => do
    let operand ← node.build
    let term ← match sign with
      | .plus => .ok operand
      | .minus => operand.negate
    return term :: (← buildTerms rest)

end

end Node

/-- A comment without blanks around it; a blank comment is missing. -/
def trimComment (comment : Option String) : Option String :=
  comment.bind fun text =>
    match Text.trimBlanks text.toList with
    | [] => none
    | trimmed => some (String.ofList trimmed)

/-- The expression of an entry, with its comments if it has any. -/
def Entry.build (entry : Entry) : Except BuildError Expression := do
  let body ← entry.node.build
  match trimComment entry.before, trimComment entry.after with
  | none, none => return body
  | before, after => return .commented body before after

/-- The expressions of some entries. -/
def buildEntries : List Entry → Except BuildError (List Expression)
  | [] => .ok []
  | entry :: entries => do
    let expression ← entry.build
    return expression :: (← buildEntries entries)

/-- The expression of the entries of a text: a single entry by itself, several as a list. -/
def Expression.ofEntries (entries : List Entry) : Except BuildError Expression := do
  match ← buildEntries entries with
  | [expression] => return expression
  | expressions => return .list expressions

end DiceNotation
