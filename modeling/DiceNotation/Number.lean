import DiceNotation.Decimal.Layout
import DiceNotation.Dice.Rolled

/-!
# Numbers

A number is an integer of 64 bits or a decimal number. Integers stay integers for as long as both
operands of an operation are integers and its result cannot be a fraction; division always gives a
decimal number. An integer result is exact, and one that does not fit is an overflow. A decimal
result is rounded once by the floating-point operation, and has to be finite.
-/

namespace DiceNotation

/-- Why a calculation has no result. -/
inductive ArithmeticError where
  /-- The result lies outside the range of its kind of number. -/
  | overflow
  /-- The divisor is zero; raising zero to a negative power divides by zero too. -/
  | divisionByZero
  /-- The result is not a real number. -/
  | notReal
  /-- A list of results stands where a single number is needed. -/
  | notANumber
  /-- A power has some other number of operands than two. -/
  | powerArity (count : Nat)
  /-- The total of rolled dice does not fit. -/
  | total (rolled : Rolled)
deriving DecidableEq, Repr

/-- The wording of an arithmetic error. -/
def ArithmeticError.message : ArithmeticError → String
  | .overflow => "integer overflow"
  | .divisionByZero => "division by zero"
  | .notReal => "result is not a real number"
  | .notANumber => "a list of results can't be used in arithmetic"
  | .powerArity count =>
    "raising to a power needs exactly two operands, got " ++ toString count
  | .total _ => "dice error while calculating: integer overflow"

/-- A single numeric value. -/
inductive Number where
  /-- A whole number. -/
  | integer (value : Int64)
  /-- A decimal number. -/
  | decimal (value : Float)
deriving DecidableEq

namespace Number

/-- The identity of addition. -/
def zero : Number := .integer 0

/-- The identity of multiplication. -/
def one : Number := .integer 1

/-- The least and the greatest integer are -2^63 and 2^63 - 1. -/
def Fits (z : Int) : Prop := -Int.pow 2 63 ≤ z ∧ z < Int.pow 2 63

instance (z : Int) : Decidable (Fits z) := inferInstanceAs (Decidable (_ ∧ _))

/-- An exact integer result, which has to fit. -/
def ofInt (z : Int) : Except ArithmeticError Number :=
  if Fits z then .ok (.integer (Int64.ofInt z)) else .error .overflow

/-- A decimal result, which has to be a finite number. -/
def ofFloat (x : Float) : Except ArithmeticError Number :=
  if x.isNaN then .error .notReal
  else if x.isInf then .error .overflow
  else .ok (.decimal x)

/-- The value as a decimal number; an integer that has none goes to the nearest. -/
def toFloat : Number → Float
  | .integer z => Float.ofInt z.toInt
  | .decimal x => x

/-- Whether the number is of the integer kind. -/
def isInteger : Number → Bool
  | .integer _ => true
  | .decimal _ => false

/-- Whether the number is zero, of either kind and either sign. -/
def isZero : Number → Bool
  | .integer z => z == 0
  | .decimal x => x == 0.0

/-- Whether the number lies below zero. -/
def isNegative : Number → Bool
  | .integer z => z < 0
  | .decimal x => x < 0.0

/-- The number with the opposite sign. -/
def negate : Number → Except ArithmeticError Number
  | .integer z => ofInt (-z.toInt)
  | .decimal x => .ok (.decimal (-x))

/-- The sum of two numbers. -/
def add : Number → Number → Except ArithmeticError Number
  | .integer a, .integer b => ofInt (a.toInt + b.toInt)
  | a, b => ofFloat (a.toFloat + b.toFloat)

/-- The product of two numbers. -/
def multiply : Number → Number → Except ArithmeticError Number
  | .integer a, .integer b => ofInt (a.toInt * b.toInt)
  | a, b => ofFloat (a.toFloat * b.toFloat)

/-- The quotient of two numbers, which is never of the integer kind. -/
def divide (a b : Number) : Except ArithmeticError Number :=
  if b.isZero then .error .divisionByZero else ofFloat (a.toFloat / b.toFloat)

/-- An integer, if it fits. -/
def fitting? (z : Int) : Option Int := if Fits z then some z else none

/-- A product times the power of a base, by repeated squaring: the binary digits of the exponent are
taken from the lowest to the highest, and every product on the way has to fit. -/
def timesPower? (product base : Int) (exponent : Nat) : Option Int :=
  if exponent = 0 then some product
  else (if exponent % 2 = 1 then fitting? (product * base) else some product).bind fun product =>
    if exponent = 1 then some product
    else (fitting? (base * base)).bind fun square => timesPower? product square (exponent / 2)

/-- The power of -1, 0 or 1, which fits for every exponent. -/
def unitPower (base : Int) (exponent : Nat) : Int :=
  if exponent = 0 ∨ base = 1 then 1
  else if base = 0 then 0
  else if exponent % 2 = 0 then 1
  else -1

/-- The power of an integer with a natural exponent. For any base but -1, 0 and 1, an exponent of
more than 32 bits is an overflow. -/
def integerPower (base : Int) (exponent : Nat) : Except ArithmeticError Number :=
  if base.natAbs ≤ 1 then .ok (.integer (Int64.ofInt (unitPower base exponent)))
  else if Nat.pow 2 32 ≤ exponent then .error .overflow
  else match timesPower? 1 base exponent with
    | some z => .ok (.integer (Int64.ofInt z))
    | none => .error .overflow

/-- One number raised to the power of another. -/
def power (base exponent : Number) : Except ArithmeticError Number :=
  if base.isZero && exponent.isNegative then .error .divisionByZero
  else match base, exponent with
    | .integer b, .integer e =>
      if 0 ≤ e then integerPower b.toInt e.toInt.toNat
      else ofFloat (base.toFloat.pow exponent.toFloat)
    | base, exponent => ofFloat (base.toFloat.pow exponent.toFloat)

/-- Numeric equality, in which 2 and 2.0 are equal. -/
protected def beq : Number → Number → Bool
  | .integer a, .integer b => a == b
  | a, b => a.toFloat == b.toFloat

instance : BEq Number := ⟨Number.beq⟩

/-- Numeric order; what is no number is not comparable with anything. -/
def compare? : Number → Number → Option Ordering
  | .integer a, .integer b => some (compare a.toInt b.toInt)
  | a, b =>
    let x := a.toFloat
    let y := b.toFloat
    if x < y then some .lt
    else if x == y then some .eq
    else if y < x then some .gt
    else none

/-- The written form: an integer plainly, a decimal number always with a fraction or an exponent. -/
def text : Number → String
  | .integer z => toString z.toInt
  | .decimal x => Decimal.Layout.plain.write x

end Number

/-- The result of a calculation. -/
inductive Value where
  /-- A single number. -/
  | number (value : Number)
  /-- The results of independent expressions, in order. -/
  | list (values : List Value)

namespace Value

/-- The single number that a value holds. -/
def toNumber? : Value → Option Number
  | .number x => some x
  | .list _ => none

/-- The single number that a value holds; a list holds none. -/
def toNumber : Value → Except ArithmeticError Number
  | .number x => .ok x
  | .list _ => .error .notANumber

mutual

/-- The written form: a number as it is, a list in square brackets. -/
def text : Value → String
  | .number x => x.text
  | .list values => "[" ++ ", ".intercalate (texts values) ++ "]"

/-- The written forms of several values. -/
def texts : List Value → List String
  | [] => []
  | value :: values => value.text :: texts values

end

mutual

/-- Equality of values, in which numbers are compared numerically. -/
protected def beq : Value → Value → Bool
  | .number x, .number y => x == y
  | .list xs, .list ys => beqList xs ys
  | _, _ => false

/-- Equality of lists of values. -/
def beqList : List Value → List Value → Bool
  | [], [] => true
  | x :: xs, y :: ys => x.beq y && beqList xs ys
  | _, _ => false

end

instance : BEq Value := ⟨Value.beq⟩

end Value

end DiceNotation
