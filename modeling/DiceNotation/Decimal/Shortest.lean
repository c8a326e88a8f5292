/-!
# The fewest digits that read back

A positive binary fraction `mantissa * 2 ^ exponent` with a 53-bit mantissa stands for every real
number nearest to it, which is an interval, its rounding cell. The fewest digits that read back as
the fraction are found on the coarsest decimal grid that has a point in the cell; of two such
points the nearer is taken, and the greater if both are equally near. All arithmetic is on natural
numbers, so nothing is rounded on the way.
-/

namespace DiceNotation.Decimal

/-- The real numbers that round to one value, as fractions with a common denominator. -/
structure RoundingCell where
  /-- The numerator of the lower end, halfway to the next smaller value. -/
  low : Nat
  /-- The numerator of the value itself. -/
  value : Nat
  /-- The numerator of the upper end, halfway to the next greater value. -/
  high : Nat
  /-- The denominator of all three. -/
  denominator : Nat
  /-- Whether the ends round to the value too, which is so exactly for an even mantissa. -/
  closed : Bool

/-- The cell of `mantissa * 2 ^ exponent`. The next smaller value is only half as far away when
the mantissa is the least one of its length. -/
def RoundingCell.ofBinary (mantissa : Nat) (exponent : Int) : RoundingCell :=
  let quarter := Nat.pow 2 (exponent - 2).toNat
  { low := (4 * mantissa - if mantissa = Nat.pow 2 52 then 1 else 2) * quarter
    value := 4 * mantissa * quarter
    high := (4 * mantissa + 2) * quarter
    denominator := Nat.pow 2 (2 - exponent).toNat
    closed := mantissa % 2 == 0 }

/-- The point of the grid with step `10 ^ unit` that lies in the cell and is nearest to its value,
if one of the two grid points around the value lies in the cell. -/
def RoundingCell.onGrid (cell : RoundingCell) (unit : Int) : Option Nat :=
  let finer := Nat.pow 10 (-unit).toNat
  let step := cell.denominator * Nat.pow 10 unit.toNat
  let below := cell.value * finer / step
  let inside (point : Nat) : Bool :=
    if cell.closed then cell.low * finer ≤ point * step && point * step ≤ cell.high * finer
    else cell.low * finer < point * step && point * step < cell.high * finer
  if inside below && inside (below + 1) then
    some (if step ≤ 2 * (cell.value * finer % step) then below + 1 else below)
  else if inside below then some below
  else if inside (below + 1) then some (below + 1)
  else none

/-- The least number of factors ten, at most `fuel`, that lift a fraction to at least one. -/
def liftToOne (denominator : Nat) : Nat → Nat → Nat
  | 0, _ => 0
  | fuel + 1, numerator =>
    if denominator ≤ numerator then 0 else liftToOne denominator fuel (numerator * 10) + 1

/-- The exponent of the leading decimal digit of a positive fraction. -/
def leadingExponent (numerator denominator : Nat) : Int :=
  if denominator ≤ numerator then (Nat.toDigits 10 (numerator / denominator)).length - 1
  else -(liftToOne denominator (denominator.log2 + 1) numerator : Int)

/-- A decimal number `digits * 10 ^ exponent`. -/
structure Scaled where
  /-- The digits, read as a natural number. -/
  digits : Nat
  /-- The power of ten they are scaled by. -/
  exponent : Int
deriving DecidableEq, Repr

/-- The fewest digits that read back as `mantissa * 2 ^ exponent`; 17 always suffice. -/
def shortest (mantissa : Nat) (exponent : Int) : Scaled :=
  let cell := RoundingCell.ofBinary mantissa exponent
  let leading := leadingExponent cell.value cell.denominator
  let hit := (List.range 17).findSome? fun (further : Nat) =>
    (cell.onGrid (leading - further)).map fun digits => Scaled.mk digits (leading - further)
  hit.getD ⟨0, 0⟩

end DiceNotation.Decimal
