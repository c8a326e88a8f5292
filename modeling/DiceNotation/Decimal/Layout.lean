import DiceNotation.Decimal.Shortest

/-!
# The written form of a decimal number

A decimal number is written with the fewest digits that read back. How these digits are laid out
is one record of choices: which magnitudes are written positionally, and how an exponent, an
infinity and a value that is no number look.
-/

namespace DiceNotation.Decimal

/-- The choices of a written form. -/
structure Layout where
  /-- The least exponent of the leading digit that is written positionally. -/
  positionalFrom : Int
  /-- The exponent of the leading digit from which on an exponent is written. -/
  exponentialFrom : Int
  /-- The least number of digits of an exponent, which always has a sign. -/
  exponentWidth : Nat
  /-- The text of an infinite value, without its sign. -/
  infinity : String
  /-- The text of a value that is no number. -/
  notANumber : String

/-- Values from 0.0001 up to 10^16 are written positionally, with at least one digit after the
point, and an exponent has at least two digits. -/
def Layout.plain : Layout := ⟨-4, 16, 2, "inf", "NaN"⟩

/-- What a floating-point number is apart from its sign. -/
inductive Magnitude where
  /-- No number at all. -/
  | notANumber
  /-- An infinite magnitude. -/
  | infinite
  /-- The magnitude `mantissa * 2 ^ exponent`. -/
  | finite (mantissa : Nat) (exponent : Int)
deriving DecidableEq, Repr

/-- The magnitude of a 64-bit floating-point number, from the fields of its encoding. -/
def magnitude (x : Float) : Magnitude :=
  let bits := x.toBits.toNat
  let field : Nat := bits / Nat.pow 2 52 % Nat.pow 2 11
  let fraction := bits % Nat.pow 2 52
  if field = Nat.pow 2 11 - 1 then
    if fraction = 0 then .infinite else .notANumber
  else if field = 0 then .finite fraction (-1074)
  else .finite (Nat.pow 2 52 + fraction) ((field : Int) - 1075)

/-- Whether the sign of a floating-point number is set, which it may be for zero too. -/
def isSigned (x : Float) : Bool := Nat.pow 2 63 ≤ x.toBits.toNat

/-- The significant digits of a decimal number and the exponent of the first of them. -/
def significant (number : Scaled) : List Char × Int :=
  let digits := Nat.toDigits 10 number.digits
  match (digits.reverse.dropWhile (· == '0')).reverse with
  | [] => (['0'], 0)
  | kept => (kept, number.exponent + digits.length - 1)

/-- Fills a text up to a width with zeros in front. -/
def padded (width : Nat) (digits : List Char) : List Char :=
  List.replicate (width - digits.length) '0' ++ digits

/-- Lays out significant digits around the decimal point. -/
def positional (digits : List Char) (leading : Int) : List Char :=
  if 0 ≤ leading then
    let width := leading.toNat + 1
    let whole := digits.take width ++ List.replicate (width - digits.length) '0'
    let fraction := if digits.length ≤ width then ['0'] else digits.drop width
    whole ++ '.' :: fraction
  else '0' :: '.' :: List.replicate ((-leading).toNat - 1) '0' ++ digits

/-- Lays out significant digits with one digit before the point, and an exponent. -/
def exponential (width : Nat) (digits : List Char) (leading : Int) : List Char :=
  let mantissa := match digits with
    | first :: second :: rest => first :: '.' :: second :: rest
    | short => short
  let sign := if leading < 0 then '-' else '+'
  mantissa ++ 'e' :: sign :: padded width (Nat.toDigits 10 leading.natAbs)

/-- The written form of a magnitude. -/
def Layout.writeMagnitude (layout : Layout) : Magnitude → List Char
  | .notANumber => layout.notANumber.toList
  | .infinite => layout.infinity.toList
  | .finite mantissa exponent =>
    let (digits, leading) :=
      if mantissa = 0 then (['0'], 0) else significant (shortest mantissa exponent)
    if layout.positionalFrom ≤ leading ∧ leading < layout.exponentialFrom then
      positional digits leading
    else exponential layout.exponentWidth digits leading

/-- The written form of a floating-point number. -/
def Layout.write (layout : Layout) (x : Float) : String :=
  let text := layout.writeMagnitude (magnitude x)
  String.ofList (if isSigned x && magnitude x ≠ .notANumber then '-' :: text else text)

end DiceNotation.Decimal
