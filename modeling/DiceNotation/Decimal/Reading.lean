/-!
# Reading numbers

Whole numbers and decimal numbers are read from text. A whole number is an optional sign and
digits; a decimal number may have a point and an exponent. Nothing else is accepted: no blanks, no
separators and no empty digits. A number that does not fit its range is refused, and a decimal
number is rounded to the nearest floating-point number, a tie going to the even one.
-/

namespace DiceNotation.Decimal

/-- The value of a text of one or more digits. -/
def readDigits (text : List Char) : Option Nat :=
  if text ≠ [] ∧ text.all Char.isDigit then some (Nat.ofDigitChars 10 text 0) else none

/-- Reads a count below 2^32; a plus sign may stand in front. -/
def readUInt32 (text : List Char) : Option UInt32 :=
  let digits := match text with
    | '+' :: rest => rest
    | _ => text
  (readDigits digits).bind fun n => if n < Nat.pow 2 32 then some (UInt32.ofNat n) else none

/-- Reads digits; either sign may stand in front. -/
def readSigned (text : List Char) : Option Int :=
  match text with
  | '+' :: rest => (readDigits rest).map Int.ofNat
  | '-' :: rest => (readDigits rest).map fun n => -Int.ofNat n
  | _ => (readDigits text).map Int.ofNat

/-- Reads an integer that fits 64 bits; either sign may stand in front. -/
def readInt64 (text : List Char) : Option Int64 :=
  (readSigned text).bind fun z =>
    if -Int.pow 2 63 ≤ z ∧ z < Int.pow 2 63 then some (Int64.ofInt z) else none

/-- The floating-point number nearest to `digits * 10 ^ exponent`. -/
def nearest (digits : Nat) (exponent : Int) : Float :=
  Float.ofScientific digits (exponent < 0) exponent.natAbs

/-- Reads digits with an optional point and an optional exponent. -/
def readUnsigned (text : List Char) : Option Float :=
  let whole := text.takeWhile Char.isDigit
  let (fraction, rest) := match text.dropWhile Char.isDigit with
    | '.' :: rest => (rest.takeWhile Char.isDigit, rest.dropWhile Char.isDigit)
    | rest => ([], rest)
  let exponent := match rest with
    | [] => some 0
    | mark :: rest => if mark = 'e' ∨ mark = 'E' then readSigned rest else none
  if whole ++ fraction = [] then none
  else exponent.map fun shift =>
    nearest (Nat.ofDigitChars 10 (whole ++ fraction) 0) (shift - fraction.length)

/-- Reads a decimal number; either sign may stand in front. What is too great for a finite
floating-point number is refused. -/
def readFloat (text : List Char) : Option Float :=
  let value := match text with
    | '+' :: rest => readUnsigned rest
    | '-' :: rest => (readUnsigned rest).map Float.neg
    | _ => readUnsigned text
  value.filter Float.isFinite

end DiceNotation.Decimal
