import MeasurementCalculus.Decimal.Binary

/-!
# Decimal digits

The number of decimal digits of a natural number, the position of the decimal
point of a fraction, the removal of final zeros, and the text of a number with a
point inside its digits.
-/

namespace MeasurementCalculus
namespace Decimal

/-- The number of decimal digits of a natural number; zero has none. -/
def digitCount (n : Nat) : Nat :=
  if n = 0 then 0 else digitCount (n / 10) + 1

/-- The position `p` of the point of a positive fraction: the fraction is less
than `10 ^ p` and at least `10 ^ (p - 1)`. -/
def pointPosition (numerator denominator : Nat) : Int :=
  if denominator ≤ numerator then digitCount (numerator / denominator)
  else 1 - digitCount ((denominator - 1) / numerator)

/-- A number of zeros. -/
def zeros (count : Nat) : String :=
  String.ofList (List.replicate count '0')

/-- The digits of a natural number with a point before the last `places` of them,
and with zeros in front if there are not enough digits. -/
def pointedText (places n : Nat) : String :=
  let digits := (Nat.repr n).toList
  let padded := List.replicate (places + 1 - digits.length) '0' ++ digits
  let whole := padded.length - places
  String.ofList (padded.take whole) ++ "." ++ String.ofList (padded.drop whole)

/-- The decimal number `significand * 10 ^ exponent`. -/
structure Digits where
  /-- The digits as a natural number. -/
  significand : Nat
  /-- The power of ten that the last digit stands for. -/
  exponent : Int
  deriving DecidableEq

namespace Digits

/-- Remove at most `fuel` final zeros. -/
def stripZeros : Nat → Digits → Digits
  | 0, digits => digits
  | fuel + 1, digits =>
      if digits.significand % 10 = 0 then
        stripZeros fuel ⟨digits.significand / 10, digits.exponent + 1⟩
      else digits

/-- The same number without final zeros; zero is written with exponent zero. -/
def trimmed (digits : Digits) : Digits :=
  if digits.significand = 0 then ⟨0, 0⟩
  else stripZeros (digitCount digits.significand) digits

/-- The power of ten that the first digit stands for. -/
def leadingExponent (digits : Digits) : Int :=
  digits.exponent + (digitCount digits.significand - 1 : Nat)

end Digits

end Decimal
end MeasurementCalculus
