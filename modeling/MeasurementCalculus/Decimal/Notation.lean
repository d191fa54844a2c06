import MeasurementCalculus.Decimal.Shortest

/-!
# Written numbers

A number is written with its shortest digits, either positionally or with a power
of ten. A style says which numbers are written positionally and whether an
integer keeps a fraction.
-/

namespace MeasurementCalculus
namespace Decimal

/-- How a number is written. -/
structure Style where
  /-- Whether a number is written positionally, given the power of ten that its
  first digit stands for. -/
  positional : Int → Bool
  /-- Whether an integer that is written positionally ends in a zero after the
  point. -/
  keepsFraction : Bool

/-- Digits with a point in the right place. -/
def positionalText
    (keepsFraction : Bool)
    (digits : Digits) : String :=
  if 0 ≤ digits.exponent then
    Nat.repr digits.significand ++ zeros digits.exponent.toNat ++
      (if keepsFraction then ".0" else "")
  else pointedText (-digits.exponent).toNat digits.significand

/-- Digits with a point after the first one, and a power of ten. -/
def exponentText (digits : Digits) : String :=
  let text := (Nat.repr digits.significand).toList
  let tail := if text.length ≤ 1 then "" else "." ++ String.ofList text.tail
  String.ofList (text.take 1) ++ tail ++ "e" ++
    Int.repr digits.leadingExponent

/-- The text of a number in a style. A negative zero keeps its sign. -/
def Style.text
    (style : Style)
    (value : Float) : String :=
  match Binary.ofFloat value with
  | .nan => "NaN"
  | .infinite negative => if negative then "-inf" else "inf"
  | .finite negative mantissa exponent =>
      let digits := shortest mantissa exponent
      let magnitude :=
        if style.positional digits.leadingExponent then
          positionalText style.keepsFraction digits
        else exponentText digits
      if negative then "-" ++ magnitude else magnitude

end Decimal
end MeasurementCalculus
