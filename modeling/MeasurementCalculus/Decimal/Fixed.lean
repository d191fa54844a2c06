import MeasurementCalculus.Decimal.Digits

/-!
# Fixed places

A number is rounded to a fixed number of places after the point.
The rounding starts from the exact value of the floating-point
number, so that no digit is rounded twice, and a tie goes to the
even neighbour.
-/

namespace MeasurementCalculus
namespace Decimal

/-- The integer nearest to a fraction; a tie goes to the even one. -/
def roundHalfEven (numerator denominator : Nat) : Nat :=
  let below := numerator / denominator
  let rest := numerator % denominator
  if 2 * rest < denominator then below
  else if denominator < 2 * rest then below + 1
  else below + below % 2

/-- The text of a number with a fixed, positive number of places. A negative
number keeps its sign even when it is rounded to zero. -/
def fixedText
    (places : Nat)
    (value : Float) : String :=
  match Binary.ofFloat value with
  | .nan => "NaN"
  | .infinite negative => if negative then "-inf" else "inf"
  | .finite negative mantissa exponent =>
      let scaled := roundHalfEven
        (raise 2 (raise 10 mantissa places) exponent) (raise 2 1 (-exponent))
      (if negative then "-" else "") ++ pointedText places scaled

end Decimal
end MeasurementCalculus
