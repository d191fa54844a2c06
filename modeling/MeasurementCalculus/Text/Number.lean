import MeasurementCalculus.Decimal.Fixed
import MeasurementCalculus.Decimal.Notation

/-!
# Numbers in texts

The styles in which commands and messages write their numbers.
-/

namespace MeasurementCalculus
namespace Decimal

/-- Angles are written positionally from one ten-thousandth up to, and without,
ten to the power sixteen, and an integer keeps a zero after the point. -/
def angleStyle : Style where
  positional exponent := -4 ≤ exponent && exponent < 16
  keepsFraction := true

/-- Totals are always written positionally, and integers without a point. -/
def totalStyle : Style where
  positional _ := true
  keepsFraction := false

/-- Tolerances are always written with a power of ten. -/
def toleranceStyle : Style where
  positional _ := false
  keepsFraction := false

end Decimal
end MeasurementCalculus
