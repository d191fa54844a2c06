import MeasurementCalculus.Distribution
import MeasurementCalculus.Register
import MeasurementCalculus.Text.Number

/-!
# Results in texts

The texts of outcomes, distributions and registers.
-/

namespace MeasurementCalculus

namespace Outcome

/-- The text of an outcome: every measured qubit with its value. -/
def text (outcome : Outcome) : String :=
  let pairs := outcome.bits.map fun (qubit, value) =>
    qubit.label ++ "=" ++ Nat.repr value.toNat
  "[" ++ ", ".intercalate pairs ++ "]"

end Outcome

namespace Distribution

/-- The text of a distribution: a line with the number of outcomes, and a line
for each outcome with its probability to six places. -/
def text (distribution : Distribution Float) : String :=
  let lines := distribution.entries.map fun (outcome, probability) =>
    "  " ++ outcome.text ++ ": " ++ Decimal.fixedText 6 probability ++ "\n"
  "Distribution (" ++ Nat.repr distribution.entries.length ++ " outcomes):\n" ++
    String.join lines

end Distribution

namespace Amplitude

/-- The text of an amplitude to four places. The sign between the parts is a
minus only if the imaginary part is less than zero; a negative zero keeps its own
sign behind a plus. -/
def text (amplitude : Amplitude Float) : String :=
  let isNegative := amplitude.im < 0
  let magnitude := if isNegative then -amplitude.im else amplitude.im
  Decimal.fixedText 4 amplitude.re ++ (if isNegative then "-" else "+") ++
    Decimal.fixedText 4 magnitude ++ "i"

end Amplitude

namespace Register

/-- The text of a register: its amplitudes in the order of the basis states. -/
def text {n : Nat} (register : Register (Amplitude Float) n) : String :=
  "State[" ++ ", ".intercalate (register.toList.map Amplitude.text) ++ "]"

end Register

end MeasurementCalculus
