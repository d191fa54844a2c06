import MeasurementCalculus.Command
import MeasurementCalculus.Text.Number

/-!
# Commands in texts

Messages show a command as a constructor applied to its arguments. A measurement
names its fields.
-/

namespace MeasurementCalculus

namespace Qubit

/-- A qubit as an argument of a command. -/
def argumentText (qubit : Qubit) : String :=
  "Qubit(" ++ Nat.repr qubit ++ ")"

/-- A list of qubits as an argument of a command. -/
def listText (qubits : List Qubit) : String :=
  "[" ++ ", ".intercalate (qubits.map argumentText) ++ "]"

end Qubit

namespace Command

/-- The text of a command in messages. -/
def text : Command Float → String
  | .entangle first second =>
      "Entangle(" ++ first.argumentText ++ ", " ++ second.argumentText ++ ")"
  | .measure qubit angle s t =>
      "Measure \x7b qubit: " ++ qubit.argumentText ++
        ", angle: " ++ Decimal.angleStyle.text angle ++
        ", s: " ++ Qubit.listText s ++
        ", t: " ++ Qubit.listText t ++ " \x7d"
  | .correctX qubit signals =>
      "XCorrect(" ++ qubit.argumentText ++ ", " ++ Qubit.listText signals ++ ")"
  | .correctZ qubit signals =>
      "ZCorrect(" ++ qubit.argumentText ++ ", " ++ Qubit.listText signals ++ ")"

end Command

end MeasurementCalculus
