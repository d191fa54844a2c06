import MeasurementCalculus.Error
import MeasurementCalculus.Text.Command

/-!
# Messages

The texts of violations and errors.
-/

namespace MeasurementCalculus

namespace Condition

/-- The label under which a broken condition is reported. -/
def label : Condition → String
  | .measuredSignal => "D0"
  | .unmeasuredTarget => "D1"
  | .preparedTarget => "D2"
  | .contiguous => "D4"
  | .singlePreparation => "duplicate preparation"
  | .distinctPair => "self-entanglement"

end Condition

namespace Violation

/-- The text of a violation: the label of the condition, the command if there is
one, and the description. -/
def text (violation : Violation Float) : String :=
  "[" ++ violation.condition.label ++ "] " ++
    (match violation.place with
    | some (index, command) =>
        "command #" ++ Nat.repr index ++ " " ++ command.text ++ ": "
    | none => "") ++
    violation.message

/-- All violations in one line. -/
def listText (violations : List (Violation Float)) : String :=
  "; ".intercalate (violations.map text)

/-- The first of several violations and the number of the others. -/
def summary : List (Violation Float) → String
  | [] => "no violations recorded"
  | [only] => only.text
  | first :: rest =>
      first.text ++ " (and " ++ Nat.repr rest.length ++ " more)"

end Violation

namespace DirectiveFault

/-- The description of a faulty directive. -/
def text : DirectiveFault → String
  | .undefinedInput input arity =>
      "input wire " ++ Nat.repr input ++ " is undefined (template has " ++
        Nat.repr arity ++ " inputs)"
  | .unallocatedAncilla ancilla allocated =>
      "ancilla " ++ Nat.repr ancilla ++ " is used before allocation (" ++
        Nat.repr allocated ++ " allocated)"
  | .emptyBatch => "empty ancilla batch"
  | .singleWireCZ qubit => "CZ on a single wire (" ++ qubit.label ++ ")"
  | .singleWireJ qubit =>
      "J input and output are the same wire (" ++ qubit.label ++ ")"

end DirectiveFault

namespace TemplateFault

/-- The description of a fault of a template. -/
def text : TemplateFault Float → String
  | .directive index fault =>
      "directive #" ++ Nat.repr index ++ ": " ++ fault.text
  | .illFormed violations =>
      "lowered pattern is not well-formed: " ++ Violation.listText violations
  | .described text => text

end TemplateFault

namespace NumericContext

/-- The description of the place where a total was checked. -/
def text : NumericContext → String
  | .initialState => "initial product state"
  | .measurement qubit index =>
      "measurement of " ++ qubit.label ++ " (command #" ++ Nat.repr index ++ ")"
  | .collapse qubit index =>
      "collapse of " ++ qubit.label ++ " (command #" ++ Nat.repr index ++ ")"
  | .impossibleOutcome qubit bit index =>
      "collapse of " ++ qubit.label ++ " onto impossible outcome " ++
        Nat.repr bit.toNat ++ " (command #" ++ Nat.repr index ++ ")"
  | .exactDistribution => "exact distribution"
  | .described text => text

end NumericContext

namespace Refusal

/-- The reason of a refusal. -/
def text : Refusal Float → String
  | .rejected violations =>
      "cannot evaluate a rejected pattern: " ++ Violation.listText violations
  | .tooManyQubits width limit =>
      "pattern uses " ++ Nat.repr width ++ " qubits, simulator is limited to " ++
        Nat.repr limit
  | .described text _ => text

end Refusal

namespace InternalFault

/-- The description of a broken invariant. -/
def text : InternalFault → String
  | .outOfRange qubit width =>
      "qubit " ++ qubit.label ++ " is outside the checked range 0.." ++
        Nat.repr width
  | .unprepared qubit => "qubit " ++ qubit.label ++ " has no preparation"
  | .unrecorded qubit =>
      "outcome of " ++ qubit.label ++ " read before it was measured"
  | .measurementApplied index =>
      "command #" ++ Nat.repr index ++
        " is a measurement and must be sampled or branched"
  | .described text => text

end InternalFault

namespace Error

/-- The message of an error. -/
def message : Error Float → String
  | .illFormed violations =>
      "pattern is not well-formed: " ++ Violation.summary violations
  | .template name fault =>
      "template '" ++ name ++ "' failed to compile: " ++ fault.text
  | .numeric context total tolerance =>
      "numeric consistency lost during " ++ context.text ++
        ": total probability " ++ Decimal.totalStyle.text total ++
        " deviates from 1 by more than " ++ Decimal.toleranceStyle.text tolerance
  | .refused reason => "precondition violated: " ++ reason.text
  | .internal fault => "internal engine error: " ++ fault.text

end Error

end MeasurementCalculus
