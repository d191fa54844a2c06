import MeasurementCalculus.Error
import MeasurementCalculus.WellFormed

/-!
# Standard form

A pattern is in standard form when its entanglements come first, then its
measurements, then its corrections. An entanglement moves to the front and
leaves a Z correction behind every X correction that it passes on one of its
qubits. A correction moves to the end, unless the measurement of its qubit
absorbs its signals, or its signals cancel.
-/

namespace MeasurementCalculus

namespace StandardForm

variable {R : Type}

/-- Whether no command comes too late, after commands of which some are measurements or
corrections as told. -/
def isStandardFrom (seenMeasure seenCorrection : Bool) : List (Command R) → Bool
  | [] => true
  | .entangle _ _ :: rest =>
      if seenMeasure || seenCorrection then false
      else isStandardFrom seenMeasure seenCorrection rest
  | .measure _ _ _ _ :: rest =>
      if seenCorrection then false else isStandardFrom true seenCorrection rest
  | .correctX _ _ :: rest => isStandardFrom seenMeasure true rest
  | .correctZ _ _ :: rest => isStandardFrom seenMeasure true rest

/-- Entanglements, then measurements, then corrections. -/
def isStandard (commands : List (Command R)) : Bool :=
  isStandardFrom false false commands

/-! ## Moving entanglements to the front -/

/-- The correction that an entanglement of two qubits leaves behind when it
passes a command on its way to the front. -/
def spawned
    (first second : Qubit)
    (passed : Command R) : Option (Command R) :=
  match passed with
  | .correctX qubit signals =>
      if qubit = first then some (.correctZ second signals)
      else if qubit = second then some (.correctZ first signals)
      else none
  | _ => none

/-- What becomes of commands when an entanglement of two qubits moves in front
of them. -/
def pass
    (first second : Qubit)
    (commands : List (Command R)) : List (Command R) :=
  commands.flatMap fun command =>
    command :: (spawned first second command).toList

@[simp] theorem pass_nil (first second : Qubit) :
    pass first second ([] : List (Command R)) = [] := rfl

@[simp] theorem pass_cons
    (first second : Qubit)
    (command : Command R)
    (rest : List (Command R)) :
    pass first second (command :: rest) =
      command :: ((spawned first second command).toList ++
        pass first second rest) := by
  simp [pass]

/-- The commands of a pattern with the entanglements taken out to the front. -/
structure Separated (R : Type) where
  /-- The entanglements in the order of the pattern. -/
  entanglements : List (Command R) := []
  /-- Everything else, with the corrections that were left behind. -/
  others : List (Command R) := []

/-- Take one more command of the pattern into account. -/
def Separated.push
    (separated : Separated R)
    (command : Command R) : Separated R :=
  match command with
  | .entangle first second =>
      { entanglements := separated.entanglements ++ [command]
        others := pass first second separated.others }
  | _ => { separated with others := separated.others ++ [command] }

/-- Move every entanglement to the front. -/
def separate (commands : List (Command R)) : Separated R :=
  commands.foldl Separated.push {}

/-! ## Moving corrections to the end -/

/-- The signals of a command if it is an X correction on the given qubit. -/
def signalsX?
    (qubit : Qubit)
    (command : Command R) : Option Signals :=
  match command with
  | .correctX target signals => if target = qubit then some signals else none
  | _ => none

/-- The signals of a command if it is a Z correction on the given qubit. -/
def signalsZ?
    (qubit : Qubit)
    (command : Command R) : Option Signals :=
  match command with
  | .correctZ target signals => if target = qubit then some signals else none
  | _ => none

/-- Whether a command is a correction on the given qubit. -/
def corrects
    (qubit : Qubit)
    (command : Command R) : Bool :=
  (signalsX? qubit command).isSome || (signalsZ? qubit command).isSome

/-- Whether a correction fires under some outcomes of its signals. -/
def isEffective (correction : Command R) : Bool :=
  !correction.signals.cancels

/-- Settle commands that follow pending corrections, the latest one first.
The order in which a measurement merges their signals does not matter,
because only parities count. -/
def settleFrom (pending : List (Command R)) : List (Command R) → List (Command R)
  | [] => (pending.filter isEffective).reverse
  | .measure qubit angle s t :: rest =>
      let flips := pending.filterMap (signalsX? qubit)
      let shifts := pending.filterMap (signalsZ? qubit)
      let remaining := pending.filter fun correction => !corrects qubit correction
      .measure qubit angle (flips.foldl Signals.merge s)
          (shifts.foldl Signals.merge t) ::
        settleFrom remaining rest
  | .entangle first second :: rest =>
      .entangle first second :: settleFrom pending rest
  | correction :: rest => settleFrom (correction :: pending) rest

/-- Fold every correction into the measurement of its qubit, if one follows, and
move the others to the end. -/
def settle (commands : List (Command R)) : List (Command R) :=
  settleFrom [] commands

/-- Bring a list of commands into standard form. -/
def ofCommands (commands : List (Command R)) : List (Command R) :=
  let separated := separate commands
  separated.entanglements ++ settle separated.others

end StandardForm

namespace Pattern

variable {R : Type}

/-- Whether a pattern is in standard form. -/
def isStandard (pattern : Pattern R) : Bool :=
  StandardForm.isStandard pattern.commands

/-- Bring a well-formed pattern into standard form. The rules are sound only for
well-formed patterns, so every other one is refused. -/
def standardize (pattern : Pattern R) : Except (Error R) (Pattern R) :=
  match pattern.check with
  | .error breaches => .error (.illFormed breaches)
  | .ok _ =>
      .ok { pattern with commands := StandardForm.ofCommands pattern.commands }

end Pattern

end MeasurementCalculus
