import MeasurementCalculus.Pattern
import MeasurementCalculus.Violation

/-!
# Well-formedness

A pattern is well-formed when every qubit is prepared once, the prepared qubits
are numbered from zero without a gap, entanglements join two different qubits,
and every command acts on prepared qubits that are not yet measured and reads
only outcomes that are already recorded. One walk over the commands collects
every breach, in program order, between the repeated preparations and the gaps
in the numbering.
-/

namespace MeasurementCalculus

namespace WellFormed

variable {R : Type}

/-- The occurrences of qubits that are in `seen` or repeat an earlier one. -/
def repeated (seen : QubitSet) : List Qubit → List Qubit
  | [] => []
  | qubit :: rest =>
      if seen.contains qubit then qubit :: repeated seen rest
      else repeated (seen.insert qubit) rest

/-- The measured qubits after a command, given those before it. -/
def recordMeasured
    (measured : QubitSet)
    (command : Command R) : QubitSet :=
  match command.measured? with
  | some qubit => measured.insert qubit
  | none => measured

/-- The breach of a command that entangles a qubit with itself. -/
def pairViolations
    (index : Nat)
    (command : Command R) : List (Violation R) :=
  match command with
  | .entangle first second =>
      if first = second then [.selfEntanglement index command first] else []
  | _ => []

/-- The breaches of a command at one of its targets. -/
def targetViolations
    (prepared measured : QubitSet)
    (index : Nat)
    (command : Command R)
    (target : Qubit) : List (Violation R) :=
  (if prepared.contains target then []
    else [.unpreparedTarget index command target]) ++
  (if measured.contains target then [.measuredTarget index command target]
    else [])

/-- The breaches of a command at one of its signals. -/
def signalViolations
    (measured : QubitSet)
    (index : Nat)
    (command : Command R)
    (signal : Qubit) : List (Violation R) :=
  if measured.contains signal then []
  else [.unmeasuredSignal index command signal]

/-- Every breach of one command, given the prepared qubits and the qubits
measured before it. -/
def commandViolations
    (prepared measured : QubitSet)
    (index : Nat)
    (command : Command R) : List (Violation R) :=
  pairViolations index command ++
    command.targets.flatMap
      (targetViolations prepared measured index command) ++
    command.signals.flatMap (signalViolations measured index command)

/-- Every breach of a list of commands whose first one has the given position. -/
def walk
    (prepared measured : QubitSet)
    (index : Nat) : List (Command R) → List (Violation R)
  | [] => []
  | command :: rest =>
      commandViolations prepared measured index command ++
        walk prepared (recordMeasured measured command) (index + 1) rest

@[simp] theorem walk_nil
    (prepared measured : QubitSet)
    (index : Nat) :
    walk prepared measured index ([] : List (Command R)) = [] := rfl

@[simp] theorem walk_cons
    (prepared measured : QubitSet)
    (index : Nat)
    (command : Command R)
    (rest : List (Command R)) :
    walk prepared measured index (command :: rest) =
      commandViolations prepared measured index command ++
        walk prepared (recordMeasured measured command) (index + 1) rest := rfl

/-- The breaches of commands that follow others are found with the qubits that
those have measured. -/
theorem walk_append
    (prepared measured : QubitSet)
    (index : Nat)
    (first second : List (Command R)) :
    walk prepared measured index (first ++ second) =
      walk prepared measured index first ++
        walk prepared (first.foldl recordMeasured measured)
          (index + first.length) second := by
  induction first generalizing measured index with
  | nil => simp
  | cons command rest inductionHypothesis =>
      simp [inductionHypothesis, Nat.add_assoc, Nat.add_comm 1]

/-- The qubits below the largest prepared one that are not prepared. -/
def missing (prepared : List Qubit) : List Qubit :=
  let members := Std.TreeSet.ofList prepared
  (List.range (prepared.getLast?.getD 0)).filter fun qubit =>
    !members.contains qubit

/-- The breach of an ascending list of prepared qubits that leaves out a number. -/
def gapViolations (prepared : List Qubit) : List (Violation R) :=
  if prepared = List.range prepared.length then []
  else [.gap prepared.length (missing prepared)]

end WellFormed

namespace Pattern

variable {R : Type}

/-- Every breach of a well-formedness condition: the repeated preparations, then
the breaches of each command in program order, then a gap in the numbering. -/
def violations (pattern : Pattern R) : List (Violation R) :=
  (WellFormed.repeated ∅ (pattern.declared.map Prod.fst)).map
      .repeatedPreparation ++
    WellFormed.walk (Std.TreeSet.ofList pattern.prepared) ∅ 0
      pattern.commands ++
    WellFormed.gapViolations pattern.prepared

/-- Check a pattern: the number of its qubits if it is well-formed, and every
breach otherwise. -/
def check (pattern : Pattern R) : Except (List (Violation R)) Nat :=
  match pattern.violations with
  | [] => .ok pattern.prepared.length
  | breaches => .error breaches

end Pattern

end MeasurementCalculus
