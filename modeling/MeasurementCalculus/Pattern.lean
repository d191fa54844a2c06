import MeasurementCalculus.Command
import MeasurementCalculus.Preparation

/-!
# Patterns

A pattern is a list of preparations followed by a list of commands. It is plain
data and need not be well-formed. Its inputs are the qubits that input
preparations declare, its outputs the prepared qubits that no command measures.
-/

namespace MeasurementCalculus

/-- Preparations, then commands in the order of execution. -/
@[ext] structure Pattern (R : Type) where
  /-- The declarations of the qubits. -/
  preparations : List (Preparation R) := []
  /-- The commands in program order. -/
  commands : List (Command R) := []
  deriving BEq, DecidableEq

namespace Pattern

variable {R : Type}

/-- The pattern that prepares nothing and does nothing. -/
def empty : Pattern R := {}

/-- Append a preparation. -/
def prepare
    (pattern : Pattern R)
    (preparation : Preparation R) : Pattern R :=
  { pattern with preparations := pattern.preparations ++ [preparation] }

/-- Append commands. -/
def append
    (pattern : Pattern R)
    (commands : List (Command R)) : Pattern R :=
  { pattern with commands := pattern.commands ++ commands }

/-- Every declaration of a qubit with its initial state, in program order and
with repetitions. -/
def declared (pattern : Pattern R) : List (Qubit × Ket R) :=
  pattern.preparations.flatMap Preparation.declared

/-- The qubits that some preparation declares, ascending. -/
def prepared (pattern : Pattern R) : List Qubit :=
  Qubit.ascending (pattern.declared.map Prod.fst)

/-- The qubits that input preparations declare, ascending. -/
def inputs (pattern : Pattern R) : List Qubit :=
  Qubit.ascending <|
    (pattern.preparations.filter Preparation.isInput).flatMap fun preparation =>
      preparation.declared.map Prod.fst

/-- The measured qubits in the order of their measurements. -/
def measured (pattern : Pattern R) : List Qubit :=
  pattern.commands.filterMap Command.measured?

/-- The prepared qubits that are never measured, ascending. -/
def outputs (pattern : Pattern R) : List Qubit :=
  let measured := Std.TreeSet.ofList pattern.measured
  pattern.prepared.filter fun qubit => !measured.contains qubit

end Pattern

end MeasurementCalculus
