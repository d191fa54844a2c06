import MeasurementCalculus.Normalization
import MeasurementCalculus.Outcome
import MeasurementCalculus.Register.Projection
import MeasurementCalculus.Program

/-!
# Runs

A run holds the register of all qubits, measured ones included, a slot for the
recorded value of each qubit, and the measured qubits in their order. Signals
are read from the slots, and so is the outcome, along the order. Every access
that could miss something is guarded by an error, so that it is a theorem that
runs of programs need no guard.
-/

namespace MeasurementCalculus

/-- The state of a program on `n` qubits in the middle of its execution. -/
structure Run (R : Type) (n : Nat) where
  /-- The amplitudes of all qubits. -/
  register : Register (Amplitude R) n
  /-- The value recorded for each qubit, if it was measured. -/
  values : Vector (Option UInt8) n
  /-- The measured qubits in measurement order. -/
  order : List Qubit

namespace Run

variable {R : Type} [Scalar R] {n : Nat}

/-- The place of a qubit in a register of `n` qubits. -/
def locate
    (n : Nat)
    (qubit : Qubit) : Except (Error R) (Fin n) :=
  if inside : qubit < n then .ok ⟨qubit, inside⟩
  else .error (.internal (.outOfRange qubit n))

/-- The initial states of all qubits. Of several declarations of a qubit the last
one counts. -/
def initialKets
    (n : Nat)
    (declared : List (Qubit × Ket R)) :
    Except (Error R) (Vector (Ket R) n) := do
  declared.forM fun declaration => (locate n declaration.1).map fun _ => ()
  Vector.ofFnM fun qubit =>
    match declared.reverse.lookup qubit.val with
    | some ket => .ok ket
    | none => .error (.internal (.unprepared qubit))

/-- A run that has recorded nothing. -/
def blank (register : Register (Amplitude R) n) : Run R n where
  register := register
  values := .replicate n none
  order := []

/-- The run of a program before its first command. -/
@[specialize] def start
    (program : Program R)
    (tolerance : R) : Except (Error R) (Run R program.width) := do
  let kets ← initialKets program.width program.pattern.declared
  let register := Register.product fun qubit => kets[qubit].amplitudes
  register.acceptNorm tolerance .initialState
  .ok (.blank register)

/-- The value recorded for a qubit, if it was measured. -/
def value?
    (run : Run R n)
    (qubit : Qubit) : Option UInt8 :=
  run.values[qubit]?.join

/-- Record one more measurement, in the slot of its qubit and in the order. -/
def record
    (run : Run R n)
    (qubit : Fin n)
    (bit : Bool) : Run R n :=
  { run with
    values := run.values.set qubit (some bit.toUInt8) qubit.isLt
    order := run.order ++ [qubit.val] }

/-- Read the value of a qubit, which must have been measured. -/
def readValue
    (run : Run R n)
    (qubit : Qubit) : Except (Error R) UInt8 :=
  match run.value? qubit with
  | some value => .ok value
  | none => .error (.internal (.unrecorded qubit))

/-- Read the outcome that is recorded so far, in measurement order. -/
def readOutcome (run : Run R n) : Except (Error R) Outcome := do
  let bits ← run.order.mapM fun qubit =>
    (run.readValue qubit).map fun value => (qubit, value)
  .ok ⟨bits⟩

/-- The parity of the recorded values of a signal list, which are read one after
another. -/
def parity
    (run : Run R n)
    (signals : Signals) : Except (Error R) Bool :=
  signals.foldlM
    (fun odd qubit => (run.readValue qubit).map fun value => odd ^^ Signals.isOdd value)
    false

/-- Apply a command that is not a measurement. -/
@[specialize] def apply
    (run : Run R n)
    (index : Nat)
    (command : Command R) : Except (Error R) (Run R n) :=
  match command with
  | .entangle first second => do
      let a ← locate n first
      let b ← locate n second
      .ok { run with register := run.register.controlledZ a b }
  | .correctX qubit signals => do
      let odd ← run.parity signals
      let a ← locate n qubit
      .ok (if odd then { run with register := run.register.pauliX a } else run)
  | .correctZ qubit signals => do
      let odd ← run.parity signals
      let a ← locate n qubit
      .ok (if odd then { run with register := run.register.pauliZ a } else run)
  | .measure .. => .error (.internal (.measurementApplied index))

end Run

end MeasurementCalculus
