import MeasurementCalculus.Run.Measurement

/-!
# Shots

A shot is one run in which a source of random draws chooses the outcome of every
measurement, with the probabilities of the two outcomes. A draw is a scalar from
the unit interval. An outcome that cannot occur is never chosen, whatever the
draw.
-/

namespace MeasurementCalculus

/-- A source of random scalars from the unit interval. -/
class DrawSource (G : Type) (R : outParam Type) where
  /-- The next draw and the source after it. -/
  draw : G → R × G

namespace PendingMeasurement

variable {R : Type} [Scalar R] {n : Nat}

/-- The outcome that a draw selects. -/
@[specialize] def choose
    (pending : PendingMeasurement R n)
    (draw : R) : Bool :=
  let drawn : Bool := !(draw * pending.total < pending.zeroProbability)
  if pending.probability drawn ≤ Scalar.probabilityFloor then !drawn else drawn

end PendingMeasurement

namespace Run

variable {R : Type} [Scalar R] {n : Nat}
variable {G : Type} [DrawSource G R]

/-- Execute the command at position `index`; a measurement takes one draw. -/
@[specialize] def shotStep
    (tolerance : R)
    (index : Nat)
    (command : Command R)
    (run : Run R n)
    (source : G) : Except (Error R) (Run R n × G) :=
  match command with
  | .measure qubit angle s t => do
      let pending ← run.measurement tolerance index qubit angle s t
      let (draw, source) := DrawSource.draw source
      let next ← run.collapse tolerance index pending (pending.choose draw)
      .ok (next, source)
  | _ => do
      let next ← run.apply index command
      .ok (next, source)

/-- Execute commands of which the first has the given position. -/
@[specialize] def shootFrom
    (tolerance : R)
    (index : Nat)
    (run : Run R n)
    (source : G) : List (Command R) → Except (Error R) (Run R n × G)
  | [] => .ok (run, source)
  | command :: rest => do
      let (next, source) ← run.shotStep tolerance index command source
      next.shootFrom tolerance (index + 1) source rest

end Run

namespace Program

variable {R : Type} [Scalar R] {G : Type} [DrawSource G R]

/-- One shot: the recorded outcome and the source after the last draw. -/
@[specialize] def shoot
    (program : Program R)
    (tolerance : R)
    (source : G) : Except (Error R) (Outcome × G) := do
  let run ← Run.start program tolerance
  let (final, source) ← run.shootFrom tolerance 0 source program.pattern.commands
  let outcome ← final.readOutcome
  .ok (outcome, source)

end Program

end MeasurementCalculus
