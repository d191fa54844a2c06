import MeasurementCalculus.Outcome
import MeasurementCalculus.Tally

/-!
# Distributions

A distribution gives a probability to each outcome that occurs. It arises either
from the enumeration of all branches of a program or as the frequencies of a
list of sampled outcomes.
-/

namespace MeasurementCalculus

/-- Probabilities of outcomes, in the order of the outcomes. -/
abbrev Distribution (R : Type) := Tally Outcome R

namespace Distribution

variable {R : Type} [Scalar R]

/-- The frequencies of a list of sampled outcomes. Every sample adds the same
weight, one over their number. -/
def ofSamples (samples : List Outcome) : Distribution R :=
  let weight : R := 1 / (samples.length : R)
  Tally.empty.recordAll (samples.map fun outcome => (outcome, weight))

/-- The probability of an outcome, zero if it never occurs. -/
def probability
    (distribution : Distribution R)
    (outcome : Outcome) : R :=
  distribution.mass outcome

/-- The distribution of the values of the given qubits. Outcomes that lack one of
them are left out. -/
def marginal
    (distribution : Distribution R)
    (qubits : List Qubit) : Tally (List UInt8) R :=
  distribution.pushforward fun outcome => outcome.values? qubits

end Distribution

end MeasurementCalculus
