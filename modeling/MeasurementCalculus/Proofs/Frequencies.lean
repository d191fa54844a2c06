import MeasurementCalculus.Proofs.Mass
import MeasurementCalculus.Distribution
import MeasurementCalculus.Scalar.Float

/-!
# Frequencies

The distribution of a list of samples adds the same weight for every sample.
Since the weights under one key are equal, the order of the samples makes no
difference, even if addition rounds, and with exact arithmetic the sum is the
share of the outcome. Masses that differ can be recorded in any order only if
addition is exact.
-/

namespace MeasurementCalculus

namespace Distribution

section Samples

variable {R : Type}

/-- The weights that are recorded for an outcome, one for each of its occurrences. -/
theorem weights_of_outcome
    (samples : List Outcome)
    (weight : R)
    (outcome : Outcome) :
    (((samples.map fun sample => (sample, weight)).filter fun entry =>
        entry.1 = outcome).map Prod.snd) =
      List.replicate (samples.countP (· = outcome)) weight := by
  rw [List.filter_map, List.map_map, List.countP_eq_length_filter]
  exact List.map_const'

variable [Scalar R]

/-- The order of the samples does not matter, even if the arithmetic is not exact. -/
theorem ofSamples_perm
    {samples others : List Outcome}
    (perm : others.Perm samples) :
    (ofSamples others : Distribution R) = ofSamples samples := by
  unfold ofSamples
  rw [perm.length_eq]
  refine Tally.recordAll_congr Tally.empty fun outcome => ?_
  rw [weights_of_outcome, weights_of_outcome, perm.countP_eq]

/-- The probability of an outcome is the sum of one weight for each of its occurrences. -/
theorem probability_ofSamples
    (samples : List Outcome)
    (outcome : Outcome) :
    (ofSamples samples : Distribution R).probability outcome =
      (List.replicate (samples.countP (· = outcome))
        (1 / (samples.length : R))).foldl (· + ·) 0 := by
  unfold probability ofSamples
  rw [Tally.mass_recordAll, weights_of_outcome]
  rfl

theorem mem_keys_ofSamples
    {samples : List Outcome}
    {outcome : Outcome} :
    outcome ∈ (ofSamples samples : Distribution R).keys ↔ outcome ∈ samples := by
  unfold ofSamples
  rw [Tally.mem_keys_recordAll_empty, List.map_map]
  exact Iff.of_eq (congrArg (outcome ∈ ·) (List.map_id samples))

end Samples

/-- The exact probability of an outcome is its share among the samples. -/
theorem probability_ofSamples_real
    (samples : List Outcome)
    (outcome : Outcome) :
    (ofSamples samples : Distribution ℝ).probability outcome =
      samples.countP (· = outcome) / samples.length := by
  rw [probability_ofSamples, ← List.sum_eq_foldl, List.sum_replicate, nsmul_eq_mul,
    mul_one_div]

theorem total_ofSamples
    {samples : List Outcome}
    (nonempty : samples ≠ []) :
    (ofSamples samples : Distribution ℝ).total = 1 := by
  have length : (samples.length : ℝ) ≠ 0 := by
    rw [Nat.cast_ne_zero, ne_eq, List.length_eq_zero_iff]
    exact nonempty
  have nothing : (Tally.empty : Distribution ℝ).total = 0 := rfl
  unfold ofSamples
  rw [Tally.total_recordAll, nothing, zero_add, List.map_map]
  change (samples.map fun _ => (1 : ℝ) / samples.length).sum = 1
  rw [List.map_const', List.sum_replicate, nsmul_eq_mul, mul_one_div, div_self length]

/-- The distribution of samples does not depend on their order, even if
addition rounds. With exact arithmetic its probabilities are the shares of
the outcomes, and they sum to one. -/
theorem samples_are_frequencies
    {samples : List Outcome}
    (nonempty : samples ≠ []) :
    (∀ (R : Type) [Scalar R] (others : List Outcome), others.Perm samples →
      (ofSamples others : Distribution R) = ofSamples samples) ∧
    (∀ (R : Type) [Scalar R],
      (ofSamples samples : Distribution R).keys.Pairwise
        (fun first second => compare first second = .lt) ∧
      ∀ outcome, outcome ∈ (ofSamples samples : Distribution R).keys ↔
        outcome ∈ samples) ∧
    (∀ (R : Type) [Scalar R] (outcome : Outcome),
      (ofSamples samples : Distribution R).probability outcome =
        (List.replicate (samples.countP (· = outcome))
          (1 / (samples.length : R))).foldl (· + ·) 0) ∧
    (∀ outcome, (ofSamples samples : Distribution ℝ).probability outcome =
      samples.countP (· = outcome) / samples.length) ∧
    (ofSamples samples : Distribution ℝ).total = 1 ∧
    ∀ masses : List (Outcome × ℝ),
      (∀ others, others.Perm masses →
        Tally.empty.recordAll others = Tally.empty.recordAll masses) ∧
      (∀ outcome, outcome ∈ (Tally.empty.recordAll masses).keys ↔
        outcome ∈ masses.map Prod.fst) ∧
      ∀ outcome, probability (Tally.empty.recordAll masses) outcome =
        ((masses.filter fun entry => entry.1 = outcome).map Prod.snd).sum := by
  refine ⟨fun R _ others perm => ofSamples_perm perm, fun R _ => ⟨?_, fun outcome => ?_⟩,
    fun R _ => probability_ofSamples samples, probability_ofSamples_real samples,
    total_ofSamples nonempty, fun masses => ⟨fun others perm => ?_, fun outcome => ?_,
      fun outcome => ?_⟩⟩
  · exact Tally.pairwise_keys _
  · exact mem_keys_ofSamples
  · exact Tally.recordAll_perm Tally.empty perm
  · exact Tally.mem_keys_recordAll_empty
  · exact Tally.mass_recordAll_empty masses outcome

/-- Two of three samples are the same, and they are counted in any order. -/
theorem samples_are_frequencies_two_of_three :
    ([⟨[(0, 1)]⟩, ⟨[(0, 0)]⟩, ⟨[(0, 1)]⟩] : List Outcome) ≠ [] ∧
    (ofSamples [⟨[(0, 0)]⟩, ⟨[(0, 1)]⟩, ⟨[(0, 1)]⟩] : Distribution Float) =
      ofSamples [⟨[(0, 1)]⟩, ⟨[(0, 0)]⟩, ⟨[(0, 1)]⟩] ∧
    (ofSamples [⟨[(0, 1)]⟩, ⟨[(0, 0)]⟩, ⟨[(0, 1)]⟩] :
      Distribution ℝ).probability ⟨[(0, 1)]⟩ = 2 / 3 ∧
    (ofSamples [⟨[(0, 1)]⟩, ⟨[(0, 0)]⟩, ⟨[(0, 1)]⟩] : Distribution ℝ).total = 1 := by
  have nonempty : ([⟨[(0, 1)]⟩, ⟨[(0, 0)]⟩, ⟨[(0, 1)]⟩] : List Outcome) ≠ [] := nofun
  obtain ⟨reorder, _, _, share, total, _⟩ := samples_are_frequencies nonempty
  refine ⟨nonempty, reorder Float _ (.swap _ _ _), (share _).trans ?_, total⟩
  change ((2 : Nat) : ℝ) / ((3 : Nat) : ℝ) = 2 / 3
  norm_num

end Distribution

end MeasurementCalculus
