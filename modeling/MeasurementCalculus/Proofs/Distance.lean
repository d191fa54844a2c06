import MeasurementCalculus.Proofs.Mass
import MeasurementCalculus.Distribution

/-!
# The distance of two distributions

The distance of two distributions is found by going through the outcomes of
either one, starting from zero. No other outcome can matter, because both give
it probability zero. So a number bounds the distance exactly if it bounds the
difference at every outcome, and the laws of a metric follow from this.
-/

namespace MeasurementCalculus

/-- A number bounds the largest member of a list, counted from a first one, if it bounds
all of them. -/
theorem foldl_max_le_iff
    {first bound : ℝ}
    {members : List ℝ} :
    members.foldl Scalar.max first ≤ bound ↔
      first ≤ bound ∧ ∀ member ∈ members, member ≤ bound := by
  induction members generalizing first with
  | nil => simp
  | cons head tail inductionHypothesis =>
      rw [List.foldl_cons, inductionHypothesis, Scalar.max_real, max_le_iff,
        List.forall_mem_cons, and_assoc]

namespace Tally

variable {κ : Type} [Ord κ] [Std.LawfulEqOrd κ] [Nonempty κ]

/-- A number bounds the distance if it bounds the difference at every key. -/
theorem distance_le_iff
    {first second : Tally κ ℝ}
    {bound : ℝ} :
    first.distance second ≤ bound ↔
      ∀ key, |first.mass key - second.mass key| ≤ bound := by
  unfold distance
  rw [foldl_max_le_iff, List.forall_mem_map]
  constructor
  · rintro ⟨nonneg, bounded⟩ key
    by_cases member : key ∈ first.keys ++ second.keys
    · exact bounded key member
    · -- A key of neither tally has mass zero in both.
      rw [List.mem_append, not_or] at member
      rw [mass_of_notMem_keys member.1, mass_of_notMem_keys member.2, sub_self, abs_zero]
      exact nonneg
  · intro bounded
    refine ⟨?_, fun key _ => bounded key⟩
    exact (abs_nonneg _).trans (bounded (Classical.arbitrary κ))

/-- The distance is the least upper bound of the differences at all keys. -/
theorem isLUB_distance (first second : Tally κ ℝ) :
    IsLUB (Set.range fun key => |first.mass key - second.mass key|)
      (first.distance second) := by
  rw [isLUB_iff_le_iff]
  intro bound
  rw [distance_le_iff, mem_upperBounds, Set.forall_mem_range]

/-- The difference at a key is at most the distance. -/
theorem abs_sub_le_distance
    (first second : Tally κ ℝ)
    (key : κ) :
    |first.mass key - second.mass key| ≤ first.distance second :=
  distance_le_iff.1 le_rfl key

theorem distance_nonneg (first second : Tally κ ℝ) : 0 ≤ first.distance second :=
  (abs_nonneg _).trans (abs_sub_le_distance first second (Classical.arbitrary κ))

/-- The distance depends on the masses alone: entries without mass do not matter. -/
theorem distance_congr
    {first second firstOther secondOther : Tally κ ℝ}
    (sameFirst : ∀ key, first.mass key = firstOther.mass key)
    (sameSecond : ∀ key, second.mass key = secondOther.mass key) :
    first.distance second = firstOther.distance secondOther := by
  refine (isLUB_distance first second).unique ?_
  simp only [sameFirst, sameSecond]
  exact isLUB_distance firstOther secondOther

theorem distance_comm (first second : Tally κ ℝ) :
    first.distance second = second.distance first := by
  refine (isLUB_distance first second).unique ?_
  simp only [abs_sub_comm (first.mass _)]
  exact isLUB_distance second first

theorem distance_triangle (first second third : Tally κ ℝ) :
    first.distance third ≤ first.distance second + second.distance third := by
  rw [distance_le_iff]
  intro key
  calc |first.mass key - third.mass key|
      ≤ |first.mass key - second.mass key| + |second.mass key - third.mass key| :=
        abs_sub_le _ _ _
    _ ≤ first.distance second + second.distance third :=
        add_le_add (abs_sub_le_distance first second key)
          (abs_sub_le_distance second third key)

/-- Two tallies have distance zero exactly if their masses are the same. -/
theorem distance_eq_zero_iff
    {first second : Tally κ ℝ} :
    first.distance second = 0 ↔ ∀ key, first.mass key = second.mass key := by
  rw [← (distance_nonneg first second).ge_iff_eq', distance_le_iff]
  simp only [abs_nonpos_iff, sub_eq_zero]

end Tally

namespace Distribution

/-- The distance of two distributions is the supremum metric on their
probabilities. An entry without mass makes no difference, as if the outcome
had no entry at all. -/
theorem distance_is_supremum_metric (first second third : Distribution ℝ) :
    IsLUB (Set.range fun outcome =>
        |first.probability outcome - second.probability outcome|)
      (first.distance second) ∧
    first.distance second = second.distance first ∧
    first.distance third ≤ first.distance second + second.distance third ∧
    (first.distance second = 0 ↔
      ∀ outcome, first.probability outcome = second.probability outcome) ∧
    ∀ outcome, (first.record outcome 0).distance second = first.distance second := by
  have : Nonempty Outcome := ⟨.empty⟩
  refine ⟨Tally.isLUB_distance first second, Tally.distance_comm first second,
    Tally.distance_triangle first second third, Tally.distance_eq_zero_iff,
    fun outcome => Tally.distance_congr (fun other => ?_) fun _ => rfl⟩
  rw [Tally.mass_record, add_zero, ite_self]

end Distribution

end MeasurementCalculus
