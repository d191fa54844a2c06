import MeasurementCalculus.Proofs.Draws
import Mathlib.Algebra.Order.Ring.Pow

/-!
# Probability is conserved

The checks on norms and totals guard against the rounding of machine numbers.
In exact arithmetic every register has norm one, so that a shot never fails,
whatever is drawn. The enumeration leaves out at most one of the two outcomes
of every measurement, which bounds what it loses and the tolerance with which
it succeeds.
-/

namespace MeasurementCalculus

namespace Run

variable {n : Nat}

/-- A run that exact arithmetic keeps in balance before the command at a position, if
there is one: the register has norm one, and if the command is a measurement, it is
accepted with probabilities that add up to one. -/
structure Balanced
    (tolerance : ℝ)
    (index : Nat)
    (command? : Option (Command ℝ))
    (run : Run ℝ n) : Prop where
  /-- The squared norm of the register is one. -/
  normSq_eq : run.register.normSq = 1
  /-- A measurement is accepted, and its probabilities add up to one. -/
  measurement_eq : ∀ qubit angle s t, command? = some (.measure qubit angle s t) →
    ∃ pending, run.measurement tolerance index qubit angle s t = .ok pending ∧
      pending.total = 1

end Run

namespace Branch

/-- The end of a kept path is in balance. -/
theorem balanced_along
    {n : Nat}
    {initial : Wave n}
    (unit : initial.normSq = 1)
    {bits : Qubit → Bool}
    {before : List (Command ℝ)}
    (kept : Wave.Kept bits before initial)
    (legalBefore : Command.AllLegal n [] before)
    {command? : Option (Command ℝ)}
    (legal : ∀ command, command? = some command →
      command.Legal n (Command.measuredBy before))
    {tolerance : ℝ}
    (nonneg : 0 ≤ tolerance)
    (index : Nat) :
    (along initial before bits).run.Balanced tolerance index command? where
  normSq_eq := by
    rw [Register.normSq_eq_normSq_wave, wave_along]
    exact Wave.normSq_normalized (kept.normSq_pos (unit ▸ one_pos))
  measurement_eq qubit angle s t there := by
    obtain ⟨pending, pends, _, total, _⟩ :=
      measurement_along unit kept legalBefore (legal _ there) nonneg index
    exact ⟨pending, pends, total⟩

end Branch

namespace Program

theorem nonneg_of_start_eq_ok
    {program : Program ℝ}
    {tolerance : ℝ}
    {run : Run ℝ program.width}
    (started : Run.start program tolerance = .ok run) :
    0 ≤ tolerance := by
  by_contra negative
  rw [program.start_eq_error (not_le.1 negative)] at started
  cases started

/-- Every branch is in balance before every command. -/
theorem balanced_of_mem_branchesBefore
    {program : Program ℝ}
    {tolerance : ℝ}
    {index : Nat}
    {branches : List (Branch ℝ program.width)}
    (reached : program.branchesBefore tolerance index = .ok branches)
    {branch : Branch ℝ program.width}
    (member : branch ∈ branches) :
    branch.run.Balanced tolerance index program.pattern.commands[index]? := by
  obtain ⟨_, started, _⟩ := bind_eq_ok reached
  have nonneg := nonneg_of_start_eq_ok started
  rw [program.branchesBefore_eq_ok nonneg] at reached
  obtain rfl := Except.ok.inj reached
  obtain ⟨bits, kept, rfl⟩ :=
    (Branch.mem_kept_iff _ (program.allLegal_take index)).1 member
  exact Branch.balanced_along (program.pattern.normSq_initialWave program.width) kept
    (program.allLegal_take index) (fun _ => program.legal_getElem) nonneg index

/-- Every shot is in balance before every command. -/
theorem balanced_of_runBefore_eq_ok
    {G : Type}
    [DrawSource G ℝ]
    {program : Program ℝ}
    {tolerance : ℝ}
    {source rest : G}
    {index : Nat}
    {run : Run ℝ program.width}
    (reached : program.runBefore tolerance source index = .ok (run, rest)) :
    run.Balanced tolerance index program.pattern.commands[index]? := by
  obtain ⟨_, started, _⟩ := bind_eq_ok reached
  have nonneg := nonneg_of_start_eq_ok started
  obtain ⟨bits, kept, _, along⟩ := program.exists_runBefore_eq_ok nonneg source index
  rw [along] at reached
  obtain ⟨rfl, _⟩ := Prod.mk.inj (Except.ok.inj reached)
  exact Branch.balanced_along (program.pattern.normSq_initialWave program.width) kept
    (program.allLegal_take index) (fun _ => program.legal_getElem) nonneg index

/-- The enumeration succeeds if the tolerance allows for the floor at every
measurement. -/
theorem enumerate_eq_ok_of_measured_le
    (program : Program ℝ)
    {tolerance : ℝ}
    (enough : program.pattern.measured.length * Scalar.probabilityFloor ≤ tolerance) :
    program.enumerate tolerance = .ok program.pathDistribution := by
  have below := program.total_pathDistribution_le_one
  have above := program.pow_le_total_pathDistribution
  have lost : 1 - program.pattern.measured.length * Scalar.probabilityFloor ≤
      (1 - Scalar.probabilityFloor : ℝ) ^ program.pattern.measured.length := by
    have small : (-2 : ℝ) ≤ -Scalar.probabilityFloor := by
      rw [Scalar.probabilityFloor_real]
      norm_num
    -- By the inequality of Bernoulli a power loses no more than its linear part.
    have bernoulli := one_add_mul_le_pow small program.pattern.measured.length
    rwa [mul_neg, ← sub_eq_add_neg, ← sub_eq_add_neg] at bernoulli
  have nonneg : 0 ≤ program.pattern.measured.length * (Scalar.probabilityFloor : ℝ) :=
    mul_nonneg (Nat.cast_nonneg _) Scalar.probabilityFloor_pos.le
  rw [program.enumerate_eq (nonneg.trans enough), if_pos]
  rw [abs_le]
  constructor
  · linarith
  · linarith

/-- No kept path has more than the whole probability. -/
theorem le_one_of_mem_pathDistribution
    {program : Program ℝ}
    {entry : Outcome × ℝ}
    (member : entry ∈ program.pathDistribution.entries) :
    entry.2 ≤ 1 := by
  refine le_trans ?_ program.total_pathDistribution_le_one
  rw [Tally.total, Scalar.sum_real]
  refine List.single_le_sum (fun mass inside => ?_) _ (List.mem_map_of_mem member)
  obtain ⟨other, there, rfl⟩ := List.mem_map.1 inside
  exact (program.positive_pathDistribution other there).le

/-- In exact arithmetic a program conserves probability: registers have norm
one, shots never fail, and the total of the enumeration misses one by no
more than the share of the floor at each measurement. -/
theorem conserves_probability
    (G : Type)
    [DrawSource G ℝ]
    (program : Program ℝ) :
    (∀ (tolerance : ℝ) (index : Nat),
      (∀ (source rest : G) (run : Run ℝ program.width),
        program.runBefore tolerance source index = .ok (run, rest) →
          run.Balanced tolerance index program.pattern.commands[index]?) ∧
      ∀ branches : List (Branch ℝ program.width),
        program.branchesBefore tolerance index = .ok branches →
          ∀ branch ∈ branches,
            branch.run.Balanced tolerance index program.pattern.commands[index]?) ∧
    (∀ tolerance : ℝ, 0 ≤ tolerance →
      ∀ source : G, ∃ outcome rest,
        program.shoot tolerance source = .ok (outcome, rest)) ∧
    (∀ tolerance : ℝ,
      program.pattern.measured.length * Scalar.probabilityFloor ≤ tolerance →
        ∃ distribution, program.enumerate tolerance = .ok distribution) ∧
    ∀ (tolerance : ℝ) (distribution : Distribution ℝ),
      program.enumerate tolerance = .ok distribution →
        (∀ entry ∈ distribution.entries, 0 < entry.2 ∧ entry.2 ≤ 1) ∧
        (1 - Scalar.probabilityFloor) ^ program.pattern.measured.length ≤
          distribution.total ∧
        distribution.total ≤ 1 := by
  refine ⟨fun tolerance index => ⟨fun source rest run => balanced_of_runBefore_eq_ok,
      fun branches reached branch => balanced_of_mem_branchesBefore reached⟩,
    fun tolerance nonneg source => ?_, fun tolerance enough => ?_,
    fun tolerance distribution success => ?_⟩
  · obtain ⟨path, _, _, shot⟩ := program.exists_shoot_eq_ok nonneg source
    exact ⟨_, _, shot⟩
  · exact ⟨_, program.enumerate_eq_ok_of_measured_le enough⟩
  · rw [eq_pathDistribution success]
    exact ⟨fun entry member => ⟨program.positive_pathDistribution entry member,
        le_one_of_mem_pathDistribution member⟩,
      program.pow_le_total_pathDistribution, program.total_pathDistribution_le_one⟩

theorem conserves_probability_adaptive :
    (∀ draws : Stream' ℝ,
      (∃ run rest, adaptive.runBefore 0 draws 3 = .ok (run, rest) ∧
        run.Balanced 0 3 (some (.measure 1 1 [0] [0]))) ∧
      ∃ outcome rest, adaptive.shoot 0 draws = .ok (outcome, rest)) ∧
    (∃ branches, adaptive.branchesBefore 0 3 = .ok branches ∧
      ∀ branch ∈ branches, branch.run.Balanced 0 3 (some (.measure 1 1 [0] [0]))) ∧
    ∃ distribution, adaptive.enumerate (2 * Scalar.probabilityFloor) =
        .ok distribution ∧
      (1 - Scalar.probabilityFloor) ^ 2 ≤ distribution.total ∧
      distribution.total ≤ 1 := by
  obtain ⟨balanced, shoots, succeeds, bounds⟩ :=
    conserves_probability (Stream' ℝ) adaptive
  refine ⟨fun draws => ⟨?_, shoots 0 le_rfl draws⟩, ?_, ?_⟩
  · obtain ⟨_, _, _, reached⟩ := adaptive.exists_runBefore_eq_ok le_rfl draws 3
    exact ⟨_, _, reached, (balanced 0 3).1 _ _ _ reached⟩
  · have reached := adaptive.branchesBefore_eq_ok le_rfl 3
    exact ⟨_, reached, (balanced 0 3).2 _ reached⟩
  · obtain ⟨distribution, success⟩ := succeeds (2 * Scalar.probabilityFloor) le_rfl
    exact ⟨distribution, success, (bounds _ _ success).2⟩

end Program

end MeasurementCalculus
