import MeasurementCalculus.Proofs.Enumeration
import MeasurementCalculus.Proofs.Mass
import MeasurementCalculus.Simulator

/-!
# The Born rule

In exact arithmetic the enumeration computes the distribution that the
calculus means. An outcome occurs exactly if each conditional probability
along its path exceeds the floor, and its probability is then the squared norm
of the unnormalized wave at the end. The squared norms over all paths add up
to one, and each measurement loses at most the share of the floor.
-/

namespace MeasurementCalculus

open Function (update)

/-- Every assignment of bits agrees on the listed qubits with one of the
choices. -/
theorem exists_mem_choices
    (qubits : List Qubit)
    (bits : Qubit → Bool) :
    ∃ choice ∈ choices qubits, ∀ qubit ∈ qubits, choice qubit = bits qubit := by
  refine ⟨fun qubit => decide (qubit ∈ qubits) && bits qubit, ?_, ?_⟩
  · rw [mem_choices_iff]
    intro qubit absent
    simp [absent]
  · intro qubit member
    simp [member]

namespace Branch

variable {n : Nat}

/-- The kept branches are the branches at the ends of kept paths. -/
theorem mem_kept_iff
    (initial : Wave n)
    {width : Nat}
    {commands : List (Command ℝ)}
    (legal : Command.AllLegal width [] commands)
    {branch : Branch ℝ n} :
    branch ∈ kept initial commands ↔
      ∃ bits, Wave.Kept bits commands initial ∧
        branch = along initial commands bits := by
  unfold kept
  rw [List.mem_map]
  constructor
  · rintro ⟨bits, member, rfl⟩
    exact ⟨bits, of_decide_eq_true (List.mem_filter.1 member).2, rfl⟩
  · rintro ⟨bits, isKept, rfl⟩
    obtain ⟨choice, member, agree⟩ :=
      exists_mem_choices (Command.measuredBy commands) bits
    refine ⟨choice, List.mem_filter.2 ⟨member, decide_eq_true ?_⟩,
      along_congr initial legal agree⟩
    exact (Wave.kept_congr legal agree initial).2 isKept

/-- Different branches have different outcomes. -/
theorem nodup_outcome_kept
    (initial : Wave n)
    {commands : List (Command ℝ)}
    (legal : Command.AllLegal n [] commands) :
    ((kept initial commands).map fun branch => branch.run.outcome).Nodup := by
  unfold kept
  rw [List.map_map]
  refine List.Nodup.map_on ?_ ((nodup_choices legal.nodup_measuredBy).filter _)
  intro first firstMember second secondMember same
  rw [Function.comp_apply, Function.comp_apply, outcome_along legal, outcome_along legal]
    at same
  have firstVanishes := mem_choices_iff.1 (List.mem_filter.1 firstMember).1
  have secondVanishes := mem_choices_iff.1 (List.mem_filter.1 secondMember).1
  funext qubit
  by_cases member : qubit ∈ Command.measuredBy commands
  · exact Outcome.eq_of_along_eq same member
  · rw [firstVanishes qubit member, secondVanishes qubit member]

/-- The squared norms at the ends of all paths add up to that at the start. -/
theorem sum_normSq_follow
    (initial : Wave n)
    {commands : List (Command ℝ)}
    (legal : Command.AllLegal n [] commands) :
    ((choices (Command.measuredBy commands)).map fun bits =>
      (Wave.follow bits commands initial).normSq).sum = initial.normSq := by
  -- The last command is split off, because its bit is the last choice of a path.
  induction commands using List.reverseRecOn with
  | nil => simp
  | append_singleton before command inductionHypothesis =>
      obtain ⟨legalBefore, legalCommand, _⟩ :=
        (Command.allLegal_append n [] before [command]).1 legal
      rw [← inductionHypothesis legalBefore]
      rcases command.measured?_eq_none_or with
        noMeasure | ⟨qubit, angle, s, t, rfl⟩
      · rw [Command.measuredBy_append_of_none before noMeasure]
        simp only [Wave.follow_append, Wave.follow_cons, Wave.follow_nil,
          Wave.normSq_act _ noMeasure]
      · have inside := legalCommand.target_lt qubit (by simp)
        have fresh := legalCommand.target_notMem qubit (by simp)
        rw [Command.measuredBy_append_measure, sum_choices_append_singleton]
        congr 1
        apply List.map_congr_left
        intro bits _
        simp only [Wave.follow_append, Wave.follow_cons, Wave.follow_nil,
          (follow_update legalBefore fresh initial bits _).1]
        exact Wave.normSq_act_measure_add bits (fun signal member =>
          legalCommand.ne_of_mem member (by simp)) inside angle _

/-! ## What is lost at the floor -/

/-- Of two weights that add up to `weight`, those whose share exceeds the floor lose
at most the share of the floor. -/
theorem one_sub_floor_mul_le
    {first second weight : ℝ}
    (firstNonneg : 0 ≤ first)
    (secondNonneg : 0 ≤ second)
    (total : first + second = weight) :
    (1 - Scalar.probabilityFloor) * weight ≤
      (if Scalar.probabilityFloor < first / weight then first else 0) +
        (if Scalar.probabilityFloor < second / weight then second else 0) := by
  have floorPos := Scalar.probabilityFloor_pos
  have floorSmall : Scalar.probabilityFloor ≤ (1 / 4 : ℝ) := by
    rw [Scalar.probabilityFloor_real]
    norm_num
  rcases (total ▸ add_nonneg firstNonneg secondNonneg).eq_or_lt with vanishes | positive
  · simp only [← vanishes, div_zero, mul_zero, if_neg floorPos.le.not_gt]
    norm_num
  · have share : 0 ≤ Scalar.probabilityFloor * weight :=
      mul_nonneg floorPos.le positive.le
    have quarter : Scalar.probabilityFloor * weight ≤ 1 / 4 * weight :=
      mul_le_mul_of_nonneg_right floorSmall positive.le
    simp only [lt_div_iff₀ positive, sub_mul, one_mul]
    -- At least one of the two weights exceeds the share of the floor.
    split
    · split
      · linarith
      · linarith
    · split
      · linarith
      · linarith

theorem ite_zero_le
    (test : Prop)
    [Decidable test]
    {weight : ℝ}
    (nonneg : 0 ≤ weight) :
    (if test then weight else 0) ≤ weight := by
  split
  · exact le_rfl
  · exact nonneg

/-- The squared norm at the end of a kept path, and zero for any other path. -/
noncomputable def keptWeight
    (initial : Wave n)
    (commands : List (Command ℝ))
    (bits : Qubit → Bool) : ℝ :=
  if Wave.Kept bits commands initial then
    (Wave.follow bits commands initial).normSq
  else 0

section Measurement

variable {initial : Wave n} {before : List (Command ℝ)}
variable {qubit : Qubit} {angle : ℝ} {s t : Signals}

/-- The weight of a path that is longer by a measurement. -/
theorem keptWeight_measure
    (legalBefore : Command.AllLegal n [] before)
    (legal : (Command.measure qubit angle s t).Legal n
      (Command.measuredBy before))
    (bits : Qubit → Bool)
    (outcome : Bool) :
    keptWeight initial (before ++ [.measure qubit angle s t])
        (update bits qubit outcome) =
      if Wave.Kept bits before initial then
        if Scalar.probabilityFloor <
            (Wave.act (update bits qubit outcome) (.measure qubit angle s t)
              (Wave.follow bits before initial)).normSq /
              (Wave.follow bits before initial).normSq then
          (Wave.act (update bits qubit outcome) (.measure qubit angle s t)
            (Wave.follow bits before initial)).normSq
        else 0
      else 0 := by
  have fresh := legal.target_notMem qubit (by simp)
  obtain ⟨same, keptBefore⟩ :=
    follow_update legalBefore fresh initial bits outcome
  simp only [keptWeight, Wave.kept_append, keptBefore, Wave.kept_measure, same,
    Wave.follow_append, Wave.follow_cons, Wave.follow_nil, ← ite_and]

/-- A measurement at the end of a path keeps all but the share of the floor. -/
theorem keptWeight_le_measure
    (legalBefore : Command.AllLegal n [] before)
    (legal : (Command.measure qubit angle s t).Legal n
      (Command.measuredBy before))
    (bits : Qubit → Bool) :
    (1 - Scalar.probabilityFloor) * keptWeight initial before bits ≤
      keptWeight initial (before ++ [.measure qubit angle s t])
          (update bits qubit false) +
        keptWeight initial (before ++ [.measure qubit angle s t])
          (update bits qubit true) := by
  have inside := legal.target_lt qubit (by simp)
  rw [keptWeight_measure legalBefore legal, keptWeight_measure legalBefore legal,
    keptWeight]
  split
  · exact one_sub_floor_mul_le (Wave.normSq_nonneg _) (Wave.normSq_nonneg _)
      (Wave.normSq_act_measure_add bits (fun signal member =>
        legal.ne_of_mem member (by simp)) inside angle _)
  · simp

/-- A measurement at the end of a path keeps its weight if it leaves out no outcome that
is possible. -/
theorem keptWeight_le_measure_of_lossless
    (positive : 0 < initial.normSq)
    (legalBefore : Command.AllLegal n [] before)
    (legal : (Command.measure qubit angle s t).Legal n
      (Command.measuredBy before))
    {bits : Qubit → Bool}
    (lossless : Wave.Kept bits before initial → ∀ outcome,
      0 < (Wave.act (update bits qubit outcome) (.measure qubit angle s t)
          (Wave.follow bits before initial)).normSq /
            (Wave.follow bits before initial).normSq →
        Scalar.probabilityFloor <
          (Wave.act (update bits qubit outcome) (.measure qubit angle s t)
            (Wave.follow bits before initial)).normSq /
              (Wave.follow bits before initial).normSq) :
    keptWeight initial before bits ≤
      keptWeight initial (before ++ [.measure qubit angle s t])
          (update bits qubit false) +
        keptWeight initial (before ++ [.measure qubit angle s t])
          (update bits qubit true) := by
  have inside := legal.target_lt qubit (by simp)
  rw [keptWeight_measure legalBefore legal, keptWeight_measure legalBefore legal,
    keptWeight]
  split
  · next kept =>
      have keeps (outcome : Bool) :
          (Wave.act (update bits qubit outcome) (.measure qubit angle s t)
              (Wave.follow bits before initial)).normSq ≤
            if Scalar.probabilityFloor <
                (Wave.act (update bits qubit outcome) (.measure qubit angle s t)
                  (Wave.follow bits before initial)).normSq /
                  (Wave.follow bits before initial).normSq then
              (Wave.act (update bits qubit outcome) (.measure qubit angle s t)
                (Wave.follow bits before initial)).normSq
            else 0 := by
        split
        · exact le_rfl
        · next dropped =>
            have impossible := mt (lossless kept outcome) dropped
            rwa [div_pos_iff_of_pos_right (kept.normSq_pos positive), not_lt]
              at impossible
      refine le_trans ?_ (add_le_add (keeps false) (keeps true))
      exact (Wave.normSq_act_measure_add bits (fun signal member =>
        legal.ne_of_mem member (by simp)) inside angle _).ge
  · simp

/-- A measurement at the end of a path adds nothing to its weight. -/
theorem keptWeight_measure_le
    (legalBefore : Command.AllLegal n [] before)
    (legal : (Command.measure qubit angle s t).Legal n
      (Command.measuredBy before))
    (bits : Qubit → Bool) :
    keptWeight initial (before ++ [.measure qubit angle s t])
          (update bits qubit false) +
        keptWeight initial (before ++ [.measure qubit angle s t])
          (update bits qubit true) ≤
      keptWeight initial before bits := by
  have inside := legal.target_lt qubit (by simp)
  rw [keptWeight_measure legalBefore legal, keptWeight_measure legalBefore legal,
    keptWeight]
  split
  · exact (add_le_add (ite_zero_le _ (Wave.normSq_nonneg _))
      (ite_zero_le _ (Wave.normSq_nonneg _))).trans
        (Wave.normSq_act_measure_add bits (fun signal member =>
          legal.ne_of_mem member (by simp)) inside angle _).le
  · simp

end Measurement

/-! ## The weight of paths that pass a test -/

/-- The weight of all kept paths that pass a test. -/
noncomputable def passedWeight
    (initial : Wave n)
    (commands : List (Command ℝ))
    (test : (Qubit → Bool) → Prop)
    [DecidablePred test] : ℝ :=
  ((choices (Command.measuredBy commands)).map fun bits =>
    if test bits then keptWeight initial commands bits else 0).sum

/-- Every measurement among the later commands keeps a share of each path that passes the
test. -/
def KeepsShare
    (share : ℝ)
    (initial : Wave n)
    (before rest : List (Command ℝ))
    (test : (Qubit → Bool) → Prop) : Prop :=
  ∀ (between after : List (Command ℝ)) (qubit : Qubit) (angle : ℝ) (s t : Signals),
    rest = between ++ .measure qubit angle s t :: after →
      ∀ bits, test bits →
        share * keptWeight initial (before ++ between) bits ≤
          keptWeight initial (before ++ between ++ [.measure qubit angle s t])
              (update bits qubit false) +
            keptWeight initial (before ++ between ++ [.measure qubit angle s t])
              (update bits qubit true)

theorem keepsShare_floor
    (initial : Wave n)
    {before rest : List (Command ℝ)}
    (legal : Command.AllLegal n [] (before ++ rest))
    (test : (Qubit → Bool) → Prop) :
    KeepsShare (1 - Scalar.probabilityFloor) initial before rest test := by
  rintro between after qubit angle s t rfl bits -
  rw [← List.append_assoc, Command.allLegal_append] at legal
  exact keptWeight_le_measure legal.1 legal.2.1 bits

section Test

variable {test : (Qubit → Bool) → Prop} [DecidablePred test]

theorem passedWeight_of_not_measure
    (initial : Wave n)
    (before : List (Command ℝ))
    {command : Command ℝ}
    (noMeasure : command.measured? = none) :
    passedWeight initial (before ++ [command]) test =
      passedWeight initial before test := by
  have same : keptWeight initial (before ++ [command]) =
      keptWeight initial before := by
    funext bits
    simp only [keptWeight, Wave.kept_append, Wave.kept_singleton _ noMeasure,
      and_true, Wave.follow_append, Wave.follow_cons, Wave.follow_nil,
      Wave.normSq_act _ noMeasure]
  rw [passedWeight, Command.measuredBy_append_of_none before noMeasure, same,
    passedWeight]

/-- A measurement whose bit the test does not look at continues every path that passes
the test by both bits. -/
theorem passedWeight_measure
    (initial : Wave n)
    (before : List (Command ℝ))
    {qubit : Qubit}
    (blind : ∀ bits outcome, test (update bits qubit outcome) ↔ test bits)
    (angle : ℝ)
    (s t : Signals) :
    passedWeight initial (before ++ [.measure qubit angle s t]) test =
      ((choices (Command.measuredBy before)).map fun bits =>
        if test bits then
          keptWeight initial (before ++ [.measure qubit angle s t])
              (update bits qubit false) +
            keptWeight initial (before ++ [.measure qubit angle s t])
              (update bits qubit true)
        else 0).sum := by
  rw [passedWeight, Command.measuredBy_append_measure, sum_choices_append_singleton]
  simp only [blind]
  refine congrArg List.sum (List.map_congr_left fun bits _ => ?_)
  split
  · rfl
  · exact add_zero 0

/-- If every later measurement keeps a share of each path that passes a test, all of them
keep a power of this share. -/
theorem pow_mul_passedWeight_le
    {initial : Wave n}
    {before rest : List (Command ℝ)}
    (blind : ∀ qubit ∈ Command.measuredBy rest, ∀ bits outcome,
      test (update bits qubit outcome) ↔ test bits)
    {share : ℝ}
    (nonneg : 0 ≤ share)
    (keeps : KeepsShare share initial before rest test) :
    share ^ (Command.measuredBy rest).length * passedWeight initial before test ≤
      passedWeight initial (before ++ rest) test := by
  induction rest using List.reverseRecOn with
  | nil => simp
  | append_singleton between command inductionHypothesis =>
      rw [Command.measuredBy_append] at blind
      have earlier := inductionHypothesis
        (fun qubit member => blind qubit (List.mem_append_left _ member))
        fun first after qubit angle s t split => keeps first (after ++ [command])
          qubit angle s t (by rw [split]; simp)
      rw [← List.append_assoc]
      rcases command.measured?_eq_none_or with
        noMeasure | ⟨qubit, angle, s, t, rfl⟩
      · rwa [Command.measuredBy_append_of_none between noMeasure,
          passedWeight_of_not_measure _ _ noMeasure]
      · rw [Command.measuredBy_append_measure, List.length_append,
          List.length_singleton, pow_succ', mul_assoc,
          passedWeight_measure initial (before ++ between)
            (blind qubit (by simp [Command.measured?])) angle s t]
        refine (mul_le_mul_of_nonneg_left earlier nonneg).trans ?_
        rw [passedWeight, ← List.sum_map_mul_left]
        refine List.sum_le_sum fun bits _ => ?_
        split
        · next passes => exact keeps between [] qubit angle s t rfl bits passes
        · rw [mul_zero]

/-- Later commands add nothing to the weight of the paths that pass a test. -/
theorem passedWeight_append_le
    {initial : Wave n}
    {before rest : List (Command ℝ)}
    (legal : Command.AllLegal n [] (before ++ rest))
    (blind : ∀ qubit ∈ Command.measuredBy rest, ∀ bits outcome,
      test (update bits qubit outcome) ↔ test bits) :
    passedWeight initial (before ++ rest) test ≤ passedWeight initial before test := by
  induction rest using List.reverseRecOn with
  | nil => rw [List.append_nil]
  | append_singleton between command inductionHypothesis =>
      rw [Command.measuredBy_append] at blind
      rw [← List.append_assoc] at legal ⊢
      obtain ⟨legalBefore, legalCommand, _⟩ :=
        (Command.allLegal_append n [] (before ++ between) [command]).1 legal
      refine le_trans ?_ (inductionHypothesis legalBefore
        fun qubit member => blind qubit (List.mem_append_left _ member))
      rcases command.measured?_eq_none_or with
        noMeasure | ⟨qubit, angle, s, t, rfl⟩
      · rw [passedWeight_of_not_measure _ _ noMeasure]
      · rw [passedWeight_measure initial (before ++ between)
          (blind qubit (by simp [Command.measured?])) angle s t, passedWeight]
        refine List.sum_le_sum fun bits _ => ?_
        split
        · exact keptWeight_measure_le legalBefore legalCommand bits
        · exact le_rfl

end Test

/-- Each measurement loses at most the share of the floor, so that the kept paths have
at least the weight that this leaves. -/
theorem pow_mul_le_sum_keptWeight
    (initial : Wave n)
    {commands : List (Command ℝ)}
    (legal : Command.AllLegal n [] commands) :
    (1 - Scalar.probabilityFloor) ^ (Command.measuredBy commands).length *
        initial.normSq ≤
      ((choices (Command.measuredBy commands)).map
        (keptWeight initial commands)).sum := by
  have start : passedWeight initial [] (fun _ => True) = initial.normSq := by
    simp [passedWeight, keptWeight, Wave.kept_nil]
  have finish : passedWeight initial ([] ++ commands) (fun _ => True) =
      ((choices (Command.measuredBy commands)).map
        (keptWeight initial commands)).sum := by
    simp [passedWeight]
  rw [← List.nil_append commands] at legal
  rw [← start, ← finish]
  exact pow_mul_passedWeight_le (fun _ _ _ _ => Iff.rfl)
    Scalar.one_sub_probabilityFloor_pos.le (keepsShare_floor initial legal _)

end Branch

namespace Program

/-- The distribution of the outcomes of the kept paths. -/
noncomputable def pathDistribution (program : Program ℝ) : Distribution ℝ :=
  Tally.empty.recordAll <|
    (Branch.kept (program.pattern.initialWave program.width)
      program.pattern.commands).map fun branch =>
        (branch.run.outcome, branch.probability)

/-- The enumeration yields the distribution of the kept paths if its total is
within the tolerance. -/
theorem enumerate_eq
    (program : Program ℝ)
    {tolerance : ℝ}
    (nonneg : 0 ≤ tolerance) :
    program.enumerate tolerance =
      if |program.pathDistribution.total - 1| ≤ tolerance then
        .ok program.pathDistribution
      else .error (.numeric .exactDistribution program.pathDistribution.total
        tolerance) := by
  rw [enumerate_eq_tally, program.branches_eq_ok nonneg, ok_bind]
  change (acceptTotal program.pathDistribution.total tolerance
    .exactDistribution >>= fun _ => .ok program.pathDistribution) = _
  rw [acceptTotal_real]
  split
  · rfl
  · rfl

/-- An enumeration with a negative tolerance fails. -/
theorem nonneg_of_enumerate_eq_ok
    {program : Program ℝ}
    {tolerance : ℝ}
    {distribution : Distribution ℝ}
    (success : program.enumerate tolerance = .ok distribution) :
    0 ≤ tolerance := by
  rw [enumerate_eq_tally] at success
  obtain ⟨branches, _, counted⟩ := bind_eq_ok success
  obtain ⟨_, accepted, _⟩ := bind_eq_ok counted
  rw [acceptTotal_real] at accepted
  split at accepted
  · next within => exact (abs_nonneg _).trans within
  · cases accepted

/-- A successful enumeration yields the distribution of the kept paths. -/
theorem eq_pathDistribution
    {program : Program ℝ}
    {tolerance : ℝ}
    {distribution : Distribution ℝ}
    (success : program.enumerate tolerance = .ok distribution) :
    distribution = program.pathDistribution := by
  rw [program.enumerate_eq (nonneg_of_enumerate_eq_ok success)] at success
  split at success
  · exact (Except.ok.inj success).symm
  · cases success

/-- No outcome is recorded twice, so that the entries are the outcomes of the kept paths
with their probabilities, in another order. -/
theorem entries_pathDistribution_perm (program : Program ℝ) :
    program.pathDistribution.entries.Perm
      ((Branch.kept (program.pattern.initialWave program.width)
        program.pattern.commands).map fun branch =>
          (branch.run.outcome, branch.probability)) := by
  have distinct : (((Branch.kept (program.pattern.initialWave program.width)
      program.pattern.commands).map fun branch =>
        (branch.run.outcome, branch.probability)).map Prod.fst).Nodup := by
    rw [List.map_map]
    exact Branch.nodup_outcome_kept _ program.lawful.legal
  have recorded := Tally.entries_recordAll_perm Tally.empty distinct
    fun _ _ => List.not_mem_nil
  simp only [zero_add, List.map_id'] at recorded
  exact recorded

/-- The outcomes of the distribution are those of the kept paths. -/
theorem mem_keys_pathDistribution_iff
    (program : Program ℝ)
    (outcome : Outcome) :
    outcome ∈ program.pathDistribution.keys ↔
      ∃ bits, Wave.Kept bits program.pattern.commands
          (program.pattern.initialWave program.width) ∧
        outcome = .along bits (Command.measuredBy program.pattern.commands) := by
  unfold pathDistribution
  rw [Tally.mem_keys_recordAll_empty, List.map_map]
  constructor
  · intro member
    obtain ⟨branch, inside, rfl⟩ := List.mem_map.1 member
    obtain ⟨bits, isKept, rfl⟩ :=
      (Branch.mem_kept_iff _ program.lawful.legal).1 inside
    exact ⟨bits, isKept, Branch.outcome_along program.lawful.legal _ bits⟩
  · rintro ⟨bits, isKept, rfl⟩
    have member := (Branch.mem_kept_iff _ program.lawful.legal).2
      ⟨bits, isKept, rfl⟩
    exact List.mem_map.2
      ⟨_, member, Branch.outcome_along program.lawful.legal _ bits⟩

/-- The outcome of a kept path has the squared norm at its end as probability. -/
theorem probability_pathDistribution
    (program : Program ℝ)
    {bits : Qubit → Bool}
    (isKept : Wave.Kept bits program.pattern.commands
      (program.pattern.initialWave program.width)) :
    program.pathDistribution.probability
        (.along bits (Command.measuredBy program.pattern.commands)) =
      (Wave.follow bits program.pattern.commands
        (program.pattern.initialWave program.width)).normSq := by
  have member : (Branch.along (program.pattern.initialWave program.width)
      program.pattern.commands bits) ∈ Branch.kept _ program.pattern.commands :=
    (Branch.mem_kept_iff _ program.lawful.legal).2 ⟨bits, isKept, rfl⟩
  have weight := Tally.mass_of_mem_entries
    (program.entries_pathDistribution_perm.mem_iff.2 (List.mem_map.2 ⟨_, member, rfl⟩))
  dsimp only at weight
  rwa [Branch.outcome_along program.lawful.legal] at weight

/-- The outcome of a path occurs exactly if the path is kept. -/
theorem along_mem_keys_pathDistribution_iff
    (program : Program ℝ)
    (bits : Qubit → Bool) :
    .along bits (Command.measuredBy program.pattern.commands) ∈
        program.pathDistribution.keys ↔
      Wave.Kept bits program.pattern.commands
        (program.pattern.initialWave program.width) := by
  rw [mem_keys_pathDistribution_iff]
  constructor
  · rintro ⟨other, isKept, same⟩
    refine (Wave.kept_congr program.lawful.legal (fun qubit member => ?_) _).2
      isKept
    exact Outcome.eq_of_along_eq same member
  · intro isKept
    exact ⟨bits, isKept, rfl⟩

/-- If the paths of two programs correspond to each other, with the same weights and
with outcomes that are named differently, then so do the distributions. -/
theorem renames_pathDistribution
    {first second : Program ℝ}
    {rename : Outcome → Outcome}
    (transport : (Qubit → Bool) → Qubit → Bool)
    (paths : (choices second.pattern.measured).Perm
      ((choices first.pattern.measured).map transport))
    (kept : ∀ bits, Wave.Kept (transport bits) second.pattern.commands
        (second.pattern.initialWave second.width) ↔
      Wave.Kept bits first.pattern.commands
        (first.pattern.initialWave first.width))
    (weight : ∀ bits, (Wave.follow (transport bits) second.pattern.commands
        (second.pattern.initialWave second.width)).normSq =
      (Wave.follow bits first.pattern.commands
        (first.pattern.initialWave first.width)).normSq)
    (outcome : ∀ bits, Outcome.along (transport bits) second.pattern.measured =
      rename (.along bits first.pattern.measured)) :
    first.pathDistribution.Renames rename second.pathDistribution := by
  refine second.entries_pathDistribution_perm.trans
    (List.Perm.trans ?_ (first.entries_pathDistribution_perm.map _).symm)
  unfold Branch.kept
  rw [List.map_map, List.map_map, List.map_map]
  refine ((paths.filter _).map _).trans (List.Perm.of_eq ?_)
  rw [List.filter_map, List.map_map]
  simp only [Function.comp_def, kept]
  refine List.map_congr_left fun bits _ => ?_
  rw [Branch.outcome_along second.lawful.legal, Branch.outcome_along first.lawful.legal]
  exact Prod.ext (outcome bits) (weight bits)

/-- Every kept path has a positive probability. -/
theorem positive_pathDistribution (program : Program ℝ) :
    program.pathDistribution.Positive := by
  refine Tally.Positive.recordAll (fun _ absent => absurd absent List.not_mem_nil) ?_
  intro entry member
  obtain ⟨branch, inside, rfl⟩ := List.mem_map.1 member
  obtain ⟨bits, isKept, rfl⟩ :=
    (Branch.mem_kept_iff _ program.lawful.legal).1 inside
  apply isKept.normSq_pos
  rw [Pattern.normSq_initialWave]
  exact one_pos

theorem total_pathDistribution (program : Program ℝ) :
    program.pathDistribution.total =
      ((Branch.kept (program.pattern.initialWave program.width)
        program.pattern.commands).map Branch.probability).sum := by
  unfold pathDistribution
  rw [Tally.total_recordAll, List.map_map]
  exact zero_add _

theorem total_pathDistribution_nonneg (program : Program ℝ) :
    0 ≤ program.pathDistribution.total := by
  rw [total_pathDistribution]
  refine List.sum_nonneg fun weight member => ?_
  obtain ⟨branch, inside, rfl⟩ := List.mem_map.1 member
  obtain ⟨bits, _, rfl⟩ :=
    (Branch.mem_kept_iff _ program.lawful.legal).1 inside
  exact Wave.normSq_nonneg _

/-- The kept paths have at most the total probability of all paths, which is
one. -/
theorem total_pathDistribution_le_one (program : Program ℝ) :
    program.pathDistribution.total ≤ 1 := by
  have all := Branch.sum_normSq_follow
    (program.pattern.initialWave program.width) program.lawful.legal
  rw [Pattern.normSq_initialWave] at all
  rw [total_pathDistribution, ← all, Branch.kept, List.map_map]
  refine List.Sublist.sum_le_sum ((List.filter_sublist).map _) ?_
  intro weight member
  obtain ⟨bits, _, rfl⟩ := List.mem_map.1 member
  exact Wave.normSq_nonneg _

/-- The kept paths lack at most the share of the floor for each measurement. -/
theorem pow_le_total_pathDistribution (program : Program ℝ) :
    (1 - Scalar.probabilityFloor) ^ program.pattern.measured.length ≤
      program.pathDistribution.total := by
  have enough := Branch.pow_mul_le_sum_keptWeight
    (program.pattern.initialWave program.width) program.lawful.legal
  rw [Pattern.normSq_initialWave, mul_one] at enough
  rw [total_pathDistribution, Branch.kept, List.map_map]
  exact enough.trans (sum_map_filter _ _ _).ge

/-- With a tolerance of one the enumeration always succeeds. -/
theorem enumerate_eq_ok_of_one_le
    (program : Program ℝ)
    {tolerance : ℝ}
    (large : 1 ≤ tolerance) :
    program.enumerate tolerance = .ok program.pathDistribution := by
  have below := program.total_pathDistribution_le_one
  have above := program.total_pathDistribution_nonneg
  rw [program.enumerate_eq (zero_le_one.trans large), if_pos]
  rw [abs_le]
  constructor
  · linarith
  · linarith

/-- A program with an adaptive measurement: the angle of the second measurement
depends on the outcome of the first one. -/
noncomputable def adaptive : Program ℝ where
  pattern :=
    { preparations := [.input 0 (.equatorial 1), .ancillas [1]]
      commands :=
        [.entangle 0 1, .measure 0 (-1) [] [], .correctX 1 [0],
          .measure 1 1 [0] [0]] }
  width := 2
  accepted := rfl

end Program

namespace Simulator

/-- The exact distribution obeys the Born rule: outcomes occur if every
conditional probability along their paths exceeds the floor, and have the
squared norms of the projected waves. -/
theorem exactDistribution_born_rule
    {simulator : Simulator ℝ}
    {program : Program ℝ}
    {distribution : Distribution ℝ}
    (success : simulator.exactDistribution program = .ok distribution) :
    (∀ bits : Qubit → Bool,
      (.along bits program.pattern.measured ∈ distribution.keys ↔
        Wave.Kept bits program.pattern.commands
          (program.pattern.initialWave program.width)) ∧
      (Wave.Kept bits program.pattern.commands
          (program.pattern.initialWave program.width) →
        distribution.probability (.along bits program.pattern.measured) =
          (Wave.follow bits program.pattern.commands
            (program.pattern.initialWave program.width)).normSq)) ∧
    ∀ outcome ∈ distribution.keys,
      ∃ bits, outcome = .along bits program.pattern.measured := by
  obtain ⟨_, _, enumerated⟩ := bind_eq_ok success
  rw [Program.eq_pathDistribution enumerated]
  refine ⟨fun bits => ⟨program.along_mem_keys_pathDistribution_iff bits,
    program.probability_pathDistribution⟩, fun outcome member => ?_⟩
  obtain ⟨bits, _, same⟩ := (program.mem_keys_pathDistribution_iff outcome).1 member
  exact ⟨bits, same⟩

theorem exactDistribution_adaptive :
    ∃ distribution,
      ({ tolerance := 1 } : Simulator ℝ).exactDistribution Program.adaptive =
          .ok distribution ∧
        (∀ bits, .along bits [0, 1] ∈ distribution.keys ↔
          Wave.Kept bits Program.adaptive.pattern.commands
            (Program.adaptive.pattern.initialWave 2)) ∧
        ∀ outcome ∈ distribution.keys,
          ∃ bits, outcome = .along bits [0, 1] := by
  have success : ({ tolerance := 1 } : Simulator ℝ).exactDistribution
      Program.adaptive = .ok Program.adaptive.pathDistribution :=
    Program.adaptive.enumerate_eq_ok_of_one_le le_rfl
  obtain ⟨paths, covered⟩ := exactDistribution_born_rule success
  exact ⟨_, success, fun bits => (paths bits).1, covered⟩

end Simulator

end MeasurementCalculus
