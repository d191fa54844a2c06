import MeasurementCalculus.Proofs.Draws
import MeasurementCalculus.Proofs.Floor

/-!
# Causality

A program that is cut off at some position is a program of its own, and its
outcomes are those of the whole program without the later bits. The extensions
of a shorter outcome come from paths that agree on the first measurements.
Each later measurement splits the weight of such a path among two longer ones,
and the floor takes at most its share.
-/

namespace MeasurementCalculus

open Function (update)

/-! ## Shorter outcomes -/

namespace Outcome

/-- The outcome of the first measurements. -/
def truncate
    (outcome : Outcome)
    (length : Nat) : Outcome :=
  ⟨outcome.bits.take length⟩

/-- An outcome extends another one if it begins with the bits of the other one. -/
def Extends (outcome shorter : Outcome) : Prop :=
  outcome.truncate shorter.bits.length = shorter

instance (outcome shorter : Outcome) : Decidable (outcome.Extends shorter) :=
  inferInstanceAs (Decidable (outcome.truncate shorter.bits.length = shorter))

@[simp] theorem length_bits_along
    (bits : Qubit → Bool)
    (qubits : List Qubit) :
    (along bits qubits).bits.length = qubits.length :=
  List.length_map _

/-- Truncation forgets the later qubits. -/
theorem truncate_along_append
    (bits : Qubit → Bool)
    (first second : List Qubit) :
    (along bits (first ++ second)).truncate first.length = along bits first := by
  apply Outcome.ext
  simp [truncate, along]

/-- An outcome along a path extends that of another path exactly if the paths agree on
the first qubits. -/
theorem extends_along_append_iff
    (bits path : Qubit → Bool)
    (first second : List Qubit) :
    (along bits (first ++ second)).Extends (along path first) ↔
      ∀ qubit ∈ first, bits qubit = path qubit := by
  rw [Extends, length_bits_along, truncate_along_append]
  exact ⟨fun same qubit => eq_of_along_eq same, along_congr⟩

end Outcome

/-- The probability that the outcome extends a shorter one. -/
noncomputable def Distribution.probabilityExtending
    (distribution : Distribution ℝ)
    (shorter : Outcome) : ℝ :=
  ((distribution.entries.filter fun entry => entry.1.Extends shorter).map
    Prod.snd).sum

/-! ## Paths that continue a path -/

namespace Branch

variable {n : Nat}

/-- The weight of the kept paths that have the bits of a given path on all qubits that
the first commands measure. -/
noncomputable def extendedWeight
    (initial : Wave n)
    (before rest : List (Command ℝ))
    (path : Qubit → Bool) : ℝ :=
  passedWeight initial (before ++ rest) fun bits =>
    ∀ qubit ∈ Command.measuredBy before, bits qubit = path qubit

variable {initial : Wave n} {before rest : List (Command ℝ)}

/-- Without later commands, a path is continued by no other one. -/
theorem extendedWeight_nil
    (legal : Command.AllLegal n [] before)
    (path : Qubit → Bool) :
    extendedWeight initial before [] path = keptWeight initial before path := by
  classical
  obtain ⟨choice, member, agrees⟩ :=
    exists_mem_choices (Command.measuredBy before) path
  have sameWeight : keptWeight initial before choice = keptWeight initial before path := by
    have agree : ∀ qubit ∈ [] ++ Command.measuredBy before,
        choice qubit = path qubit := by simpa using agrees
    simp only [keptWeight, Wave.kept_congr legal agree,
      (Wave.follow_congr legal agree initial).1]
  unfold extendedWeight passedWeight
  rw [List.append_nil, List.sum_map_eq_nsmul_single choice,
    List.count_eq_one_of_mem (nodup_choices legal.nodup_measuredBy) member, one_smul,
    if_pos agrees, sameWeight]
  intro other different otherMember
  rw [if_neg]
  intro otherAgrees
  apply different
  funext qubit
  by_cases measured : qubit ∈ Command.measuredBy before
  · rw [otherAgrees qubit measured, agrees qubit measured]
  · rw [mem_choices_iff.1 otherMember qubit measured,
      mem_choices_iff.1 member qubit measured]

/-- Whether a path continues another one does not depend on the bits of later
measurements. -/
theorem agrees_update_iff
    (legal : Command.AllLegal n [] (before ++ rest))
    (path : Qubit → Bool)
    {qubit : Qubit}
    (later : qubit ∈ Command.measuredBy rest)
    (bits : Qubit → Bool)
    (outcome : Bool) :
    (∀ earlier ∈ Command.measuredBy before,
        update bits qubit outcome earlier = path earlier) ↔
      ∀ earlier ∈ Command.measuredBy before, bits earlier = path earlier := by
  have nodup := legal.nodup_measuredBy
  rw [Command.measuredBy_append] at nodup
  refine forall₂_congr fun earlier member => ?_
  rw [Function.update_of_ne]
  rintro rfl
  exact List.disjoint_of_nodup_append nodup member later

/-- Continuing a path adds nothing to its weight. -/
theorem extendedWeight_le
    (legal : Command.AllLegal n [] (before ++ rest))
    (path : Qubit → Bool) :
    extendedWeight initial before rest path ≤ keptWeight initial before path := by
  rw [← extendedWeight_nil ((Command.allLegal_append ..).1 legal).1, extendedWeight,
    extendedWeight, List.append_nil]
  exact passedWeight_append_le legal fun qubit later =>
    agrees_update_iff legal path later

/-- If every later measurement keeps a share of each path that continues a given one, all
of them keep a power of this share. -/
theorem pow_mul_le_extendedWeight
    (legal : Command.AllLegal n [] (before ++ rest))
    (path : Qubit → Bool)
    {share : ℝ}
    (nonneg : 0 ≤ share)
    (keeps : KeepsShare share initial before rest fun bits =>
      ∀ qubit ∈ Command.measuredBy before, bits qubit = path qubit) :
    share ^ (Command.measuredBy rest).length * keptWeight initial before path ≤
      extendedWeight initial before rest path := by
  rw [← extendedWeight_nil ((Command.allLegal_append ..).1 legal).1, extendedWeight,
    extendedWeight, List.append_nil]
  exact pow_mul_passedWeight_le
    (fun qubit later => agrees_update_iff legal path later) nonneg keeps

/-- Continuing a path loses at most the share of the floor with each measurement. -/
theorem pow_floor_mul_le_extendedWeight
    (legal : Command.AllLegal n [] (before ++ rest))
    (path : Qubit → Bool) :
    (1 - Scalar.probabilityFloor) ^ (Command.measuredBy rest).length *
        keptWeight initial before path ≤
      extendedWeight initial before rest path := by
  exact pow_mul_le_extendedWeight legal path Scalar.one_sub_probabilityFloor_pos.le
    (keepsShare_floor initial legal _)

/-- Every kept path is continued by a kept path. -/
theorem exists_kept_append
    (unit : initial.normSq = 1)
    (legal : Command.AllLegal n [] (before ++ rest))
    {path : Qubit → Bool}
    (kept : Wave.Kept path before initial) :
    ∃ longer, (∀ qubit ∈ Command.measuredBy before, longer qubit = path qubit) ∧
      Wave.Kept longer (before ++ rest) initial := by
  -- A shot that has come along the path goes on along a kept path.
  obtain ⟨longer, agrees, longerKept, _⟩ :=
    exists_shootFrom_along unit legal kept zero_le_one 0 (Stream'.const (0 : ℝ))
  exact ⟨longer, agrees, longerKept⟩

end Branch

/-! ## Shorter programs -/

namespace Pattern

variable {R : Type}

/-- The pattern without the commands from a position on. -/
def upTo
    (pattern : Pattern R)
    (index : Nat) : Pattern R :=
  { pattern with commands := pattern.commands.take index }

end Pattern

namespace Program

section Prefix

variable {R : Type}

/-- A program that is cut off at a position is well-formed for the same width. -/
theorem check_upTo
    (program : Program R)
    (index : Nat) :
    (program.pattern.upTo index).check = .ok program.width := by
  rw [Pattern.check_eq_ok_iff]
  exact {
    declared_nodup := program.lawful.declared_nodup
    prepared_eq := program.lawful.prepared_eq
    legal := program.allLegal_take index }

/-- The program without the commands from a position on. -/
def upTo
    (program : Program R)
    (index : Nat) : Program R where
  pattern := program.pattern.upTo index
  width := program.width
  accepted := program.check_upTo index

@[simp] theorem commands_upTo
    (program : Program R)
    (index : Nat) :
    (program.upTo index).pattern.commands = program.pattern.commands.take index := rfl

end Prefix

/-- From a position on, no measurement in a branch that extends the outcome has a bit
that is left out although it is possible. -/
def LosslessAfter
    (program : Program ℝ)
    (tolerance : ℝ)
    (index : Nat)
    (outcome : Outcome) : Prop :=
  ∀ (position : Nat) (qubit : Qubit) (angle : ℝ) (s t : Signals),
    index ≤ position →
    program.pattern.commands[position]? = some (.measure qubit angle s t) →
      ∀ branches, program.branchesBefore tolerance position = .ok branches →
        ∀ branch ∈ branches, branch.run.outcome.Extends outcome →
          ∀ pending, branch.run.measurement tolerance position qubit angle s t =
              .ok pending →
            ∀ bit, 0 < pending.probability bit →
              Scalar.probabilityFloor < pending.probability bit

/-- Programs that are clear of the floor lose nothing after any outcome. -/
theorem ClearOfFloor.losslessAfter
    {program : Program ℝ}
    {tolerance : ℝ}
    (clear : program.ClearOfFloor tolerance)
    (index : Nat)
    (outcome : Outcome) :
    program.LosslessAfter tolerance index outcome := by
  intro position qubit angle s t _ there branches reached branch member _
  exact clear position qubit angle s t there branches reached branch member

/-- The extensions of an outcome have the weight of the paths that continue its
path. -/
theorem probabilityExtending_pathDistribution
    {program : Program ℝ}
    {before rest : List (Command ℝ)}
    (split : program.pattern.commands = before ++ rest)
    (path : Qubit → Bool) :
    program.pathDistribution.probabilityExtending
        (.along path (Command.measuredBy before)) =
      Branch.extendedWeight (program.pattern.initialWave program.width) before rest
        path := by
  unfold Distribution.probabilityExtending
  rw [((program.entries_pathDistribution_perm.filter _).map _).sum_eq,
    sum_map_filter fun entry : Outcome × ℝ => entry.1.Extends _, Branch.kept,
    List.map_map, List.map_map, sum_map_filter fun bits =>
      Wave.Kept bits program.pattern.commands _, split]
  refine congrArg List.sum (List.map_congr_left fun bits _ => ?_)
  dsimp only [Function.comp_apply, Branch.keptWeight]
  rw [Branch.outcome_along (split ▸ program.lawful.legal), Command.measuredBy_append]
  split
  · exact if_congr (Outcome.extends_along_append_iff bits path _ _) rfl rfl
  · exact (ite_self 0).symm

/-- If nothing is lost after the outcome of a path, later measurements keep the whole
weight of the paths that continue it. -/
theorem LosslessAfter.keepsShare
    {program : Program ℝ}
    {tolerance : ℝ}
    (nonneg : 0 ≤ tolerance)
    {index : Nat}
    {path : Qubit → Bool}
    (lossless : program.LosslessAfter tolerance index
      (.along path (Command.measuredBy (program.pattern.commands.take index)))) :
    Branch.KeepsShare 1 (program.pattern.initialWave program.width)
      (program.pattern.commands.take index) (program.pattern.commands.drop index)
      fun bits => ∀ qubit ∈ Command.measuredBy (program.pattern.commands.take index),
        bits qubit = path qubit := by
  intro between after qubit angle s t later bits agrees
  have unit := program.pattern.normSq_initialWave program.width
  have there : program.pattern.commands[index + between.length]? =
      some (.measure qubit angle s t) := by
    rw [← List.getElem?_drop, later]
    simp
  have reached : program.pattern.commands.take (index + between.length) =
      program.pattern.commands.take index ++ between := by
    rw [List.take_add, later, List.take_left]
  have legalBefore := program.allLegal_take (index + between.length)
  have legal := program.legal_getElem there
  have branches := program.branchesBefore_eq_ok nonneg (index + between.length)
  rw [reached] at legalBefore legal branches
  have extended : (Branch.along (program.pattern.initialWave program.width)
      (program.pattern.commands.take index ++ between) bits).run.outcome.Extends
        (.along path (Command.measuredBy (program.pattern.commands.take index))) := by
    rw [Branch.outcome_along legalBefore, Command.measuredBy_append,
      Outcome.extends_along_append_iff]
    exact agrees
  rw [one_mul]
  refine Branch.keptWeight_le_measure_of_lossless (unit ▸ one_pos) legalBefore legal
    fun kept bit => ?_
  obtain ⟨pending, pends, _, _, _, ratio⟩ := Branch.measurement_along unit kept
    legalBefore legal nonneg (index + between.length)
  have member := (Branch.mem_kept_iff _ legalBefore).2 ⟨bits, kept, rfl⟩
  rw [← ratio]
  exact lossless _ qubit angle s t (Nat.le_add_right ..) there _ branches _ member extended
    pending pends bit

/-- The outcomes of a program that is cut off are the truncated outcomes of the whole
program. -/
theorem mem_keys_upTo_iff
    (program : Program ℝ)
    (index : Nat)
    (outcome : Outcome) :
    outcome ∈ (program.upTo index).pathDistribution.keys ↔
      ∃ longer ∈ program.pathDistribution.keys,
        longer.truncate (program.upTo index).pattern.measured.length = outcome := by
  have split := (List.take_append_drop index program.pattern.commands).symm
  have legal := program.lawful.legal
  rw [mem_keys_pathDistribution_iff]
  simp only [mem_keys_pathDistribution_iff]
  rw [split] at legal ⊢
  constructor
  · rintro ⟨path, kept, rfl⟩
    obtain ⟨longer, agrees, longerKept⟩ :=
      Branch.exists_kept_append (program.pattern.normSq_initialWave _) legal kept
    refine ⟨_, ⟨longer, longerKept, rfl⟩, ?_⟩
    rw [Command.measuredBy_append]
    exact (Outcome.truncate_along_append longer _ _).trans (Outcome.along_congr agrees)
  · rintro ⟨_, ⟨path, kept, rfl⟩, rfl⟩
    refine ⟨path, ((Wave.kept_append ..).1 kept).1, ?_⟩
    rw [Command.measuredBy_append]
    exact Outcome.truncate_along_append path _ _

/-- The outcome of a kept path of a program that is cut off has the weight of the path. -/
theorem probability_upTo
    (program : Program ℝ)
    (index : Nat)
    {path : Qubit → Bool}
    (kept : Wave.Kept path (program.pattern.commands.take index)
      (program.pattern.initialWave program.width)) :
    (program.upTo index).pathDistribution.probability
        (.along path (Command.measuredBy (program.pattern.commands.take index))) =
      Branch.keptWeight (program.pattern.initialWave program.width)
        (program.pattern.commands.take index) path := by
  rw [Branch.keptWeight, if_pos kept]
  exact (program.upTo index).probability_pathDistribution kept

/-- A program that is cut off at a position has the truncated outcomes of
the whole program. The probabilities of the extensions of an outcome add up
to its own, but for the share of the floor that later measurements lose. -/
theorem later_commands_extend_outcomes
    (program : Program ℝ)
    (index : Nat) :
    (program.pattern.upTo index).check = .ok program.width ∧
    ∀ (tolerance : ℝ) (earlier whole : Distribution ℝ),
      (program.upTo index).enumerate tolerance = .ok earlier →
        program.enumerate tolerance = .ok whole →
          (∀ outcome, outcome ∈ earlier.keys ↔
            ∃ longer ∈ whole.keys,
              longer.truncate (program.upTo index).pattern.measured.length =
                outcome) ∧
          ∀ outcome ∈ earlier.keys,
            (1 - Scalar.probabilityFloor) ^
                  (Command.measuredBy (program.pattern.commands.drop index)).length *
                earlier.probability outcome ≤ whole.probabilityExtending outcome ∧
            whole.probabilityExtending outcome ≤ earlier.probability outcome ∧
            (program.LosslessAfter tolerance index outcome →
              whole.probabilityExtending outcome = earlier.probability outcome) := by
  refine ⟨program.check_upTo index, fun tolerance earlier whole success wholeSuccess => ?_⟩
  have nonneg := nonneg_of_enumerate_eq_ok success
  rw [eq_pathDistribution success, eq_pathDistribution wholeSuccess]
  refine ⟨program.mem_keys_upTo_iff index, fun outcome member => ?_⟩
  have split := (List.take_append_drop index program.pattern.commands).symm
  have legal := program.lawful.legal
  rw [split] at legal
  obtain ⟨path, kept, same⟩ :=
    ((program.upTo index).mem_keys_pathDistribution_iff outcome).1 member
  rw [commands_upTo] at kept same
  subst same
  rw [program.probability_upTo index kept, probabilityExtending_pathDistribution split]
  refine ⟨Branch.pow_floor_mul_le_extendedWeight legal path,
    Branch.extendedWeight_le legal path,
    fun lossless => (Branch.extendedWeight_le legal path).antisymm ?_⟩
  calc Branch.keptWeight (program.pattern.initialWave program.width)
        (program.pattern.commands.take index) path
      = 1 ^ (Command.measuredBy (program.pattern.commands.drop index)).length *
          Branch.keptWeight (program.pattern.initialWave program.width)
            (program.pattern.commands.take index) path := by rw [one_pow, one_mul]
    _ ≤ Branch.extendedWeight (program.pattern.initialWave program.width)
          (program.pattern.commands.take index) (program.pattern.commands.drop index)
          path :=
        Branch.pow_mul_le_extendedWeight legal path zero_le_one
          (lossless.keepsShare nonneg)

/-- The first measurement is fair, whatever is measured after it. -/
theorem later_commands_extend_fair :
    (fair.pattern.upTo 3).check = .ok 3 ∧
    ∃ earlier whole, (fair.upTo 3).enumerate 0 = .ok earlier ∧
      fair.enumerate 0 = .ok whole ∧
      (∀ outcome, outcome ∈ earlier.keys ↔
        ∃ longer ∈ whole.keys, longer.truncate 1 = outcome) ∧
      ∀ outcome ∈ earlier.keys,
        (1 - Scalar.probabilityFloor) ^ 1 * earlier.probability outcome ≤
            whole.probabilityExtending outcome ∧
          whole.probabilityExtending outcome = earlier.probability outcome := by
  have clear : (fair.upTo 3).ClearOfFloor 0 := by
    have measured : (fair.upTo 3).pattern.measured = [0] := rfl
    refine clearOfFloor_of_unset ?_ ?_ le_rfl
    · rw [measured]
      simp [upTo, Pattern.upTo, fair, Pattern.declared]
    · rw [measured]
      simp [fair]
  have success := clear.enumerate_eq_ok le_rfl
  have wholeClear := clearOfFloor_fair le_rfl
  have wholeSuccess := wholeClear.enumerate_eq_ok le_rfl
  obtain ⟨accepted, extended⟩ := later_commands_extend_outcomes fair 3
  obtain ⟨keys, probabilities⟩ := extended 0 _ _ success wholeSuccess
  refine ⟨accepted, _, _, success, wholeSuccess, keys, fun outcome member => ?_⟩
  obtain ⟨lower, _, lossless⟩ := probabilities outcome member
  exact ⟨lower, lossless (wholeClear.losslessAfter 3 outcome)⟩

end Program

end MeasurementCalculus
