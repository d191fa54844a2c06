import MeasurementCalculus.Proofs.BornRule

/-!
# Clear of the floor

Nothing is lost with an outcome that is impossible, but an improbable one is
lost at the floor together with all that follows it. A program is clear of the
floor if its enumeration meets no improbable outcome. Then the kept paths are
those at whose end the wave does not vanish, and their probabilities add up to
one.
-/

namespace MeasurementCalculus

open Function (update)

namespace Program

/-- Every conditional probability of a measurement that the enumeration meets is zero
or exceeds the floor. -/
def ClearOfFloor
    (program : Program ℝ)
    (tolerance : ℝ) : Prop :=
  ∀ (index : Nat) (qubit : Qubit) (angle : ℝ) (s t : Signals),
    program.pattern.commands[index]? = some (.measure qubit angle s t) →
      ∀ branches, program.branchesBefore tolerance index = .ok branches →
        ∀ branch ∈ branches, ∀ pending,
          branch.run.measurement tolerance index qubit angle s t = .ok pending →
            ∀ outcome, 0 < pending.probability outcome →
              Scalar.probabilityFloor < pending.probability outcome

/-- The conditional probabilities that the enumeration meets are those of the two
extensions of the kept paths. -/
theorem clearOfFloor_iff
    {program : Program ℝ}
    {tolerance : ℝ}
    (nonneg : 0 ≤ tolerance) :
    program.ClearOfFloor tolerance ↔
      ∀ (index : Nat) (qubit : Qubit) (angle : ℝ) (s t : Signals),
        program.pattern.commands[index]? = some (.measure qubit angle s t) →
          ∀ (bits : Qubit → Bool) (wave : Wave program.width),
            Wave.Kept bits (program.pattern.commands.take index)
                (program.pattern.initialWave program.width) →
              wave = Wave.follow bits (program.pattern.commands.take index)
                (program.pattern.initialWave program.width) →
                ∀ outcome, 0 < (Wave.act (update bits qubit outcome)
                    (.measure qubit angle s t) wave).normSq / wave.normSq →
                  Scalar.probabilityFloor < (Wave.act (update bits qubit outcome)
                    (.measure qubit angle s t) wave).normSq / wave.normSq := by
  have unit := program.pattern.normSq_initialWave program.width
  constructor
  · rintro clear index qubit angle s t there bits _ kept rfl
    have member := (Branch.mem_kept_iff _ (program.allLegal_take index)).2
      ⟨bits, kept, rfl⟩
    obtain ⟨pending, pends, _, _, _, ratio⟩ := Branch.measurement_along unit kept
      (program.allLegal_take index) (program.legal_getElem there) nonneg index
    have possible := clear index qubit angle s t there _
      (program.branchesBefore_eq_ok nonneg index) _ member pending pends
    simpa only [ratio] using possible
  · rintro clear index qubit angle s t there branches reached branch member pending
      pends
    rw [program.branchesBefore_eq_ok nonneg] at reached
    obtain rfl := Except.ok.inj reached
    obtain ⟨bits, kept, rfl⟩ :=
      (Branch.mem_kept_iff _ (program.allLegal_take index)).1 member
    obtain ⟨_, same, _, _, _, ratio⟩ := Branch.measurement_along unit kept
      (program.allLegal_take index) (program.legal_getElem there) nonneg index
    obtain rfl := Except.ok.inj (same.symm.trans pends)
    simpa only [ratio] using clear index qubit angle s t there bits _ kept rfl

namespace ClearOfFloor

variable {program : Program ℝ} {tolerance : ℝ}

/-- Before every position, the kept paths are those on which the wave does not
vanish. -/
theorem kept_take_iff
    (clear : program.ClearOfFloor tolerance)
    (nonneg : 0 ≤ tolerance)
    (bits : Qubit → Bool)
    (index : Nat) :
    Wave.Kept bits (program.pattern.commands.take index)
        (program.pattern.initialWave program.width) ↔
      0 < (Wave.follow bits (program.pattern.commands.take index)
        (program.pattern.initialWave program.width)).normSq := by
  have unit := program.pattern.normSq_initialWave program.width
  refine ⟨fun kept => kept.normSq_pos (unit ▸ one_pos), ?_⟩
  induction index with
  | zero => exact fun _ => Wave.kept_nil bits _
  | succ index inductionHypothesis =>
      rw [List.take_add_one]
      cases there : program.pattern.commands[index]? with
      | none => simpa using inductionHypothesis
      | some command =>
          rw [Option.toList_some, Wave.follow_append, Wave.follow_cons,
            Wave.follow_nil, Wave.kept_append]
          intro positive
          have legal := program.legal_getElem there
          rcases command.measured?_eq_none_or with
            noMeasure | ⟨qubit, angle, s, t, rfl⟩
          · rw [Wave.normSq_act bits noMeasure] at positive
            exact ⟨inductionHypothesis positive, Wave.kept_singleton bits noMeasure _⟩
          · have apart (signal : Qubit) (member : signal ∈ s ++ t) :
                signal ≠ qubit := legal.ne_of_mem member (by simp)
            have before := positive.trans_le (Wave.normSq_act_measure_le bits apart
              (legal.target_lt qubit (by simp)) angle _)
            have kept := inductionHypothesis before
            refine ⟨kept, (Wave.kept_measure ..).2 ?_⟩
            have possible := (clearOfFloor_iff nonneg).1 clear index qubit angle s t
              there bits _ kept rfl (bits qubit)
            rw [Function.update_eq_self] at possible
            exact possible (div_pos positive before)

/-- The kept paths are those at whose end the wave does not vanish. -/
theorem kept_iff
    (clear : program.ClearOfFloor tolerance)
    (nonneg : 0 ≤ tolerance)
    (bits : Qubit → Bool) :
    Wave.Kept bits program.pattern.commands
        (program.pattern.initialWave program.width) ↔
      0 < (Wave.follow bits program.pattern.commands
        (program.pattern.initialWave program.width)).normSq := by
  have all := clear.kept_take_iff nonneg bits program.pattern.commands.length
  rwa [List.take_length] at all

/-- Every path has its squared norm as weight, whether it is kept or not. -/
theorem keptWeight_eq
    (clear : program.ClearOfFloor tolerance)
    (nonneg : 0 ≤ tolerance)
    (bits : Qubit → Bool) :
    Branch.keptWeight (program.pattern.initialWave program.width)
        program.pattern.commands bits =
      (Wave.follow bits program.pattern.commands
        (program.pattern.initialWave program.width)).normSq := by
  unfold Branch.keptWeight
  split
  · rfl
  · next dropped =>
      rw [clear.kept_iff nonneg, not_lt] at dropped
      exact le_antisymm (Wave.normSq_nonneg _) dropped

/-- Nothing is lost, so that the enumeration succeeds. -/
theorem enumerate_eq_ok
    (clear : program.ClearOfFloor tolerance)
    (nonneg : 0 ≤ tolerance) :
    program.enumerate tolerance = .ok program.pathDistribution := by
  have all := Branch.sum_normSq_follow
    (program.pattern.initialWave program.width) program.lawful.legal
  rw [Pattern.normSq_initialWave] at all
  have total : program.pathDistribution.total = 1 := by
    rw [total_pathDistribution, Branch.kept, List.map_map, ← all]
    refine (sum_map_filter _ _ _).trans (congrArg List.sum ?_)
    exact List.map_congr_left fun bits _ => clear.keptWeight_eq nonneg bits
  rw [program.enumerate_eq nonneg, total, sub_self, abs_zero, if_pos nonneg]

end ClearOfFloor

end Program

/-! ## Fair measurements -/

namespace Wave

variable {n : Nat} {qubit : Qubit}

/-- A wave in which a qubit is in the first basis state, so that a Pauli Z on it
changes nothing. -/
def Unset
    (qubit : Qubit)
    (wave : Wave n) : Prop :=
  wave.gateAt qubit .pauliZ = wave

/-- A product state in which the qubit has the first basis state as its factor. -/
theorem unset_product
    {kets : Fin n → Bool → ℂ}
    (unset : ∀ inside : qubit < n, kets ⟨qubit, inside⟩ true = 0) :
    Unset qubit (product kets) := by
  unfold Unset gateAt
  split
  · next inside =>
      funext digits
      rw [← GateMatrix.onlyIf_true .pauliZ, gate_onlyIf_pauliZ_apply, Bool.true_and]
      split
      · next set =>
          have vanishes : product kets digits = 0 :=
            Finset.prod_eq_zero (Finset.mem_univ ⟨qubit, inside⟩)
              (by rw [set, unset inside])
          rw [vanishes, neg_zero]
      · rfl
  · rfl

/-- Commands that do not flip or measure a qubit commute with a Pauli Z on it. -/
theorem act_pauliZ
    (bits : Qubit → Bool)
    {command : Command ℝ}
    (unflipped : ∀ signals, command ≠ .correctX qubit signals)
    (unmeasured : command.measured? ≠ some qubit)
    (wave : Wave n) :
    act bits command (gateAt qubit .pauliZ wave) =
      gateAt qubit .pauliZ (act bits command wave) := by
  cases command with
  | entangle first second => exact controlledZAt_pauliZ first second qubit true wave
  | measure target angle s t =>
      have different : target ≠ qubit := fun same => unmeasured (congrArg some same)
      exact gateAt_comm different _ _ wave
  | correctX target signals =>
      have different : target ≠ qubit := by
        rintro rfl
        exact unflipped signals rfl
      exact gateAt_comm different _ _ wave
  | correctZ target signals =>
      by_cases same : target = qubit
      · subst same
        cases fires : signals.under bits with
        | false => simp only [act, fires, GateMatrix.onlyIf_false, gateAt_one]
        | true => simp only [act, fires, GateMatrix.onlyIf_true]
      · exact gateAt_comm same _ _ wave

/-- A qubit in the first basis state stays there until it is flipped or measured. -/
theorem Unset.follow
    (bits : Qubit → Bool)
    {commands : List (Command ℝ)}
    (unflipped : ∀ signals, .correctX qubit signals ∉ commands)
    (unmeasured : qubit ∉ Command.measuredBy commands)
    {wave : Wave n}
    (unset : Unset qubit wave) :
    Unset qubit (Wave.follow bits commands wave) := by
  induction commands generalizing wave with
  | nil => exact unset
  | cons command rest inductionHypothesis =>
      rw [Command.measuredBy_cons, List.mem_append, not_or] at unmeasured
      refine inductionHypothesis (fun signals later =>
        unflipped signals (List.mem_cons_of_mem _ later)) unmeasured.2 ?_
      unfold Unset at unset ⊢
      rw [← act_pauliZ bits _ _ wave, unset]
      · rintro signals rfl
        exact unflipped signals List.mem_cons_self
      · intro measured
        exact unmeasured.1 (by simp [measured])

/-- The measurement of a qubit in the first basis state is fair. -/
theorem Unset.normSq_act_measure
    {wave : Wave n}
    (unset : Unset qubit wave)
    (bits : Qubit → Bool)
    {s t : Signals}
    (apart : ∀ signal ∈ s ++ t, signal ≠ qubit)
    (inside : qubit < n)
    (angle : ℝ)
    (outcome : Bool) :
    (act (update bits qubit outcome) (.measure qubit angle s t) wave).normSq =
      wave.normSq / 2 := by
  have total := normSq_act_measure_add bits apart inside angle wave
  -- A Pauli Z exchanges the states onto which the two outcomes project.
  have equal : (act (update bits qubit true) (.measure qubit angle s t) wave).normSq =
      (act (update bits qubit false) (.measure qubit angle s t) wave).normSq := by
    rw [act_measure_update bits apart, act_measure_update bits apart]
    nth_rewrite 1 [← unset]
    rw [gateAt_gateAt qubit _ _ inside, equatorialKet, GateMatrix.projector_mul_pauliZ,
      ← gateAt_gateAt qubit _ _ inside,
      normSq_gateAt_of_unitary qubit GateMatrix.pauliZ_unitary, equatorialKet]
    simp
  cases outcome with
  | false => linarith
  | true => linarith

end Wave

namespace Program

/-- Programs whose measured qubits start in the first basis state and are never
flipped are clear of the floor. -/
theorem clearOfFloor_of_unset
    {program : Program ℝ}
    (prepared : ∀ qubit ∈ program.pattern.measured,
      (qubit, .zero) ∈ program.pattern.declared)
    (unflipped : ∀ qubit ∈ program.pattern.measured, ∀ signals,
      .correctX qubit signals ∉ program.pattern.commands)
    {tolerance : ℝ}
    (nonneg : 0 ≤ tolerance) :
    program.ClearOfFloor tolerance := by
  have unit := program.pattern.normSq_initialWave program.width
  rw [clearOfFloor_iff nonneg]
  rintro index qubit angle s t there bits _ kept rfl outcome -
  have legal := program.legal_getElem there
  have measured : qubit ∈ program.pattern.measured :=
    List.mem_filterMap.2 ⟨_, List.mem_of_getElem? there, rfl⟩
  have initial : Wave.Unset qubit (program.pattern.initialWave program.width) := by
    refine Wave.unset_product fun _ => ?_
    rw [Pattern.initialState, (Run.lookup_eq_some_iff program.lawful.declared_nodup
      _ _).2 (prepared qubit measured)]
    rfl
  have unset := initial.follow bits
    (fun signals member => unflipped qubit measured signals (List.mem_of_mem_take member))
    (legal.target_notMem qubit (by simp))
  rw [unset.normSq_act_measure bits
    (fun signal member => legal.ne_of_mem member (by simp))
    (legal.target_lt qubit (by simp)), div_right_comm,
    div_self (kept.normSq_pos (unit ▸ one_pos)).ne', Scalar.probabilityFloor_real]
  norm_num

/-- A program with two fair measurements, of which the first one decides whether an
output is flipped. -/
noncomputable def fair : Program ℝ where
  pattern :=
    { preparations := [.input 0 .zero, .input 1 .zero, .ancillas [2]]
      commands :=
        [.entangle 0 2, .entangle 1 2, .measure 0 1 [] [], .measure 1 (-1) [] [],
          .correctX 2 [0]] }
  width := 3
  accepted := rfl

theorem clearOfFloor_fair
    {tolerance : ℝ}
    (nonneg : 0 ≤ tolerance) :
    fair.ClearOfFloor tolerance := by
  have measured : fair.pattern.measured = [0, 1] := rfl
  refine clearOfFloor_of_unset ?_ ?_ nonneg
  · rw [measured]
    simp [fair, Pattern.declared]
  · rw [measured]
    simp [fair]

end Program

end MeasurementCalculus
