import MeasurementCalculus.Proofs.Absorption
import MeasurementCalculus.Proofs.Collapse
import MeasurementCalculus.Proofs.Parity

/-!
# A measurement that absorbs corrections

The X and Z corrections of a qubit that fire before its measurement multiply
to one unitary matrix, their frame. A projector behind the frame is the
projector at another angle in front of it, and both project onto a single
state, so the frame takes one state to the other up to a phase. This phase is
all that is left of the corrections.
-/

namespace MeasurementCalculus

open Function (update)

namespace Signals

/-- Only the lowest bits of the recorded values matter to a parity. -/
theorem under_isOdd
    (lookup : Qubit → UInt8)
    (signals : Signals) :
    under (fun qubit => isOdd (lookup qubit)) signals = parity lookup signals := by
  induction signals with
  | nil => rfl
  | cons qubit rest inductionHypothesis =>
      rw [under_cons, inductionHypothesis, parity_cons]

/-- Lists can be merged into another one in any order. -/
theorem foldl_merge_perm
    (signals : Signals)
    {lists others : List Signals}
    (perm : lists.Perm others) :
    lists.foldl merge signals = others.foldl merge signals := by
  refine perm.foldl_eq' (fun first _ second _ start => ?_) signals
  rw [merge_assoc, merge_comm first, ← merge_assoc]

/-- Signals that are read off commands can be merged in the order in which they stand. -/
theorem foldl_merge_filterMap_reverse
    {R : Type}
    (view : Command R → Option Signals)
    (commands : List (Command R))
    (signals : Signals) :
    (commands.reverse.filterMap view).foldl merge signals =
      (commands.filterMap view).foldl merge signals := by
  rw [List.filterMap_reverse]
  exact foldl_merge_perm signals (List.reverse_perm _)

end Signals

/-! ## Projectors and phases -/

theorem isUnitKet_smul_iff
    {ket : Bool → ℂ}
    (unit : IsUnitKet ket)
    (phase : ℂ) :
    IsUnitKet (phase • ket) ↔ ‖phase‖ = 1 := by
  unfold IsUnitKet at unit ⊢
  simp only [Pi.smul_apply, smul_eq_mul, Complex.normSq_mul]
  rw [← mul_add, unit, mul_one, Complex.normSq_eq_norm_sq]
  exact pow_eq_one_iff_of_nonneg (norm_nonneg phase) two_ne_zero

namespace GateMatrix

theorem projector_mulVec
    (ket vector : Bool → ℂ) :
    (projector ket).mulVec vector = (star ket ⬝ᵥ vector) • ket := by
  funext digit
  simp only [Matrix.mulVec, dotProduct, projector_apply, Pi.smul_apply, Pi.star_apply,
    smul_eq_mul, Fintype.sum_bool, starRingEnd_apply]
  ring

/-- A unitary matrix that moves a projector onto one state behind the projector onto another
takes the one state to the other, up to a phase. -/
theorem exists_phase_of_projector_mul
    {first second : Bool → ℂ}
    (firstUnit : IsUnitKet first)
    (secondUnit : IsUnitKet second)
    {matrix : GateMatrix}
    (unitary : matrix.conjTranspose * matrix = 1)
    (moves : projector first * matrix = matrix * projector second) :
    ∃ phase : ℂ, ‖phase‖ = 1 ∧ matrix.mulVec second = phase • first := by
  have kept : (projector second).mulVec second = second := by
    rw [projector_mulVec, (isUnitKet_iff second).1 secondUnit, one_smul]
  have taken : matrix.mulVec second = (star first ⬝ᵥ matrix.mulVec second) • first := by
    calc matrix.mulVec second
        = (matrix * projector second).mulVec second := by
          rw [← Matrix.mulVec_mulVec, kept]
      _ = (projector first).mulVec (matrix.mulVec second) := by
          rw [← moves, ← Matrix.mulVec_mulVec]
      _ = (star first ⬝ᵥ matrix.mulVec second) • first := projector_mulVec _ _
  refine ⟨_, (isUnitKet_smul_iff firstUnit _).1 ?_, taken⟩
  rw [← taken]
  exact isUnitKet_mulVec unitary secondUnit

end GateMatrix

namespace Wave

variable {n : Nat}

/-- The overlap with a state of one qubit does not depend on the digit of this qubit. -/
theorem dependsOn_overlap
    (qubit : Fin n)
    (ket : Bool → ℂ)
    (wave : Wave n) :
    DependsOn (overlap qubit ket wave) {qubit}ᶜ := by
  intro first second agree
  have same (digit : Bool) : update first qubit digit = update second qubit digit := by
    funext other
    by_cases here : other = qubit
    · rw [here, Function.update_self, Function.update_self]
    · rw [Function.update_of_ne here, Function.update_of_ne here]
      exact agree other here
  rw [overlap, overlap, same, same]

/-- A gate behind a projection of the same qubit acts on the state onto which it projects. -/
theorem gate_gate_projector_apply
    (qubit : Fin n)
    (matrix : GateMatrix)
    (ket : Bool → ℂ)
    (wave : Wave n)
    (digits : Fin n → Bool) :
    gate qubit matrix (gate qubit (.projector ket) wave) digits =
      matrix.mulVec ket (digits qubit) * overlap qubit ket wave digits := by
  rw [gate_gate, gate_apply, overlap, Matrix.mul_apply, Matrix.mul_apply, Matrix.mulVec,
    dotProduct]
  simp only [GateMatrix.projector_apply, Fintype.sum_bool]
  ring

/-- In both waves one qubit is in a state of its own, and the amplitudes of all other qubits
are the same up to a phase. -/
def SameBeside
    (qubit : Fin n)
    (firstKet secondKet : Bool → ℂ)
    (first second : Wave n) : Prop :=
  ∃ (rest : Wave n) (phase : ℂ),
    DependsOn rest {qubit}ᶜ ∧ ‖phase‖ = 1 ∧
    (∀ digits, first digits = firstKet (digits qubit) * rest digits) ∧
    ∀ digits, second digits = secondKet (digits qubit) * (phase * rest digits)

section Moves

variable {firstKet secondKet : Bool → ℂ} {matrix : GateMatrix}

/-- A projection behind a gate is the gate behind the projection onto the other state. -/
theorem gate_projector_gate
    (moves : GateMatrix.projector firstKet * matrix = matrix * GateMatrix.projector secondKet)
    (qubit : Fin n)
    (wave : Wave n) :
    gate qubit (.projector firstKet) (gate qubit matrix wave) =
      gate qubit matrix (gate qubit (.projector secondKet) wave) := by
  rw [gate_gate, moves, gate_gate]

/-- Both projections leave the other qubits in the same state. -/
theorem sameBeside_project
    (firstUnit : IsUnitKet firstKet)
    (secondUnit : IsUnitKet secondKet)
    (unitary : matrix.conjTranspose * matrix = 1)
    (moves : GateMatrix.projector firstKet * matrix = matrix * GateMatrix.projector secondKet)
    (qubit : Fin n)
    (wave : Wave n)
    (factor : ℂ) :
    SameBeside qubit firstKet secondKet
      (factor • gate qubit (.projector firstKet) (gate qubit matrix wave))
      (factor • gate qubit (.projector secondKet) wave) := by
  obtain ⟨phase, unit, taken⟩ :=
    GateMatrix.exists_phase_of_projector_mul firstUnit secondUnit unitary moves
  have nonzero : phase ≠ 0 := norm_pos_iff.1 (unit ▸ one_pos)
  refine ⟨(factor * phase) • overlap qubit secondKet wave, phase⁻¹, ?_, ?_,
    fun digits => ?_, fun digits => ?_⟩
  · intro first second agree
    rw [Pi.smul_apply, Pi.smul_apply, dependsOn_overlap qubit secondKet wave agree]
  · rw [norm_inv, unit, inv_one]
  · rw [Pi.smul_apply, Pi.smul_apply, gate_projector_gate moves, gate_gate_projector_apply,
      taken, Pi.smul_apply]
    simp only [smul_eq_mul]
    ring
  · rw [Pi.smul_apply, Pi.smul_apply, gate_projector_apply]
    simp only [smul_eq_mul]
    field_simp

end Moves

end Wave

/-! ## Settled corrections -/

namespace StandardForm

section Settle

variable {R : Type} {qubit : Qubit}

theorem isCorrection_of_corrects
    {command : Command R}
    (onQubit : corrects qubit command = true) :
    command.isCorrection = true := by
  cases command with
  | entangle first second => cases onQubit
  | measure target angle s t => cases onQubit
  | correctX target signals => rfl
  | correctZ target signals => rfl

theorem filter_not_corrects_eq_nil
    {pending : List (Command R)}
    (onQubit : ∀ correction ∈ pending, corrects qubit correction = true) :
    (pending.filter fun correction => !corrects qubit correction) = [] := by
  refine List.filter_eq_nil_iff.2 fun correction member => ?_
  rw [onQubit correction member, Bool.not_true]
  exact Bool.false_ne_true

/-- Settling merges the signals of corrections into the measurement behind them. -/
theorem settle_corrections_measure
    {corrections : List (Command R)}
    (onQubit : ∀ correction ∈ corrections, corrects qubit correction = true)
    (angle : R)
    (s t : Signals) :
    settle (corrections ++ [.measure qubit angle s t]) =
      [.measure qubit angle ((corrections.filterMap (signalsX? qubit)).foldl Signals.merge s)
        ((corrections.filterMap (signalsZ? qubit)).foldl Signals.merge t)] := by
  have nothingLeft := filter_not_corrects_eq_nil fun correction member =>
    onQubit correction (List.mem_reverse.1 member)
  rw [settle, settleFrom_append_of_isCorrection fun correction member =>
      isCorrection_of_corrects (onQubit correction member), List.append_nil,
    settleFrom_measure, nothingLeft, Signals.foldl_merge_filterMap_reverse,
    Signals.foldl_merge_filterMap_reverse]
  rfl

end Settle

/-- A projector behind the frame of corrections that have been applied one after another. -/
theorem projector_mul_frame_reverse
    (bits : Qubit → Bool)
    (qubit : Qubit)
    (angle : ℝ)
    (outcome : Bool)
    (s t : Signals)
    (corrections : List (Command ℝ)) :
    GateMatrix.projector
        (equatorialKet (turnedAngle angle (s.under bits) (t.under bits)) outcome) *
          frame bits qubit corrections.reverse =
      frame bits qubit corrections.reverse *
        GateMatrix.projector (equatorialKet
          (turnedAngle angle
            (((corrections.filterMap (signalsX? qubit)).foldl Signals.merge s).under bits)
            (((corrections.filterMap (signalsZ? qubit)).foldl Signals.merge t).under bits))
          outcome) := by
  rw [projector_mul_frame, Signals.foldl_merge_filterMap_reverse,
    Signals.foldl_merge_filterMap_reverse]

end StandardForm

/-! ## Runs through corrections -/

namespace Run

variable {n : Nat}

/-- Apply commands that are not measurements, of which the first has the given position. -/
def applyFrom
    {R : Type}
    [Scalar R]
    (run : Run R n)
    (index : Nat) : List (Command R) → Except (Error R) (Run R n)
  | [] => .ok run
  | command :: rest => do
      let next ← run.apply index command
      next.applyFrom (index + 1) rest

/-- Signals that are recorded have the parity of the lowest bits. -/
theorem parity_eq_under
    {R : Type}
    (run : Run R n)
    {signals : Signals}
    (recorded : ∀ signal ∈ signals, (run.value? signal).isSome) :
    run.parity signals =
      .ok (signals.under fun qubit => Signals.isOdd ((run.value? qubit).getD 0)) := by
  rw [Signals.under_isOdd]
  exact run.parity_eq_ok recorded

/-- Applying several commands acts on the wave by one command after another. -/
theorem applyFrom_eq_follow
    {run : Run ℝ n}
    {bits : Qubit → Bool}
    {commands : List (Command ℝ)}
    (parity : ∀ command ∈ commands,
      run.parity command.signals = .ok (command.signals.under bits))
    (inside : ∀ command ∈ commands, ∀ target ∈ command.targets, target < n)
    (noMeasure : ∀ command ∈ commands, command.measured? = none)
    (index : Nat) :
    run.applyFrom index commands =
      .ok { run with register := .ofWave (run.register.wave.follow bits commands) } := by
  induction commands generalizing run index with
  | nil => rw [applyFrom, Wave.follow_nil, Register.ofWave_wave]
  | cons command rest inductionHypothesis =>
      rw [List.forall_mem_cons] at parity inside noMeasure
      rw [applyFrom, apply_eq_act parity.1 inside.1 noMeasure.1, ok_bind]
      -- The parities are the same after a command, because it records nothing.
      refine (inductionHypothesis ?_ inside.2 noMeasure.2 (index + 1)).trans ?_
      · exact parity.2
      · rw [Register.wave_ofWave, Wave.follow_cons]

/-- Corrections of one qubit apply their frame to it. -/
theorem applyFrom_corrections
    {run : Run ℝ n}
    {bits : Qubit → Bool}
    {qubit : Fin n}
    {corrections : List (Command ℝ)}
    (onQubit : ∀ correction ∈ corrections,
      StandardForm.corrects qubit.val correction = true)
    (parity : ∀ correction ∈ corrections,
      run.parity correction.signals = .ok (correction.signals.under bits))
    (index : Nat) :
    run.applyFrom index corrections =
      .ok { run with register := .ofWave <| run.register.wave.gate qubit <|
        StandardForm.frame bits qubit.val corrections.reverse } := by
  have isCorrection : ∀ correction ∈ corrections.reverse,
      correction.isCorrection = true := fun correction member =>
    StandardForm.isCorrection_of_corrects (onQubit correction (List.mem_reverse.1 member))
  have others := StandardForm.filter_not_corrects_eq_nil fun correction member =>
    onQubit correction (List.mem_reverse.1 member)
  have framed := StandardForm.follow_reverse_pending bits isCorrection qubit.isLt
    run.register.wave
  rw [others, List.reverse_reverse, Wave.gateAt_val] at framed
  rw [applyFrom_eq_follow parity, framed]
  · rfl
  · intro correction member target isTarget
    rw [StandardForm.targets_of_corrects (onQubit correction member),
      List.mem_singleton] at isTarget
    exact isTarget ▸ qubit.isLt
  · intro correction member
    exact StandardForm.measured?_of_isCorrection
      (isCorrection correction (List.mem_reverse.2 member))

/-- At every position and with every tolerance, a measurement command turns into the given
pending measurement, provided that the sum of both probabilities is accepted. -/
def Pends
    (run : Run ℝ n)
    (qubit : Qubit)
    (angle : ℝ)
    (s t : Signals)
    (pending : PendingMeasurement ℝ n) : Prop :=
  ∀ (tolerance : ℝ) (index : Nat),
    run.measurement tolerance index qubit angle s t =
      (acceptTotal pending.total tolerance (.measurement qubit index)).map fun _ => pending

theorem pends_pendingAt
    {run : Run ℝ n}
    (qubit : Fin n)
    (angle : ℝ)
    {s t : Signals}
    {flipped shifted : Bool}
    (parityS : run.parity s = .ok flipped)
    (parityT : run.parity t = .ok shifted) :
    run.Pends qubit.val angle s t
      (run.pendingAt qubit (turnedAngle angle flipped shifted)) := by
  intro tolerance index
  rw [measurement_eq_map_pendingAt qubit angle parityS parityT, effectiveAngle_real]

/-- Collapsing two runs whose projected waves are related by a unitary matrix. -/
theorem exists_collapse_sameBeside
    {run : Run ℝ n}
    {qubit : Fin n}
    {firstAngle secondAngle : ℝ}
    {outcome : Bool}
    {matrix : GateMatrix}
    (unitary : matrix.conjTranspose * matrix = 1)
    (moves : GateMatrix.projector (equatorialKet firstAngle outcome) * matrix =
      matrix * GateMatrix.projector (equatorialKet secondAngle outcome))
    {moved : Run ℝ n}
    (sameValues : moved.values = run.values)
    (sameOrder : moved.order = run.order)
    (wave : moved.register.wave = run.register.wave.gate qubit matrix) :
    (moved.pendingAt qubit firstAngle).probability outcome =
        (run.pendingAt qubit secondAngle).probability outcome ∧
      (Scalar.probabilityFloor < (moved.pendingAt qubit firstAngle).probability outcome →
        ∀ tolerance : ℝ, 0 ≤ tolerance → ∀ index other, ∃ first second,
          moved.collapse tolerance index (moved.pendingAt qubit firstAngle) outcome =
            .ok first ∧
          run.collapse tolerance other (run.pendingAt qubit secondAngle) outcome =
            .ok second ∧
          first.values = second.values ∧
          first.order = second.order ∧
          Wave.SameBeside qubit (equatorialKet firstAngle outcome)
            (equatorialKet secondAngle outcome) first.register.wave second.register.wave) := by
  have sameNorm : (moved.register.wave.gate qubit
        (.projector (equatorialKet firstAngle outcome))).normSq =
      (run.register.wave.gate qubit
        (.projector (equatorialKet secondAngle outcome))).normSq := by
    rw [wave, Wave.gate_projector_gate moves, Wave.normSq_gate_of_unitary _ unitary]
  have sameProbability : (moved.pendingAt qubit firstAngle).probability outcome =
      (run.pendingAt qubit secondAngle).probability outcome := by
    rw [probability_pendingAt, probability_pendingAt, sameNorm]
  have projects (any : Run ℝ n) (angle : ℝ) :
      (any.pendingAt qubit angle).probability outcome =
        Wave.normSq ((outcomeProjector qubit angle outcome).mulVec any.register.wave) := by
    rw [probability_pendingAt, outcomeProjector, onQubit_mulVec]
  refine ⟨sameProbability, fun possible tolerance nonneg index other => ?_⟩
  obtain ⟨first, firstCollapses, firstRecords, firstWave, _⟩ :=
    exists_collapse_eq_normalized (projects moved firstAngle) possible nonneg index
  obtain ⟨second, secondCollapses, secondRecords, secondWave, _⟩ :=
    exists_collapse_eq_normalized (projects run secondAngle) (sameProbability ▸ possible)
      nonneg other
  refine ⟨first, second, firstCollapses, secondCollapses, ?_, ?_, ?_⟩
  · rw [firstRecords, secondRecords, record, record, sameValues]
    rfl
  · rw [firstRecords, secondRecords, record, record, sameOrder]
    rfl
  · rw [firstWave, secondWave]
    change Wave.SameBeside _ _ _
      (Wave.normalized ((outcomeProjector qubit firstAngle outcome).mulVec _))
      (Wave.normalized ((outcomeProjector qubit secondAngle outcome).mulVec _))
    rw [outcomeProjector, outcomeProjector, onQubit_mulVec, onQubit_mulVec,
      Wave.normalized, Wave.normalized, sameNorm, wave]
    exact Wave.sameBeside_project (isUnitKet_equatorialKet _ _)
      (isUnitKet_equatorialKet _ _) unitary moves qubit _ _

section Absorb

open StandardForm

/-- A measurement absorbs the corrections of its qubit into its signals: the
probabilities of both measurements are the same, and after either collapse
all other qubits have the same amplitudes, up to a phase. -/
theorem measurement_absorbs_corrections
    (run : Run ℝ n)
    (qubit : Fin n)
    {corrections : List (Command ℝ)}
    (onQubit : ∀ correction ∈ corrections, corrects qubit.val correction = true)
    {s t : Signals}
    (recorded : ∀ signal ∈ s ++ t ++ corrections.flatMap Command.signals,
      (run.value? signal).isSome)
    (angle : ℝ) :
    ∃ (flips shifts : Signals) (corrected : Run ℝ n)
      (pending absorbed : PendingMeasurement ℝ n),
      flips = (corrections.filterMap (signalsX? qubit.val)).foldl Signals.merge s ∧
      shifts = (corrections.filterMap (signalsZ? qubit.val)).foldl Signals.merge t ∧
      settle (corrections ++ [.measure qubit.val angle s t]) =
        [.measure qubit.val angle flips shifts] ∧
      (∀ index, run.applyFrom index corrections = .ok corrected) ∧
      corrected.Pends qubit.val angle s t pending ∧
      run.Pends qubit.val angle flips shifts absorbed ∧
      pending.total = run.register.normSq ∧
      absorbed.total = run.register.normSq ∧
      ∀ outcome,
        pending.probability outcome = absorbed.probability outcome ∧
        (Scalar.probabilityFloor < pending.probability outcome →
          ∀ tolerance : ℝ, 0 ≤ tolerance → ∀ index other, ∃ first second,
            corrected.collapse tolerance index pending outcome = .ok first ∧
            run.collapse tolerance other absorbed outcome = .ok second ∧
            first.values = second.values ∧
            first.order = second.order ∧
            Wave.SameBeside qubit (equatorialKet pending.angle outcome)
              (equatorialKet absorbed.angle outcome)
              first.register.wave second.register.wave) := by
  let bits (signal : Qubit) : Bool := Signals.isOdd ((run.value? signal).getD 0)
  let flips := (corrections.filterMap (signalsX? qubit.val)).foldl Signals.merge s
  let shifts := (corrections.filterMap (signalsZ? qubit.val)).foldl Signals.merge t
  let matrix := frame bits qubit.val corrections.reverse
  let corrected : Run ℝ n :=
    { run with register := .ofWave (run.register.wave.gate qubit matrix) }
  rw [List.forall_mem_append, List.forall_mem_append, List.forall_mem_flatMap] at recorded
  obtain ⟨⟨recordedS, recordedT⟩, recordedCorrections⟩ := recorded
  have recordedFlips : ∀ signal ∈ flips, (run.value? signal).isSome :=
    forall_mem_merged signals_of_signalsX? recordedS recordedCorrections
  have recordedShifts : ∀ signal ∈ shifts, (run.value? signal).isSome :=
    forall_mem_merged signals_of_signalsZ? recordedT recordedCorrections
  have collapses (outcome : Bool) :=
    exists_collapse_sameBeside (frame_unitary bits qubit.val corrections.reverse)
      (projector_mul_frame_reverse bits qubit.val angle outcome s t corrections)
      (show corrected.values = run.values from rfl) rfl (Register.wave_ofWave _)
  refine ⟨flips, shifts, corrected,
    corrected.pendingAt qubit (turnedAngle angle (s.under bits) (t.under bits)),
    run.pendingAt qubit (turnedAngle angle (flips.under bits) (shifts.under bits)),
    rfl, rfl, settle_corrections_measure onQubit angle s t,
    applyFrom_corrections onQubit fun correction member =>
      run.parity_eq_under (recordedCorrections correction member),
    pends_pendingAt qubit angle (run.parity_eq_under recordedS)
      (run.parity_eq_under recordedT),
    pends_pendingAt qubit angle (run.parity_eq_under recordedFlips)
      (run.parity_eq_under recordedShifts), ?_, ?_, collapses⟩
  · rw [total_pendingAt, Register.wave_ofWave,
      Wave.normSq_gate_of_unitary _ (frame_unitary bits qubit.val _),
      Register.normSq_eq_normSq_wave]
  · rw [total_pendingAt, Register.normSq_eq_normSq_wave]

/-- Two entangled qubits behind one that is recorded as one. -/
noncomputable def recordedBeforePair : Run ℝ 3 :=
  Run.record
    (.blank (.ofWave ((Wave.product fun _ => Ket.plus.state).controlledZ 1 2))) 0 true

theorem normSq_recordedBeforePair : recordedBeforePair.register.normSq = 1 := by
  rw [Register.normSq_eq_normSq_wave, recordedBeforePair, register_record, blank,
    Register.wave_ofWave, Wave.normSq_controlledZ,
    Wave.normSq_product fun _ => Ket.isUnitKet_state _]

theorem measurement_absorbs_corrections_entangled :
    settle [.correctX 1 [0], .correctZ 1 [0], .correctX 1 [], .measure 1 (1 : ℝ) [0] []] =
        [.measure 1 1 [] [0]] ∧
      ∃ corrected pending absorbed outcome first second,
        recordedBeforePair.applyFrom 0
          [.correctX 1 [0], .correctZ 1 [0], .correctX 1 []] = .ok corrected ∧
        corrected.measurement 0 3 1 1 [0] [] = .ok pending ∧
        recordedBeforePair.measurement 0 0 1 1 [] [0] = .ok absorbed ∧
        pending.probability outcome = absorbed.probability outcome ∧
        corrected.collapse 0 3 pending outcome = .ok first ∧
        recordedBeforePair.collapse 0 0 absorbed outcome = .ok second ∧
        Wave.SameBeside 1 (equatorialKet pending.angle outcome)
          (equatorialKet absorbed.angle outcome)
          first.register.wave second.register.wave := by
  obtain ⟨flips, shifts, corrected, pending, absorbed, rfl, rfl, settled, applies, pends,
    absorbs, total, absorbedTotal, outcomes⟩ :=
    measurement_absorbs_corrections recordedBeforePair 1
      (show ∀ correction ∈ [Command.correctX 1 [0], .correctZ 1 [0], .correctX 1 []],
        corrects 1 correction = true by decide)
      (show ∀ signal ∈ [0] ++ [] ++ [0, 0],
        (recordedBeforePair.value? signal).isSome by decide)
      1
  rw [normSq_recordedBeforePair] at total absorbedTotal
  have accepted (context : NumericContext) : acceptTotal (1 : ℝ) 0 context = .ok () := by
    rw [acceptTotal_real, sub_self, abs_zero, if_pos le_rfl]
  have measured := pends 0 3
  have measuredAlone := absorbs 0 0
  rw [total, accepted] at measured
  rw [absorbedTotal, accepted] at measuredAlone
  obtain ⟨outcome, possible⟩ := PendingMeasurement.exists_above_floor total
  obtain ⟨same, collapse⟩ := outcomes outcome
  obtain ⟨first, second, collapses, collapsesAlone, _, _, beside⟩ :=
    collapse possible 0 le_rfl 3 0
  exact ⟨settled, corrected, pending, absorbed, outcome, first, second, applies 0, measured,
    measuredAlone, same, collapses, collapsesAlone, beside⟩

end Absorb

end Run

end MeasurementCalculus
