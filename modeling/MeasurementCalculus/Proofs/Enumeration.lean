import MeasurementCalculus.Proofs.Path
import MeasurementCalculus.Proofs.Safety

/-!
# Branches are normalized paths

The enumeration works with normalized registers and with quotients of
probabilities. In exact arithmetic it has a closed form: the branches are the
paths, in ascending order of their bits, without those in which a conditional
probability does not exceed the floor. The register of a branch is the
normalized wave along the path, and its probability the squared norm.
-/

namespace MeasurementCalculus

open Function (update)

/-! ## Choices of bits -/

/-- All choices of bits for the listed qubits, the bit of the last one varying
fastest. Every other qubit has bit zero. -/
def choices (qubits : List Qubit) : List (Qubit → Bool) :=
  qubits.foldl
    (fun earlier qubit => earlier.flatMap fun bits =>
      [false, true].map (update bits qubit))
    [fun _ => false]

@[simp] theorem choices_nil : choices [] = [fun _ => false] := rfl

theorem choices_append_singleton
    (qubits : List Qubit)
    (qubit : Qubit) :
    choices (qubits ++ [qubit]) =
      (choices qubits).flatMap fun bits =>
        [false, true].map (update bits qubit) := by
  rw [choices, List.foldl_append]
  rfl

/-- The choices are the assignments of bits that vanish on all other qubits. -/
theorem mem_choices_iff
    {qubits : List Qubit}
    {bits : Qubit → Bool} :
    bits ∈ choices qubits ↔ ∀ qubit, qubit ∉ qubits → bits qubit = false := by
  induction qubits using List.reverseRecOn generalizing bits with
  | nil => simp [funext_iff]
  | append_singleton qubits last inductionHypothesis =>
      rw [choices_append_singleton, List.mem_flatMap]
      constructor
      · rintro ⟨earlier, member, extended⟩ qubit absent
        rw [List.mem_append, List.mem_singleton, not_or] at absent
        obtain ⟨bit, _, rfl⟩ := List.mem_map.1 extended
        rw [Function.update_of_ne absent.2]
        exact inductionHypothesis.1 member qubit absent.1
      · intro vanish
        refine ⟨update bits last false, ?_, List.mem_map.2 ⟨bits last, ?_, ?_⟩⟩
        · rw [inductionHypothesis]
          intro qubit absent
          by_cases same : qubit = last
          · rw [same, Function.update_self]
          · rw [Function.update_of_ne same]
            exact vanish qubit (by simp [absent, same])
        · cases bits last <;> simp
        · rw [Function.update_idem, Function.update_eq_self]

theorem nodup_choices
    {qubits : List Qubit}
    (nodup : qubits.Nodup) :
    (choices qubits).Nodup := by
  induction qubits using List.reverseRecOn with
  | nil => exact List.nodup_singleton _
  | append_singleton qubits last inductionHypothesis =>
      rw [List.nodup_append] at nodup
      have fresh : last ∉ qubits := fun member =>
        nodup.2.2 last member last (List.mem_singleton_self _) rfl
      have vanish {bits : Qubit → Bool} (member : bits ∈ choices qubits) :
          update bits last false = bits := by
        rw [← mem_choices_iff.1 member last fresh, Function.update_eq_self]
      rw [choices_append_singleton, List.nodup_flatMap]
      refine ⟨fun bits _ => ?_, ?_⟩
      · refine List.Nodup.map (fun first second same => ?_) (by decide)
        simpa using congrFun same last
      · refine (inductionHypothesis nodup.1).imp_of_mem ?_
        intro first second firstMember secondMember different
        rw [Function.onFun, List.disjoint_left]
        intro extended firstExtends secondExtends
        obtain ⟨firstBit, _, rfl⟩ := List.mem_map.1 firstExtends
        obtain ⟨secondBit, _, same⟩ := List.mem_map.1 secondExtends
        have erased := congrArg (update · last false) same
        simp only [Function.update_idem] at erased
        apply different
        rw [← vanish firstMember, ← vanish secondMember, erased]

/-- The choices do not depend on the order of the qubits, but for their own order. -/
theorem choices_perm
    {first second : List Qubit}
    (nodup : first.Nodup)
    (perm : first.Perm second) :
    (choices first).Perm (choices second) := by
  refine (List.perm_ext_iff_of_nodup (nodup_choices nodup)
    (nodup_choices (perm.nodup_iff.1 nodup))).2 fun bits => ?_
  simp only [mem_choices_iff, perm.mem_iff]

/-- A sum over choices goes over both bits of the last qubit. -/
theorem sum_choices_append_singleton
    (qubits : List Qubit)
    (qubit : Qubit)
    (weight : (Qubit → Bool) → ℝ) :
    ((choices (qubits ++ [qubit])).map weight).sum =
      ((choices qubits).map fun bits =>
        weight (update bits qubit false) + weight (update bits qubit true)).sum := by
  rw [choices_append_singleton, List.map_flatMap, List.flatMap_def,
    List.sum_flatten, List.map_map]
  congr 1
  apply List.map_congr_left
  intro bits _
  simp

/-- Filtering and mapping a list of extensions of the kept members of a list. -/
theorem flatMap_filter_eq
    {α β γ : Type}
    (members : List α)
    (kept : α → Bool)
    (extensions : α → List β)
    (keptLater : β → Bool)
    (result : β → γ)
    (results : α → List γ)
    (agree : ∀ member ∈ members,
      ((extensions member).filter keptLater).map result =
        if kept member then results member else []) :
    ((members.filter kept).map results).flatten =
      ((members.flatMap extensions).filter keptLater).map result := by
  induction members with
  | nil => rfl
  | cons head tail inductionHypothesis =>
      have tailAgrees := inductionHypothesis fun member inside =>
        agree member (List.mem_cons_of_mem _ inside)
      rw [List.flatMap_cons, List.filter_append, List.map_append,
        agree head List.mem_cons_self, ← tailAgrees, List.filter_cons]
      split
      · rw [List.map_cons, List.flatten_cons]
      · rfl

/-! ## Outcomes along a path -/

namespace Outcome

/-- The outcome in which the listed qubits have the bits of a path. -/
def along
    (bits : Qubit → Bool)
    (qubits : List Qubit) : Outcome :=
  ⟨qubits.map fun qubit => (qubit, (bits qubit).toUInt8)⟩

theorem along_congr
    {first second : Qubit → Bool}
    {qubits : List Qubit}
    (agree : ∀ qubit ∈ qubits, first qubit = second qubit) :
    along first qubits = along second qubits := by
  apply Outcome.ext
  exact List.map_congr_left fun qubit member => by rw [agree qubit member]

/-- The outcome shows the bits of the path. -/
theorem eq_of_along_eq
    {first second : Qubit → Bool}
    {qubits : List Qubit}
    (same : along first qubits = along second qubits)
    {qubit : Qubit}
    (member : qubit ∈ qubits) :
    first qubit = second qubit := by
  have value := List.map_inj_left.1 (congrArg bits same) qubit member
  have shown := (Prod.mk.inj value).2
  cases firstBit : first qubit <;> cases secondBit : second qubit <;>
    simp [firstBit, secondBit, Bool.toUInt8] at shown ⊢

theorem bit?_along
    (bits : Qubit → Bool)
    {qubits : List Qubit}
    {qubit : Qubit}
    (member : qubit ∈ qubits) :
    (along bits qubits).bit? qubit = some (bits qubit).toUInt8 := by
  exact bit?_map (fun qubit => (bits qubit).toUInt8) member

end Outcome

namespace Run

variable {R : Type} {n : Nat}

/-- A run that has recorded the bits of a path for the listed qubits. -/
def holding
    (register : Register (Amplitude R) n)
    (bits : Qubit → Bool)
    (measured : List Qubit) : Run R n where
  register := register
  values := .ofFn fun qubit =>
    if qubit.val ∈ measured then some (bits qubit.val).toUInt8 else none
  order := measured

theorem holding_nil
    (register : Register (Amplitude R) n)
    (bits : Qubit → Bool) :
    holding register bits [] = blank register := by
  unfold holding blank
  congr 1
  apply Vector.ext
  simp

theorem value?_holding
    (register : Register (Amplitude R) n)
    (bits : Qubit → Bool)
    (measured : List Qubit)
    {qubit : Qubit}
    (inside : qubit < n) :
    (holding register bits measured).value? qubit =
      if qubit ∈ measured then some (bits qubit).toUInt8 else none := by
  simp [value?, holding, inside]

section Below

variable {measured : List Qubit} (below : ∀ qubit ∈ measured, qubit < n)
include below

theorem value?_holding_of_mem
    (register : Register (Amplitude R) n)
    (bits : Qubit → Bool)
    {qubit : Qubit}
    (member : qubit ∈ measured) :
    (holding register bits measured).value? qubit = some (bits qubit).toUInt8 := by
  rw [value?_holding register bits measured (below qubit member), if_pos member]

theorem recorded_holding
    (register : Register (Amplitude R) n)
    (bits : Qubit → Bool) :
    (holding register bits measured).Recorded measured where
  order_eq := rfl
  isSome_iff qubit := by
    constructor
    · intro filled
      by_contra absent
      rw [value?_holding register bits measured (lt_of_isSome_value? filled),
        if_neg absent] at filled
      cases filled
    · intro member
      rw [value?_holding_of_mem below register bits member]
      rfl

theorem outcome_holding
    (register : Register (Amplitude R) n)
    (bits : Qubit → Bool) :
    (holding register bits measured).outcome = .along bits measured := by
  apply Outcome.ext
  refine List.map_congr_left fun qubit member => ?_
  rw [value?_holding_of_mem below register bits member, Option.getD_some]

end Below

theorem holding_congr
    (register : Register (Amplitude R) n)
    {first second : Qubit → Bool}
    {measured : List Qubit}
    (agree : ∀ qubit ∈ measured, first qubit = second qubit) :
    holding register first measured = holding register second measured := by
  unfold holding
  congr 2
  funext qubit
  split
  · next member => rw [agree qubit.val member]
  · rfl

/-- Recording a bit of a new qubit changes the path at this qubit. -/
theorem record_holding
    (register : Register (Amplitude R) n)
    (bits : Qubit → Bool)
    {measured : List Qubit}
    {qubit : Fin n}
    (fresh : qubit.val ∉ measured)
    (bit : Bool) :
    (holding register bits measured).record qubit bit =
      holding register (update bits qubit.val bit) (measured ++ [qubit.val]) := by
  have earlier : holding register bits measured =
      holding register (update bits qubit.val bit) measured := by
    apply holding_congr
    intro other member
    refine (Function.update_of_ne ?_ _ _).symm
    rintro rfl
    exact fresh member
  rw [earlier]
  unfold holding record
  congr 1
  apply Vector.ext
  intro index inside
  rw [Vector.getElem_set, Vector.getElem_ofFn, Vector.getElem_ofFn]
  by_cases same : qubit.val = index
  · subst same
    simp
  · simp [same, Ne.symm same]

end Run

/-! ## Single steps in exact arithmetic -/

theorem effectiveAngle_real
    (angle : ℝ)
    (flipped shifted : Bool) :
    effectiveAngle angle flipped shifted = turnedAngle angle flipped shifted := by
  unfold effectiveAngle turnedAngle
  cases shifted <;> simp [Scalar.ofBool]

/-- A register whose wave has norm one is accepted. -/
theorem Register.acceptNorm_eq_ok
    {n : Nat}
    {register : Register (Amplitude ℝ) n}
    {tolerance : ℝ}
    (nonneg : 0 ≤ tolerance)
    (unit : register.wave.normSq = 1)
    (context : NumericContext) :
    register.acceptNorm tolerance context = .ok () := by
  rw [acceptNorm, acceptTotal_real, normSq_eq_normSq_wave, unit, sub_self,
    abs_zero, if_pos nonneg]

namespace Wave

variable {n : Nat}

/-- A wave divided by its norm. -/
noncomputable def normalized (wave : Wave n) : Wave n :=
  ((1 / Real.sqrt wave.normSq : ℝ) : ℂ) • wave

theorem normalized_of_unit
    {wave : Wave n}
    (unit : wave.normSq = 1) :
    wave.normalized = wave := by
  rw [normalized, unit, Real.sqrt_one, div_one, Complex.ofReal_one, one_smul]

theorem normSq_inv_sqrt
    {weight : ℝ}
    (nonneg : 0 ≤ weight) :
    Complex.normSq ((1 / Real.sqrt weight : ℝ) : ℂ) = 1 / weight := by
  rw [Complex.normSq_ofReal, div_mul_div_comm, Real.mul_self_sqrt nonneg,
    one_mul]

theorem normSq_normalized
    {wave : Wave n}
    (positive : 0 < wave.normSq) :
    wave.normalized.normSq = 1 := by
  rw [normalized, normSq_smul, normSq_inv_sqrt positive.le,
    one_div_mul_cancel positive.ne']

/-- A command that is not a measurement commutes with normalization. -/
theorem act_normalized
    (bits : Qubit → Bool)
    {command : Command ℝ}
    (noMeasure : command.measured? = none)
    (wave : Wave n) :
    act bits command wave.normalized = (act bits command wave).normalized := by
  rw [normalized, act_smul, normalized, normSq_act bits noMeasure]

/-- The probability of an outcome in a normalized wave is the ratio of the squared
norms after and before the measurement. -/
theorem normSq_act_normalized
    (bits : Qubit → Bool)
    (command : Command ℝ)
    (wave : Wave n) :
    (act bits command wave.normalized).normSq =
      (act bits command wave).normSq / wave.normSq := by
  rw [normalized, act_smul, normSq_smul, normSq_inv_sqrt wave.normSq_nonneg,
    one_div_mul_eq_div]

/-- Projecting a normalized wave and dividing by the root of the probability is
the same as projecting and normalizing. -/
theorem inv_sqrt_smul_act_normalized
    (bits : Qubit → Bool)
    (command : Command ℝ)
    {wave : Wave n}
    (positive : 0 < wave.normSq) :
    ((1 / Real.sqrt ((act bits command wave).normSq / wave.normSq) : ℝ) : ℂ) •
        act bits command wave.normalized =
      (act bits command wave).normalized := by
  rw [normalized, act_smul, smul_smul, ← Complex.ofReal_mul, normalized,
    Real.sqrt_div (normSq_nonneg _)]
  congr 2
  have root : Real.sqrt wave.normSq ≠ 0 := (Real.sqrt_pos.2 positive).ne'
  field_simp

/-! ## Kept paths -/

/-- A path all of whose conditional probabilities exceed the floor. -/
def Kept
    (bits : Qubit → Bool)
    (commands : List (Command ℝ))
    (wave : Wave n) : Prop :=
  ∀ probability ∈ conditionals bits commands wave,
    Scalar.probabilityFloor < probability

noncomputable instance
    (bits : Qubit → Bool)
    (commands : List (Command ℝ))
    (wave : Wave n) : Decidable (Kept bits commands wave) :=
  inferInstanceAs (Decidable (∀ probability ∈ conditionals bits commands wave,
    Scalar.probabilityFloor < probability))

theorem kept_nil
    (bits : Qubit → Bool)
    (wave : Wave n) :
    Kept bits [] wave := by
  intro probability member
  cases member

theorem kept_append
    (bits : Qubit → Bool)
    (first second : List (Command ℝ))
    (wave : Wave n) :
    Kept bits (first ++ second) wave ↔
      Kept bits first wave ∧ Kept bits second (follow bits first wave) := by
  simp only [Kept, conditionals_append, List.mem_append, or_imp, forall_and]

theorem kept_singleton
    (bits : Qubit → Bool)
    {command : Command ℝ}
    (noMeasure : command.measured? = none)
    (wave : Wave n) :
    Kept bits [command] wave := by
  cases command with
  | measure qubit angle s t => cases noMeasure
  | entangle first second => exact kept_nil bits wave
  | correctX qubit signals => exact kept_nil bits wave
  | correctZ qubit signals => exact kept_nil bits wave

/-- A command that is not a measurement keeps every path. -/
theorem kept_append_of_none
    (bits : Qubit → Bool)
    (before : List (Command ℝ))
    {command : Command ℝ}
    (noMeasure : command.measured? = none)
    (wave : Wave n) :
    Kept bits (before ++ [command]) wave ↔ Kept bits before wave := by
  rw [kept_append]
  exact and_iff_left (kept_singleton bits noMeasure _)

theorem kept_measure
    (bits : Qubit → Bool)
    (qubit : Qubit)
    (angle : ℝ)
    (s t : Signals)
    (wave : Wave n) :
    Kept bits [.measure qubit angle s t] wave ↔
      Scalar.probabilityFloor <
        (act bits (.measure qubit angle s t) wave).normSq / wave.normSq :=
  List.forall_mem_singleton

/-- The wave of a kept path does not vanish. -/
theorem Kept.normSq_pos
    {bits : Qubit → Bool}
    {commands : List (Command ℝ)}
    {wave : Wave n}
    (kept : Kept bits commands wave)
    (positive : 0 < wave.normSq) :
    0 < (follow bits commands wave).normSq := by
  induction commands generalizing wave with
  | nil => exact positive
  | cons command rest inductionHypothesis =>
      obtain ⟨head, tail⟩ := (kept_append bits [command] rest wave).1 kept
      refine inductionHypothesis tail ?_
      change 0 < (act bits command wave).normSq
      rcases command.measured?_eq_none_or with
        noMeasure | ⟨qubit, angle, s, t, rfl⟩
      · rw [normSq_act bits noMeasure]
        exact positive
      · have ratio := (kept_measure bits qubit angle s t wave).1 head
        have above := Scalar.probabilityFloor_pos.trans ratio
        exact (div_pos_iff_of_pos_right positive).1 above

/-- The norm at the end of a kept path is the product of the conditional
probabilities. -/
theorem Kept.prod_conditionals_mul
    {bits : Qubit → Bool}
    {commands : List (Command ℝ)}
    {wave : Wave n}
    (kept : Kept bits commands wave)
    (positive : 0 < wave.normSq) :
    (conditionals bits commands wave).prod * wave.normSq =
      (follow bits commands wave).normSq := by
  induction commands generalizing wave with
  | nil => simp
  | cons command rest inductionHypothesis =>
      obtain ⟨head, tail⟩ := (kept_append bits [command] rest wave).1 kept
      have next := head.normSq_pos positive
      rw [follow_cons, follow_nil] at next tail
      rw [conditionals_cons, List.prod_append, follow_cons,
        ← inductionHypothesis tail next]
      rcases command.measured?_eq_none_or with
        noMeasure | ⟨qubit, angle, s, t, rfl⟩
      · rw [normSq_act bits noMeasure, (normSq_follow bits (by simp [noMeasure]) wave).2,
          List.prod_nil, one_mul]
      · have single : conditionals bits [.measure qubit angle s t] wave =
            [(act bits (.measure qubit angle s t) wave).normSq / wave.normSq] := rfl
        rw [single, List.prod_singleton, mul_right_comm,
          div_mul_cancel₀ _ positive.ne', mul_comm]

theorem kept_congr
    {first second : Qubit → Bool}
    {width : Nat}
    {measured : List Qubit}
    {commands : List (Command ℝ)}
    (legal : Command.AllLegal width measured commands)
    (agree : ∀ qubit ∈ measured ++ Command.measuredBy commands,
      first qubit = second qubit)
    (wave : Wave n) :
    Kept first commands wave ↔ Kept second commands wave := by
  rw [Kept, (follow_congr legal agree wave).2, Kept]

end Wave

/-! ## Runs -/

namespace Run

variable {n : Nat}

/-- Applying a command acts on the wave of the register. -/
theorem apply_eq_act
    {run : Run ℝ n}
    {bits : Qubit → Bool}
    {command : Command ℝ}
    (parity : run.parity command.signals = .ok (command.signals.under bits))
    (inside : ∀ target ∈ command.targets, target < n)
    (noMeasure : command.measured? = none)
    (index : Nat) :
    run.apply index command =
      .ok { run with
        register := .ofWave (Wave.act bits command run.register.wave) } := by
  cases command with
  | measure qubit angle s t => cases noMeasure
  | entangle first second =>
      have firstInside := inside first (by simp)
      have secondInside := inside second (by simp)
      rw [apply, locate_eq_ok firstInside, locate_eq_ok secondInside]
      simp only [ok_bind]
      rw [Wave.act, Wave.controlledZAt, dif_pos ⟨firstInside, secondInside⟩,
        ← Register.wave_controlledZ, Register.ofWave_wave]
  | correctX qubit signals =>
      have qubitInside := inside qubit (by simp)
      rw [Command.signals_correctX] at parity
      rw [apply, parity, locate_eq_ok qubitInside]
      simp only [ok_bind]
      rw [Wave.act, Wave.gateAt, dif_pos qubitInside]
      cases signals.under bits with
      | false => simp
      | true =>
          rw [GateMatrix.onlyIf_true, ← Register.wave_pauliX,
            Register.ofWave_wave, if_pos rfl]
  | correctZ qubit signals =>
      have qubitInside := inside qubit (by simp)
      rw [Command.signals_correctZ] at parity
      rw [apply, parity, locate_eq_ok qubitInside]
      simp only [ok_bind]
      rw [Wave.act, Wave.gateAt, dif_pos qubitInside]
      cases signals.under bits with
      | false => simp
      | true =>
          rw [GateMatrix.onlyIf_true, ← Register.wave_pauliZ,
            Register.ofWave_wave, if_pos rfl]

/-- The pending measurement of a qubit at an effective angle. -/
def pendingAt
    {R : Type}
    [Scalar R]
    (run : Run R n)
    (qubit : Fin n)
    (angle : R) : PendingMeasurement R n where
  qubit := qubit
  angle := angle
  zeroProbability := run.register.probability qubit angle false
  oneProbability := run.register.probability qubit angle true

/-- A measurement whose signals are recorded is pending at its effective angle, if the sum
of both probabilities is accepted. -/
theorem measurement_eq_map_pendingAt
    {R : Type}
    [Scalar R]
    {run : Run R n}
    (qubit : Fin n)
    (angle : R)
    {s t : Signals}
    {flipped shifted : Bool}
    (parityS : run.parity s = .ok flipped)
    (parityT : run.parity t = .ok shifted)
    (tolerance : R)
    (index : Nat) :
    run.measurement tolerance index qubit.val angle s t =
      (acceptTotal (run.pendingAt qubit (effectiveAngle angle flipped shifted)).total
        tolerance (.measurement qubit.val index)).map fun _ =>
          run.pendingAt qubit (effectiveAngle angle flipped shifted) := by
  have sequence (accepted : Except (Error R) Unit) (pending : PendingMeasurement R n) :
      (accepted >>= fun _ => .ok pending) = accepted.map fun _ => pending := by
    cases accepted with
    | error error => rfl
    | ok value => rfl
  unfold measurement
  rw [parityS, parityT, locate_eq_ok qubit.isLt]
  exact sequence _ _

/-- The probabilities of a pending measurement are the squared norms of the projected
waves. -/
theorem probability_pendingAt
    (run : Run ℝ n)
    (qubit : Fin n)
    (angle : ℝ)
    (outcome : Bool) :
    (run.pendingAt qubit angle).probability outcome =
      (run.register.wave.gate qubit
        (.projector (equatorialKet angle outcome))).normSq := by
  rw [← Register.probability_eq_normSq_wave]
  cases outcome with
  | false => rfl
  | true => rfl

/-- They add up to the squared norm of the wave. -/
theorem total_pendingAt
    (run : Run ℝ n)
    (qubit : Fin n)
    (angle : ℝ) :
    (run.pendingAt qubit angle).total = run.register.wave.normSq := by
  rw [← Wave.normSq_project_false_add_true qubit angle, ← probability_pendingAt,
    ← probability_pendingAt]
  rfl

/-- A measurement of a register of norm one is accepted, and the probabilities of
its outcomes are the squared norms of the projected waves. -/
theorem measurement_eq_ok
    {run : Run ℝ n}
    {qubit : Fin n}
    (angle : ℝ)
    {s t : Signals}
    {flipped shifted : Bool}
    (parityS : run.parity s = .ok flipped)
    (parityT : run.parity t = .ok shifted)
    (unit : run.register.wave.normSq = 1)
    {tolerance : ℝ}
    (nonneg : 0 ≤ tolerance)
    (index : Nat) :
    ∃ pending,
      run.measurement tolerance index qubit.val angle s t = .ok pending ∧
      pending.qubit = qubit ∧
      pending.angle = turnedAngle angle flipped shifted ∧
      pending.total = 1 ∧
      ∀ outcome, pending.probability outcome =
        (run.register.wave.gate qubit <| .projector <|
          equatorialKet (turnedAngle angle flipped shifted) outcome).normSq := by
  have total := (run.total_pendingAt qubit (turnedAngle angle flipped shifted)).trans unit
  refine ⟨run.pendingAt qubit (turnedAngle angle flipped shifted), ?_, rfl, rfl, total,
    run.probability_pendingAt qubit _⟩
  rw [measurement_eq_map_pendingAt qubit angle parityS parityT, effectiveAngle_real,
    acceptTotal_real, total, sub_self, abs_zero, if_pos nonneg]
  rfl

/-- Choosing an outcome that can occur projects the wave, normalizes it and records
the outcome. -/
theorem collapse_eq_ok
    {run : Run ℝ n}
    {pending : PendingMeasurement ℝ n}
    {outcome : Bool}
    (possible : Scalar.probabilityFloor < pending.probability outcome)
    {next : Wave n}
    (projected :
      ((1 / Real.sqrt (pending.probability outcome) : ℝ) : ℂ) •
        (run.register.wave.gate pending.qubit <| .projector <|
          equatorialKet pending.angle outcome) = next)
    (unit : next.normSq = 1)
    {tolerance : ℝ}
    (nonneg : 0 ≤ tolerance)
    (index : Nat) :
    run.collapse tolerance index pending outcome =
      .ok (record { run with register := .ofWave next } pending.qubit outcome) := by
  have wave := Register.wave_project run.register pending.qubit pending.angle
    outcome (pending.probability outcome)
  rw [projected] at wave
  unfold collapse
  dsimp only
  rw [if_neg (not_le.2 possible),
    Register.acceptNorm_eq_ok nonneg (by rw [wave, unit]), ok_bind, ← wave,
    Register.ofWave_wave]

end Run

/-! ## Branches -/

namespace Branch

variable {n : Nat}

/-- The branch at the end of a path: the normalized wave, the bits of the path as recorded
values, and the squared norm as probability. -/
noncomputable def along
    (initial : Wave n)
    (commands : List (Command ℝ))
    (bits : Qubit → Bool) : Branch ℝ n where
  run := .holding (.ofWave (Wave.follow bits commands initial).normalized) bits
    (Command.measuredBy commands)
  probability := (Wave.follow bits commands initial).normSq

/-- The branches at the ends of the kept paths. -/
noncomputable def kept
    (initial : Wave n)
    (commands : List (Command ℝ)) : List (Branch ℝ n) :=
  ((choices (Command.measuredBy commands)).filter fun bits =>
    Wave.Kept bits commands initial).map (along initial commands)

/-- The path without commands ends where a run starts. -/
theorem along_nil
    {initial : Wave n}
    (unit : initial.normSq = 1)
    (bits : Qubit → Bool) :
    along initial [] bits = ⟨.blank (.ofWave initial), 1⟩ := by
  rw [along, Wave.follow_nil, Command.measuredBy_nil, Run.holding_nil, unit,
    Wave.normalized_of_unit unit]

theorem wave_along
    (initial : Wave n)
    (commands : List (Command ℝ))
    (bits : Qubit → Bool) :
    (along initial commands bits).run.register.wave =
      (Wave.follow bits commands initial).normalized :=
  Register.wave_ofWave _

section Legal

variable {commands : List (Command ℝ)} (legal : Command.AllLegal n [] commands)
include legal

theorem recorded_along
    (initial : Wave n)
    (bits : Qubit → Bool) :
    (along initial commands bits).run.Recorded (Command.measuredBy commands) :=
  Run.recorded_holding (fun _ => legal.measured_lt) _ bits

/-- The branch at the end of a path shows the bits of the path. -/
theorem outcome_along
    (initial : Wave n)
    (bits : Qubit → Bool) :
    (along initial commands bits).run.outcome =
      .along bits (Command.measuredBy commands) :=
  Run.outcome_holding (fun _ => legal.measured_lt) _ bits

/-- Signals that are recorded along a path have the parity of the path. -/
theorem parity_along
    (initial : Wave n)
    (bits : Qubit → Bool)
    {signals : Signals}
    (inside : ∀ signal ∈ signals, signal ∈ Command.measuredBy commands) :
    (along initial commands bits).run.parity signals = .ok (signals.under bits) := by
  rw [(recorded_along legal initial bits).parity_eq_ok inside]
  congr 1
  apply Signals.parity_congr
  intro signal member
  rw [along, Run.value?_holding_of_mem (fun _ => legal.measured_lt) _ bits
    (inside signal member), Option.getD_some]

end Legal

/-- The branches at the ends of two paths that differ only in bits without
meaning are the same. -/
theorem along_congr
    (initial : Wave n)
    {width : Nat}
    {commands : List (Command ℝ)}
    (legal : Command.AllLegal width [] commands)
    {first second : Qubit → Bool}
    (agree : ∀ qubit ∈ Command.measuredBy commands,
      first qubit = second qubit) :
    along initial commands first = along initial commands second := by
  unfold along
  rw [(Wave.follow_congr legal agree initial).1, Run.holding_congr _ agree]

/-- Applying a command that is not a measurement at the end of a path. -/
theorem apply_along
    (initial : Wave n)
    {before : List (Command ℝ)}
    (legalBefore : Command.AllLegal n [] before)
    (bits : Qubit → Bool)
    {command : Command ℝ}
    (legal : command.Legal n (Command.measuredBy before))
    (noMeasure : command.measured? = none)
    (index : Nat) :
    (along initial before bits).run.apply index command =
      .ok (along initial (before ++ [command]) bits).run := by
  have parity := parity_along legalBefore initial bits legal.signal_mem
  rw [Run.apply_eq_act parity legal.target_lt noMeasure index, wave_along,
    Wave.act_normalized bits noMeasure]
  unfold along
  rw [Wave.follow_append, Command.measuredBy_append_of_none before noMeasure]
  rfl

/-- Executing a command that is not a measurement at the end of a path. -/
theorem step_along
    (initial : Wave n)
    {before : List (Command ℝ)}
    (legalBefore : Command.AllLegal n [] before)
    (bits : Qubit → Bool)
    {command : Command ℝ}
    (legal : command.Legal n (Command.measuredBy before))
    (noMeasure : command.measured? = none)
    (tolerance : ℝ)
    (index : Nat) :
    step tolerance index command (along initial before bits) =
      .ok [along initial (before ++ [command]) bits] := by
  have sameProbability : (along initial before bits).probability =
      (along initial (before ++ [command]) bits).probability := by
    unfold along
    rw [Wave.follow_append]
    exact (Wave.normSq_act bits noMeasure _).symm
  rw [step_of_not_measure noMeasure,
    apply_along initial legalBefore bits legal noMeasure index, ok_bind, sameProbability]

section Measurement

variable {initial : Wave n} {before : List (Command ℝ)}
variable {qubit : Qubit} {angle : ℝ} {s t : Signals}

/-- The bit of a qubit that is not measured yet has not mattered so far. -/
theorem follow_update
    (legalBefore : Command.AllLegal n [] before)
    (fresh : qubit ∉ Command.measuredBy before)
    (initial : Wave n)
    (bits : Qubit → Bool)
    (outcome : Bool) :
    Wave.follow (update bits qubit outcome) before initial =
        Wave.follow bits before initial ∧
      (Wave.Kept (update bits qubit outcome) before initial ↔
        Wave.Kept bits before initial) := by
  have agree (earlier : Qubit) (member : earlier ∈ Command.measuredBy before) :
      update bits qubit outcome earlier = bits earlier := by
    apply Function.update_of_ne
    rintro rfl
    exact fresh member
  exact ⟨(Wave.follow_congr legalBefore agree initial).1,
    Wave.kept_congr legalBefore agree initial⟩

/-- The measurement at the end of a kept path is accepted. Its outcomes have the
conditional probabilities of the two longer paths, and its projectors are the
actions of the command along them. -/
theorem measurement_along
    (unit : initial.normSq = 1)
    {bits : Qubit → Bool}
    (kept : Wave.Kept bits before initial)
    (legalBefore : Command.AllLegal n [] before)
    (legal : (Command.measure qubit angle s t).Legal n
      (Command.measuredBy before))
    {tolerance : ℝ}
    (nonneg : 0 ≤ tolerance)
    (index : Nat) :
    ∃ pending,
      (along initial before bits).run.measurement tolerance index qubit angle
          s t = .ok pending ∧
        pending.qubit.val = qubit ∧
        pending.total = 1 ∧
        (∀ outcome (wave : Wave n),
          wave.gate pending.qubit
              (.projector (equatorialKet pending.angle outcome)) =
            Wave.act (update bits qubit outcome) (.measure qubit angle s t)
              wave) ∧
        ∀ outcome, pending.probability outcome =
          (Wave.act (update bits qubit outcome) (.measure qubit angle s t)
            (Wave.follow bits before initial)).normSq /
              (Wave.follow bits before initial).normSq := by
  have inside := legal.target_lt qubit (by simp)
  lift qubit to Fin n using inside
  have register := wave_along initial before bits
  have positive := kept.normSq_pos (unit ▸ one_pos)
  have sInside (signal : Qubit) (member : signal ∈ s) :
      signal ∈ Command.measuredBy before :=
    legal.signal_mem signal (List.mem_append_left t member)
  have tInside (signal : Qubit) (member : signal ∈ t) :
      signal ∈ Command.measuredBy before :=
    legal.signal_mem signal (List.mem_append_right s member)
  have acts (outcome : Bool) (wave : Wave n) :
      wave.gate qubit (.projector (equatorialKet
          (turnedAngle angle (s.under bits) (t.under bits)) outcome)) =
        Wave.act (update bits qubit.val outcome)
          (.measure qubit.val angle s t) wave := by
    rw [Wave.act_measure_update bits fun signal member =>
      legal.ne_of_mem member (by simp), Wave.gateAt_val]
  obtain ⟨pending, pends, sameQubit, sameAngle, total, probability⟩ :=
    Run.measurement_eq_ok angle
      (parity_along legalBefore initial bits sInside)
      (parity_along legalBefore initial bits tInside)
      (by rw [register, Wave.normSq_normalized positive]) nonneg index
  refine ⟨pending, pends, congrArg Fin.val sameQubit, total, ?_, ?_⟩
  · rw [sameQubit, sameAngle]
    exact acts
  · intro outcome
    rw [probability, register, acts, Wave.normSq_act_normalized]

/-- Taking an outcome that can occur at the end of a kept path leads to the end of
the longer path. -/
theorem take_along
    (unit : initial.normSq = 1)
    {bits : Qubit → Bool}
    (kept : Wave.Kept bits before initial)
    (legalBefore : Command.AllLegal n [] before)
    (fresh : qubit ∉ Command.measuredBy before)
    {pending : PendingMeasurement ℝ n}
    (sameQubit : pending.qubit.val = qubit)
    (total : pending.total = 1)
    {outcome : Bool}
    (acts : ∀ wave : Wave n,
      wave.gate pending.qubit
          (.projector (equatorialKet pending.angle outcome)) =
        Wave.act (update bits qubit outcome) (.measure qubit angle s t) wave)
    (ratio : pending.probability outcome =
      (Wave.act (update bits qubit outcome) (.measure qubit angle s t)
        (Wave.follow bits before initial)).normSq /
          (Wave.follow bits before initial).normSq)
    (possible : Scalar.probabilityFloor < pending.probability outcome)
    {tolerance : ℝ}
    (nonneg : 0 ≤ tolerance)
    (index : Nat) :
    (along initial before bits).take tolerance index pending outcome =
      .ok (along initial (before ++ [.measure qubit angle s t])
        (update bits qubit outcome)) := by
  have register := wave_along initial before bits
  have positive := kept.normSq_pos (unit ▸ one_pos)
  have follows : Wave.follow (update bits qubit outcome)
        (before ++ [.measure qubit angle s t]) initial =
      Wave.act (update bits qubit outcome) (.measure qubit angle s t)
        (Wave.follow bits before initial) := by
    rw [Wave.follow_append, (follow_update legalBefore fresh initial bits outcome).1,
      Wave.follow_cons, Wave.follow_nil]
  have records (register : Register (Amplitude ℝ) n) :
      Run.record { (along initial before bits).run with register } pending.qubit outcome =
        .holding register (update bits qubit outcome)
          (Command.measuredBy (before ++ [.measure qubit angle s t])) := by
    rw [Command.measuredBy_append_measure, ← sameQubit]
    exact Run.record_holding register bits (sameQubit ▸ fresh) outcome
  have positiveAfter : 0 < (Wave.act (update bits qubit outcome)
      (.measure qubit angle s t) (Wave.follow bits before initial)).normSq := by
    rw [ratio] at possible
    exact (div_pos_iff_of_pos_right positive).1
      (Scalar.probabilityFloor_pos.trans possible)
  have projected := Wave.inv_sqrt_smul_act_normalized
    (update bits qubit outcome) (.measure qubit angle s t) positive
  rw [← ratio, ← acts, ← register] at projected
  rw [Branch.take, Run.collapse_eq_ok possible projected
    (Wave.normSq_normalized positiveAfter) nonneg index, ok_bind, total, ratio,
    records, ← follows]
  unfold along
  congr 2
  rw [follows, div_one, mul_div_cancel₀ _ positive.ne']

/-- Executing a measurement at the end of a kept path yields the branches at the
ends of the two longer paths, as far as they are kept. -/
theorem step_measure_along
    (unit : initial.normSq = 1)
    {bits : Qubit → Bool}
    (kept : Wave.Kept bits before initial)
    (legalBefore : Command.AllLegal n [] before)
    (legal : (Command.measure qubit angle s t).Legal n
      (Command.measuredBy before))
    {tolerance : ℝ}
    (nonneg : 0 ≤ tolerance)
    (index : Nat) :
    step tolerance index (.measure qubit angle s t)
        (along initial before bits) =
      .ok ((([false, true].map (update bits qubit)).filter fun extended =>
        Wave.Kept extended (before ++ [.measure qubit angle s t]) initial).map
          (along initial (before ++ [.measure qubit angle s t]))) := by
  have fresh := legal.target_notMem qubit (by simp)
  obtain ⟨pending, pends, sameQubit, total, acts, ratio⟩ :=
    measurement_along unit kept legalBefore legal nonneg index
  have possible (outcome : Bool) :
      Scalar.probabilityFloor < pending.probability outcome ↔
        Wave.Kept (update bits qubit outcome)
          (before ++ [.measure qubit angle s t]) initial := by
    obtain ⟨same, keptBefore⟩ :=
      follow_update legalBefore fresh initial bits outcome
    rw [Wave.kept_append, keptBefore, Wave.kept_measure, same, ratio]
    exact (and_iff_right kept).symm
  rw [step, pends, ok_bind, mapM_eq_ok_map fun outcome member =>
    take_along unit kept legalBefore fresh sameQubit total (acts outcome)
      (ratio outcome)
      (by simpa [PendingMeasurement.isPossible] using
        (List.mem_filter.1 member).2) nonneg index]
  rw [List.filter_map, List.map_map]
  congr 2
  apply List.filter_congr
  intro outcome _
  exact decide_eq_decide.2 (possible outcome)

end Measurement

/-- Executing a legal command on the branches of the kept paths yields the branches
of the kept paths that are longer by this command. -/
theorem mapM_step_kept
    {initial : Wave n}
    (unit : initial.normSq = 1)
    {before : List (Command ℝ)}
    {command : Command ℝ}
    (legalBefore : Command.AllLegal n [] before)
    (legal : command.Legal n (Command.measuredBy before))
    {tolerance : ℝ}
    (nonneg : 0 ≤ tolerance)
    (index : Nat) :
    ∃ next, (kept initial before).mapM (step tolerance index command) =
        .ok next ∧
      next.flatten = kept initial (before ++ [command]) := by
  rcases command.measured?_eq_none_or with
    noMeasure | ⟨qubit, angle, s, t, rfl⟩
  · have sameKept (bits : Qubit → Bool) :=
      Wave.kept_append_of_none bits before noMeasure initial
    refine ⟨((choices (Command.measuredBy before)).filter fun bits =>
      Wave.Kept bits before initial).map fun bits =>
        [along initial (before ++ [command]) bits], ?_, ?_⟩
    · rw [kept, List.mapM_map]
      exact mapM_eq_ok_map fun bits _ =>
        step_along initial legalBefore bits legal noMeasure tolerance index
    · rw [kept, Command.measuredBy_append_of_none before noMeasure,
        ← List.flatMap_def, List.map_eq_flatMap]
      simp only [sameKept]
  · refine ⟨((choices (Command.measuredBy before)).filter fun bits =>
      Wave.Kept bits before initial).map fun bits =>
        (([false, true].map (update bits qubit)).filter fun extended =>
          Wave.Kept extended (before ++ [.measure qubit angle s t])
            initial).map
          (along initial (before ++ [.measure qubit angle s t])), ?_, ?_⟩
    · rw [kept, List.mapM_map]
      refine mapM_eq_ok_map fun bits member => ?_
      exact step_measure_along unit
        (of_decide_eq_true (List.mem_filter.1 member).2) legalBefore legal
        nonneg index
    · rw [kept, Command.measuredBy_append_measure, choices_append_singleton]
      apply flatMap_filter_eq
      intro bits _
      split
      · rfl
      · next dropped =>
          -- A path that is not kept has no kept extension.
          rw [List.map_eq_nil_iff, List.filter_eq_nil_iff]
          intro extended member longer
          obtain ⟨outcome, _, rfl⟩ := List.mem_map.1 member
          have fresh := legal.target_notMem qubit (by simp)
          obtain ⟨keptBefore, _⟩ := (Wave.kept_append _ _ _ _).1
            (of_decide_eq_true longer)
          rw [(follow_update legalBefore fresh initial bits outcome).2]
            at keptBefore
          exact dropped (decide_eq_true keptBefore)

/-- The enumeration turns the branches of the kept paths into those of the longer
kept paths. -/
theorem enumerateFrom_kept
    {initial : Wave n}
    (unit : initial.normSq = 1)
    {before rest : List (Command ℝ)}
    (legal : Command.AllLegal n [] (before ++ rest))
    {tolerance : ℝ}
    (nonneg : 0 ≤ tolerance)
    (index : Nat) :
    enumerateFrom tolerance index (kept initial before) rest =
      .ok (kept initial (before ++ rest)) := by
  induction rest generalizing before index with
  | nil => rw [List.append_nil, enumerateFrom]
  | cons command rest inductionHypothesis =>
      obtain ⟨legalBefore, legalCommand, _⟩ :=
        (Command.allLegal_append n [] before (command :: rest)).1 legal
      obtain ⟨next, stepped, flattened⟩ :=
        mapM_step_kept unit legalBefore legalCommand nonneg index
      rw [List.append_cons] at legal ⊢
      rw [enumerateFrom, stepped, ok_bind, flattened, inductionHypothesis legal]

end Branch

namespace Program

/-- A program starts in the product of the prepared states. -/
theorem start_eq_ok
    (program : Program ℝ)
    {tolerance : ℝ}
    (nonneg : 0 ≤ tolerance) :
    Run.start program tolerance =
      .ok (.blank (.ofWave (program.pattern.initialWave program.width))) := by
  obtain ⟨kets, filled, declared⟩ := Run.initialKets_eq_ok program.lawful
  have wave : (Register.product fun qubit : Fin program.width =>
        kets[qubit].amplitudes).wave =
      program.pattern.initialWave program.width := by
    rw [Register.wave_product fun qubit : Fin program.width => kets[qubit]]
    unfold Pattern.initialWave Pattern.initialState
    congr 1
    funext qubit
    rw [(Run.lookup_eq_some_iff program.lawful.declared_nodup _ _).2
      (declared qubit), Option.getD_some]
  unfold Run.start
  rw [filled, ok_bind]
  dsimp only
  rw [Register.acceptNorm_eq_ok nonneg
    (by rw [wave, Pattern.normSq_initialWave]), ok_bind, ← wave,
    Register.ofWave_wave]

/-- The branches before a position are the kept paths of the earlier commands. -/
theorem branchesBefore_eq_ok
    (program : Program ℝ)
    {tolerance : ℝ}
    (nonneg : 0 ≤ tolerance)
    (index : Nat) :
    program.branchesBefore tolerance index =
      .ok (Branch.kept (program.pattern.initialWave program.width)
        (program.pattern.commands.take index)) := by
  have unit := program.pattern.normSq_initialWave program.width
  have initial :
      Branch.kept (program.pattern.initialWave program.width) [] =
        [⟨.blank (.ofWave (program.pattern.initialWave program.width)), 1⟩] := by
    rw [Branch.kept, Command.measuredBy_nil, choices_nil, List.filter_singleton,
      decide_eq_true (Wave.kept_nil _ _)]
    exact congrArg (fun branch => [branch]) (Branch.along_nil unit _)
  have legal : Command.AllLegal program.width []
      ([] ++ program.pattern.commands.take index) :=
    program.allLegal_take index
  unfold branchesBefore
  rw [program.start_eq_ok nonneg, ok_bind, ← initial]
  exact Branch.enumerateFrom_kept unit legal nonneg 0

/-- The branches of a program are the kept paths of its commands. -/
theorem branches_eq_ok
    (program : Program ℝ)
    {tolerance : ℝ}
    (nonneg : 0 ≤ tolerance) :
    program.branches tolerance =
      .ok (Branch.kept (program.pattern.initialWave program.width)
        program.pattern.commands) := by
  rw [← program.branchesBefore_length, program.branchesBefore_eq_ok nonneg,
    List.take_length]

end Program

end MeasurementCalculus
