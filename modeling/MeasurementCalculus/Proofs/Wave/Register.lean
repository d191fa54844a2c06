import MeasurementCalculus.Ket
import MeasurementCalculus.Proofs.Masks
import MeasurementCalculus.Proofs.Real
import MeasurementCalculus.Proofs.Wave.Equator
import MeasurementCalculus.Register.Projection

/-!
# Registers as waves

A basis state of a register is a number, whose binary digits from the most
significant one on are the digits of the qubits in order. Numbers below two to
the power `n` and assignments of digits to `n` qubits correspond to each other,
so a register with exact amplitudes is a wave, and every operation on registers
is the operation on waves that it is meant to be.
-/

namespace MeasurementCalculus

open scoped ComplexConjugate
open Function (update)

namespace Basis

variable {n : Nat}

theorem digits_injective :
    Function.Injective fun (index : Basis n) (qubit : Fin n) =>
      bit qubit index := by
  intro first second same
  apply Fin.ext
  apply Nat.eq_of_testBit_eq
  intro digit
  by_cases inside : digit < n
  · let qubit : Fin n := ⟨n - 1 - digit, by omega⟩
    have there : place qubit = digit := by
      change n - 1 - (n - 1 - digit) = digit
      omega
    have agree := congrFun same qubit
    simpa only [bit, there] using agree
  · have large : 2 ^ n ≤ 2 ^ digit :=
      Nat.pow_le_pow_right two_pos (not_lt.1 inside)
    rw [Nat.testBit_lt_two_pow (first.isLt.trans_le large),
      Nat.testBit_lt_two_pow (second.isLt.trans_le large)]

/-- The digits of the qubits in a basis state. -/
noncomputable def digits : Basis n ≃ (Fin n → Bool) :=
  Equiv.ofBijective (fun index qubit => bit qubit index) <| by
    rw [Fintype.bijective_iff_injective_and_card]
    exact ⟨digits_injective, by simp⟩

@[simp] theorem digits_apply
    (index : Basis n)
    (qubit : Fin n) :
    digits index qubit = bit qubit index := rfl

/-- Changing the digit of one qubit in both readings. -/
theorem digits_flip
    (qubit : Fin n)
    (index : Basis n) :
    digits (flip qubit index) =
      update (digits index) qubit (!bit qubit index) := by
  funext other
  by_cases same : other = qubit
  · subst same
    simp
  · simp [same, bit_flip_of_ne same]

/-- The sum over all basis states goes over the pairs that differ in the digit of
one qubit. -/
theorem sum_eq_sum_pairs
    (qubit : Fin n)
    (term : Basis n → ℝ) :
    ∑ index, term index =
      ((pairs qubit).map fun pair => term pair.1 + term pair.2).sum := by
  rw [Fin.sum_univ_def, ← ((flatMap_pairs_perm qubit).map term).sum_eq, List.map_flatMap,
    List.flatMap_def, List.sum_flatten, List.map_map]
  simp [Function.comp_def]

end Basis

namespace Register

variable {n : Nat}

/-- The wave with the amplitudes of a register. -/
noncomputable def wave (register : Register (Amplitude ℝ) n) : Wave n :=
  fun digits => (register.entry (Basis.digits.symm digits)).toComplex

/-- The register with the amplitudes of a wave. -/
noncomputable def ofWave (wave : Wave n) : Register (Amplitude ℝ) n :=
  ofFn fun index => .ofComplex (wave (Basis.digits index))

@[simp] theorem wave_digits
    (register : Register (Amplitude ℝ) n)
    (index : Basis n) :
    register.wave (Basis.digits index) = (register.entry index).toComplex := by
  simp [wave]

@[simp] theorem wave_ofWave (wave : Wave n) : (ofWave wave).wave = wave := by
  funext digits
  simp [Register.wave, ofWave]

@[simp] theorem ofWave_wave (register : Register (Amplitude ℝ) n) :
    ofWave register.wave = register := by
  apply ext_entry
  intro index
  simp [ofWave]

/-- Waves that agree on the digits of every basis state are equal. -/
theorem wave_ext
    {first second : Wave n}
    (agree : ∀ index : Basis n,
      first (Basis.digits index) = second (Basis.digits index)) :
    first = second := by
  funext digits
  obtain ⟨index, rfl⟩ := Basis.digits.surjective digits
  exact agree index

theorem wave_controlledZ
    (register : Register (Amplitude ℝ) n)
    (first second : Fin n) :
    (register.controlledZ first second).wave =
      register.wave.controlledZ first second := by
  apply wave_ext
  intro index
  rw [wave_digits, entry_controlledZ, Wave.controlledZ_apply]
  simp only [Basis.digits_apply, wave_digits]
  split
  · rfl
  · rfl

theorem wave_pauliX
    (register : Register (Amplitude ℝ) n)
    (qubit : Fin n) :
    (register.pauliX qubit).wave =
      register.wave.gate qubit GateMatrix.pauliX := by
  apply wave_ext
  intro index
  rw [wave_digits, entry_pauliX, Wave.gate_apply, ← wave_digits,
    Basis.digits_flip]
  cases digit : Basis.bit qubit index <;> simp [digit]

theorem wave_pauliZ
    (register : Register (Amplitude ℝ) n)
    (qubit : Fin n) :
    (register.pauliZ qubit).wave =
      register.wave.gate qubit GateMatrix.pauliZ := by
  apply wave_ext
  intro index
  have unchanged := Function.update_eq_self qubit (Basis.digits index)
  rw [wave_digits, entry_pauliZ, Wave.gate_apply]
  cases digit : Basis.bit qubit index with
  | false =>
      rw [Basis.digits_apply, digit] at unchanged
      simp [digit, unchanged]
  | true =>
      rw [Basis.digits_apply, digit] at unchanged
      simp [digit, unchanged]

/-- The squared norm of a register is that of its wave. -/
theorem normSq_eq_normSq_wave (register : Register (Amplitude ℝ) n) :
    register.normSq = register.wave.normSq := by
  unfold normSq Wave.normSq
  rw [Scalar.sum_real, ← Basis.digits.sum_comp]
  simp only [wave_digits]
  rw [← Vector.toList_map, ← List.sum_ofFn]
  congr 1
  apply List.ext_getElem
  · simp
  · intro index first second
    simp [entry, Amplitude.normSq_eq_normSq_toComplex]

/-- The components that an outcome selects are those of its equatorial state. -/
theorem toComplex_outcomeKet
    (angle : ℝ)
    (outcome : Bool) :
    (outcomeKet angle outcome).1.toComplex =
        equatorialKet angle outcome false ∧
      (outcomeKet angle outcome).2.toComplex =
        equatorialKet angle outcome true := by
  constructor
  · simp [outcomeKet, equatorialKet, phaseKet]
  · cases outcome <;>
      simp [outcomeKet, equatorialKet, phaseKet, Scalar.sign]

/-- The overlap of a register with the state that an outcome selects. -/
theorem toComplex_overlap
    (register : Register (Amplitude ℝ) n)
    (angle : ℝ)
    (outcome : Bool)
    (low high : Basis n) :
    (register.overlap (overlapPhase angle outcome) low high).toComplex =
      conj (equatorialKet angle outcome false) * (register.entry low).toComplex +
        conj (equatorialKet angle outcome true) *
          (register.entry high).toComplex := by
  cases outcome <;>
    simp [overlap, overlapPhase, equatorialKet, phaseKet, Scalar.sign,
      ← Complex.exp_conj] <;>
    ring

/-- Collapsing a register projects its wave onto the selected state and divides it
by the root of the probability. -/
theorem wave_project
    (register : Register (Amplitude ℝ) n)
    (qubit : Fin n)
    (angle : ℝ)
    (outcome : Bool)
    (probability : ℝ) :
    (register.project qubit angle outcome probability).wave =
      ((1 / Real.sqrt probability : ℝ) : ℂ) •
        register.wave.gate qubit
          (GateMatrix.projector (equatorialKet angle outcome)) := by
  apply wave_ext
  intro index
  obtain ⟨lowKet, highKet⟩ := toComplex_outcomeKet angle outcome
  have unchanged := Function.update_eq_self qubit (Basis.digits index)
  have partner := Basis.digits_flip qubit index
  rw [Basis.digits_apply] at unchanged
  rw [wave_digits, entry_project, Pi.smul_apply, smul_eq_mul, Wave.gate_apply,
    Basis.digits_apply]
  cases digit : Basis.bit qubit index with
  | false =>
      rw [digit] at unchanged
      rw [digit, Bool.not_false] at partner
      rw [unchanged, ← partner, wave_digits, wave_digits]
      simp only [Bool.false_eq_true, if_false, Amplitude.toComplex_mul,
        Amplitude.toComplex_scale, toComplex_overlap, lowKet,
        GateMatrix.projector_apply, Scalar.sqrt_real]
      ring
  | true =>
      rw [digit] at unchanged
      rw [digit, Bool.not_true] at partner
      rw [unchanged, ← partner, wave_digits, wave_digits]
      simp only [if_true, Amplitude.toComplex_mul, Amplitude.toComplex_scale,
        toComplex_overlap, highKet, GateMatrix.projector_apply,
        Scalar.sqrt_real]
      ring

/-- The probability of an outcome is the squared norm of the projected wave. -/
theorem probability_eq_normSq_wave
    (register : Register (Amplitude ℝ) n)
    (qubit : Fin n)
    (angle : ℝ)
    (outcome : Bool) :
    register.probability qubit angle outcome =
      (register.wave.gate qubit
        (GateMatrix.projector (equatorialKet angle outcome))).normSq := by
  have unitKet := isUnitKet_equatorialKet angle outcome
  unfold probability Wave.normSq
  rw [Scalar.sum_real, ← Basis.digits.sum_comp, Basis.sum_eq_sum_pairs qubit]
  congr 1
  apply List.map_congr_left
  rintro ⟨low, high⟩ member
  obtain ⟨lowDigit, rfl : high = Basis.flip qubit low⟩ := Basis.mem_pairs_iff.1 member
  have unchanged := Function.update_eq_self qubit (Basis.digits low)
  have partner := Basis.digits_flip qubit low
  rw [Basis.digits_apply, lowDigit] at unchanged
  rw [lowDigit, Bool.not_false] at partner
  change (register.overlap (overlapPhase angle outcome) low
      (Basis.flip qubit low)).normSq =
    Complex.normSq (Wave.gate qubit _ _ (Basis.digits low)) +
      Complex.normSq (Wave.gate qubit _ _ (Basis.digits (Basis.flip qubit low)))
  rw [Amplitude.normSq_eq_normSq_toComplex, toComplex_overlap, Wave.gate_apply,
    Wave.gate_apply, partner]
  simp only [Function.update_self, Function.update_idem, Basis.digits_apply,
    lowDigit, unchanged, GateMatrix.projector_apply]
  rw [← partner, wave_digits, wave_digits]
  simp only [mul_assoc, ← mul_add, Complex.normSq_mul]
  rw [← add_mul, unitKet, one_mul, add_comm]

/-! ## Product states -/

theorem bit_castSucc
    (qubit : Fin n)
    (index : Basis (n + 1)) :
    Basis.bit qubit.castSucc index = Basis.bit qubit (shorten index) := by
  unfold Basis.bit Basis.place shorten
  rw [← Nat.testBit_succ, Fin.val_castSucc]
  congr 1
  omega

theorem bit_last (index : Basis (n + 1)) :
    Basis.bit (Fin.last n) index = index.val.testBit 0 := by
  unfold Basis.bit Basis.place
  simp

/-- The entries of a product state are products of components. -/
theorem toComplex_entry_product
    (factors : Fin n → Amplitude ℝ × Amplitude ℝ)
    (index : Basis n) :
    ((product factors).entry index).toComplex =
      ∏ qubit, (if Basis.bit qubit index then (factors qubit).2
        else (factors qubit).1).toComplex := by
  induction n with
  | zero => simp
  | succ n inductionHypothesis =>
      rw [product_succ, entry_tensor, Amplitude.toComplex_mul,
        inductionHypothesis, Fin.prod_univ_castSucc, bit_last]
      simp only [bit_castSucc]

/-- A register in which every qubit has components of its own is a product. -/
theorem wave_product_components (factors : Fin n → Amplitude ℝ × Amplitude ℝ) :
    (product factors).wave = Wave.product fun qubit digit =>
      (if digit then (factors qubit).2 else (factors qubit).1).toComplex := by
  apply wave_ext
  intro index
  rw [wave_digits, toComplex_entry_product]
  rfl

end Register

namespace Ket

/-- The components of a state in which a qubit may be prepared. -/
noncomputable def state : Ket ℝ → Bool → ℂ
  | .zero => fun digit => if digit then 0 else 1
  | .one => fun digit => if digit then 1 else 0
  | .plus => phaseKet 1
  | .minus => phaseKet (-1)
  | .equatorial angle => phaseKet (Complex.exp (angle * Complex.I))

theorem toComplex_amplitudes
    (ket : Ket ℝ)
    (digit : Bool) :
    (if digit then ket.amplitudes.2 else ket.amplitudes.1).toComplex =
      ket.state digit := by
  cases ket <;> cases digit <;> simp [amplitudes, state, phaseKet]

/-- Every prepared state has norm one. -/
theorem isUnitKet_state (ket : Ket ℝ) : IsUnitKet ket.state := by
  cases ket with
  | zero => simp [IsUnitKet, state]
  | one => simp [IsUnitKet, state]
  | plus => exact isUnitKet_phaseKet (by simp)
  | minus => exact isUnitKet_phaseKet (by simp)
  | equatorial angle =>
      exact isUnitKet_phaseKet (by
        simpa using conj_mul_self_outcomePhase angle false)

end Ket

/-- The register in which every qubit is prepared in a state of its own. -/
theorem Register.wave_product
    {n : Nat}
    (kets : Fin n → Ket ℝ) :
    (Register.product fun qubit => (kets qubit).amplitudes).wave =
      Wave.product fun qubit => (kets qubit).state := by
  rw [wave_product_components]
  simp only [Ket.toComplex_amplitudes]

end MeasurementCalculus
