import MeasurementCalculus.Proofs.Wave.Register

/-!
# Product states and masks

A joint state is built qubit by qubit. Every qubit is appended as the least
significant digit, which doubles the register and moves all digits before it
up by one place. The masks count the qubits from the most significant digit
on, and know nothing of how the register has been built. This module shows
that the two agree.
-/

namespace MeasurementCalculus

namespace Register

section Joint

variable {α : Type} [One α] [Mul α]

/-- Append qubits with the given components one after another. The result comes with the
number of its qubits. -/
def appendAll : {n : Nat} → Register α n → List (α × α) → (width : Nat) × Register α width
  | n, register, [] => ⟨n, register⟩
  | _, register, factor :: rest => appendAll (register.tensor factor) rest

theorem mk_product_congr
    {n width : Nat}
    (same : n = width)
    {first : Fin n → α × α}
    {second : Fin width → α × α}
    (agree : ∀ qubit, first qubit = second (qubit.cast same)) :
    (⟨n, product first⟩ : (width : Nat) × Register α width) = ⟨width, product second⟩ := by
  subst same
  rw [funext agree]
  rfl

/-- One more qubit behind a product extends its list of factors. -/
theorem tensor_product
    (components : List (α × α))
    (factor : α × α) :
    (⟨components.length + 1,
        (product fun qubit : Fin components.length => components[qubit]).tensor factor⟩ :
      (width : Nat) × Register α width) =
      ⟨(components ++ [factor]).length,
        product fun qubit => (components ++ [factor])[qubit]⟩ := by
  let extended : Fin (components.length + 1) → α × α := fun qubit =>
    (components ++ [factor]).get (qubit.cast (by simp))
  have earlier : (fun qubit : Fin components.length => extended qubit.castSucc) =
      fun qubit => components[qubit] := by
    funext qubit
    exact List.getElem_append_left qubit.isLt
  have last : extended (Fin.last components.length) = factor := by
    simp [extended]
  have same : (⟨components.length + 1, product extended⟩ :
      (width : Nat) × Register α width) =
      ⟨(components ++ [factor]).length,
        product fun qubit => (components ++ [factor])[qubit]⟩ :=
    mk_product_congr (by simp) fun _ => rfl
  rw [← same, product_succ, earlier, last]

/-- Appending qubits to a product appends their components to the list of factors. -/
theorem appendAll_product (components factors : List (α × α)) :
    appendAll (product fun qubit : Fin components.length => components[qubit]) factors =
      ⟨(components ++ factors).length,
        product fun qubit => (components ++ factors)[qubit]⟩ := by
  induction factors generalizing components with
  | nil => exact mk_product_congr (by simp) fun qubit => by simp
  | cons factor rest inductionHypothesis =>
      have extended := congrArg
        (fun joint : (width : Nat) × Register α width => appendAll joint.2 rest)
        (tensor_product components factor)
      rw [appendAll]
      refine extended.trans ((inductionHypothesis _).trans ?_)
      exact mk_product_congr (by simp) fun qubit => by simp

end Joint

/-- The joint state of qubits that are prepared in the given states and of further qubits
with arbitrary components, appended one after another. -/
def joint
    {R : Type}
    [Scalar R]
    (kets : List (Ket R))
    (factors : List (Amplitude R × Amplitude R)) :
    (width : Nat) × Register (Amplitude R) width :=
  appendAll (product fun qubit : Fin kets.length => kets[qubit].amplitudes) factors

/-- The components of all qubits of a joint state, in the order of the qubits. -/
def jointComponents
    {R : Type}
    [Scalar R]
    (kets : List (Ket R))
    (factors : List (Amplitude R × Amplitude R)) : List (Amplitude R × Amplitude R) :=
  kets.map Ket.amplitudes ++ factors

/-- A joint state is the product of the components of all qubits. -/
theorem joint_eq_product
    {R : Type}
    [Scalar R]
    (kets : List (Ket R))
    (factors : List (Amplitude R × Amplitude R)) :
    joint kets factors =
      ⟨(jointComponents kets factors).length,
        product fun qubit => (jointComponents kets factors)[qubit]⟩ := by
  have prepared : (⟨kets.length, product fun qubit => kets[qubit].amplitudes⟩ :
      (width : Nat) × Register (Amplitude R) width) =
      ⟨(kets.map Ket.amplitudes).length, product fun qubit => (kets.map Ket.amplitudes)[qubit]⟩ :=
    mk_product_congr (by simp) fun qubit => by simp
  exact (congrArg (fun start : (width : Nat) × Register (Amplitude R) width =>
    appendAll start.2 factors) prepared).trans (appendAll_product _ factors)

/-- The squared norm of a product is the product of the squared norms of its factors. -/
theorem normSq_product
    {n : Nat}
    (factors : Fin n → Amplitude ℝ × Amplitude ℝ) :
    (product factors).normSq =
      ∏ qubit, ((factors qubit).1.normSq + (factors qubit).2.normSq) := by
  rw [normSq_eq_normSq_wave, wave_product_components, Wave.normSq_product_eq_prod]
  rfl

/-- The order of the qubits in a joint state agrees with their masks: the
amplitude of a basis state is the product of the components that the masks
select, and the pairs of a qubit list every basis state once. -/
theorem tensor_order_agrees_with_masks :
    (∀ (R : Type) [Scalar R] (kets : List (Ket R))
      (factors : List (Amplitude R × Amplitude R)),
      (joint kets factors).1 = kets.length + factors.length ∧
      (joint kets factors).2.toList.length = 2 ^ (kets.length + factors.length)) ∧
    (∀ (kets : List (Ket ℝ)) (factors : List (Amplitude ℝ × Amplitude ℝ)),
      (∀ index < 2 ^ (kets.length + factors.length), ∃ amplitude,
        (joint kets factors).2.toList[index]? = some amplitude ∧
        amplitude.toComplex =
          ∏ qubit : Fin (jointComponents kets factors).length,
            (if index &&& Basis.weight qubit ≠ 0 then (jointComponents kets factors)[qubit].2
              else (jointComponents kets factors)[qubit].1).toComplex) ∧
      (joint kets factors).2.normSq =
        ∏ qubit : Fin (jointComponents kets factors).length,
          ((jointComponents kets factors)[qubit].1.normSq +
            (jointComponents kets factors)[qubit].2.normSq)) ∧
    ∀ (n : Nat) (qubit : Fin n),
      ((Basis.pairs qubit).flatMap fun pair => [pair.1, pair.2]).Perm
        (List.finRange (2 ^ n)) ∧
      ((Basis.pairs qubit).map Prod.fst).Pairwise (· < ·) ∧
      ∀ pair ∈ Basis.pairs qubit,
        pair.2.val = pair.1.val + Basis.weight qubit ∧
        ∀ digit, pair.1.val.testBit digit ≠ pair.2.val.testBit digit ↔
          digit = n - 1 - qubit.val := by
  have width (R : Type) [Scalar R] (kets : List (Ket R))
      (factors : List (Amplitude R × Amplitude R)) :
      (jointComponents kets factors).length = kets.length + factors.length := by
    simp [jointComponents]
  refine ⟨fun R _ kets factors => ?_, fun kets factors => ⟨fun index inside => ?_, ?_⟩,
    fun n qubit => ⟨Basis.flatMap_pairs_perm qubit, Basis.pairwise_fst_pairs qubit,
      fun pair member => ?_⟩⟩
  · rw [joint_eq_product, ← width]
    exact ⟨rfl, Vector.length_toList⟩
  · rw [← width] at inside
    let state : Basis (jointComponents kets factors).length := ⟨index, inside⟩
    have components := toComplex_entry_product
      (fun qubit => (jointComponents kets factors)[qubit]) state
    simp only [Basis.bit_eq_true_iff] at components
    refine ⟨_, ?_, components⟩
    rw [joint_eq_product]
    simp [entry, state, inside]
  · rw [joint_eq_product]
    exact normSq_product _
  · obtain ⟨clear, partner⟩ := Basis.mem_pairs_iff.1 member
    rw [partner]
    exact ⟨Basis.flip_val_eq_add clear, fun digit => Basis.testBit_flip_ne_iff⟩

/-- A third qubit behind two prepared ones, at the basis state with digits one, zero and
one. -/
theorem tensor_order_agrees_with_masks_behind_kets :
    5 < 2 ^ 3 ∧ ∃ amplitude,
      (joint [Ket.one, .zero] [(1, (⟨3, 4⟩ : Amplitude ℝ))]).2.toList[5]? = some amplitude ∧
      amplitude.toComplex = ⟨3, 4⟩ := by
  have inside : 5 < 2 ^ 3 := by decide
  obtain ⟨_, amplitudes, _⟩ := tensor_order_agrees_with_masks
  obtain ⟨amplitude, here, factors⟩ :=
    (amplitudes [.one, .zero] [(1, ⟨3, 4⟩)]).1 5 inside
  refine ⟨inside, amplitude, here, factors.trans ((Fin.prod_univ_three _).trans ?_)⟩
  change (1 : Amplitude ℝ).toComplex * (1 : Amplitude ℝ).toComplex * ⟨3, 4⟩ = _
  simp

end Register

end MeasurementCalculus
