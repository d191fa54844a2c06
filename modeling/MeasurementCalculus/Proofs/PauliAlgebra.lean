import MeasurementCalculus.Proofs.Masks
import MeasurementCalculus.Register
import Mathlib.Algebra.Group.Basic
import Mathlib.Order.Fin.Basic

/-!
# The algebra of the register operations

The Z operations and the controlled-Z change signs of entries, by a condition
on the digits of their places, and the X operations move entries, from the
place that differs in one digit. All their laws follow from how one condition
reads after the other. Nothing is needed of the entries except that two
negations cancel.
-/

namespace MeasurementCalculus

/-- Negate a value if a condition fires. -/
def negateIf
    {α : Type}
    [Neg α]
    (fires : Bool)
    (value : α) : α :=
  if fires then -value else value

/-- Two conditional negations cancel if both conditions fire. -/
@[simp] theorem negateIf_negateIf
    {α : Type}
    [InvolutiveNeg α]
    (first second : Bool)
    (value : α) :
    negateIf first (negateIf second value) = negateIf (first ^^ second) value := by
  cases first <;> cases second <;> simp [negateIf]

@[simp] theorem negateIf_false
    {α : Type}
    [Neg α]
    (value : α) :
    negateIf false value = value := rfl

theorem neg_negateIf
    {α : Type}
    [InvolutiveNeg α]
    (fires : Bool)
    (value : α) :
    -negateIf fires value = negateIf (!fires) value := by
  cases fires <;> simp [negateIf]

namespace Register

variable {α : Type} {n : Nat}

/-! ## Operations in place -/

section Loops

/-- The controlled-Z goes through the entries and negates those whose places contain the
masks of both qubits. -/
theorem controlledZ_eq_mapIdx
    [Neg α]
    (register : Register α n)
    (first second : Fin n) :
    register.controlledZ first second =
      register.mapIdx fun index value =>
        if index &&& (Basis.weight first ||| Basis.weight second) =
            Basis.weight first ||| Basis.weight second
        then -value else value := by
  apply ext_entry
  intro index
  rw [entry_controlledZ]
  simp only [Basis.bit_and_bit_eq_true_iff, entry, Fin.getElem_fin, Vector.getElem_mapIdx]

/-- A Z goes through the entries and negates those whose places share a digit with the mask
of its qubit. -/
theorem pauliZ_eq_mapIdx
    [Neg α]
    (register : Register α n)
    (qubit : Fin n) :
    register.pauliZ qubit =
      register.mapIdx fun index value =>
        if index &&& Basis.weight qubit ≠ 0 then -value else value := by
  apply ext_entry
  intro index
  rw [entry_pauliZ]
  simp only [Basis.bit_eq_true_iff, entry, Fin.getElem_fin, Vector.getElem_mapIdx]

/-- Exchange the entries of two basis states. -/
def exchange
    (register : Register α n)
    (pair : Basis n × Basis n) : Register α n :=
  Vector.swap register pair.1 pair.2

theorem entry_exchange
    (register : Register α n)
    (pair : Basis n × Basis n)
    (index : Basis n) :
    (register.exchange pair).entry index =
      if index = pair.1 then register.entry pair.2
      else if index = pair.2 then register.entry pair.1
      else register.entry index := by
  simp only [exchange, entry, Fin.getElem_fin, Vector.getElem_swap, Fin.ext_iff]

/-- After the exchange of some pairs, the entries of their members have moved. -/
theorem entry_foldl_exchange
    {qubit : Fin n}
    {lows : List (Basis n)}
    (clear : ∀ low ∈ lows, Basis.bit qubit low = false)
    (nodup : lows.Nodup)
    (register : Register α n)
    (index : Basis n) :
    ((lows.map fun low => (low, Basis.flip qubit low)).foldl exchange register).entry index =
      if index ∈ lows ∨ Basis.flip qubit index ∈ lows then
        register.entry (Basis.flip qubit index)
      else register.entry index := by
  induction lows generalizing register with
  | nil => simp
  | cons low rest inductionHypothesis =>
      rw [List.forall_mem_cons] at clear
      rw [List.nodup_cons] at nodup
      have absent : Basis.flip qubit low ∉ rest := fun member => by
        have set := clear.2 _ member
        rw [Basis.bit_flip_self, clear.1] at set
        cases set
      rw [List.map_cons, List.foldl_cons, inductionHypothesis clear.2 nodup.2,
        entry_exchange, entry_exchange]
      by_cases first : index = low
      · subst first
        simp [nodup.1, absent]
      · by_cases second : index = Basis.flip qubit low
        · subst second
          simp [nodup.1, absent, first]
        · have apart : Basis.flip qubit index ≠ low := fun same =>
            second (by rw [← same, Basis.flip_flip])
          have partnerApart : Basis.flip qubit index ≠ Basis.flip qubit low := fun same =>
            first (by rw [← Basis.flip_flip qubit index, same, Basis.flip_flip])
          simp [first, second, apart, partnerApart]

/-- An X exchanges the entries of each pair of its qubit, one pair after another. -/
theorem pauliX_eq_foldl_exchange
    (register : Register α n)
    (qubit : Fin n) :
    register.pauliX qubit = (Basis.pairs qubit).foldl exchange register := by
  apply ext_entry
  intro index
  have clear : ∀ low ∈ (List.finRange (dimension n)).filter fun low => !Basis.bit qubit low,
      Basis.bit qubit low = false := fun low member => by
    simpa using (List.mem_filter.1 member).2
  have moved := entry_foldl_exchange clear ((List.nodup_finRange _).filter _) register index
  refine Eq.trans ?_ moved.symm
  rw [entry_pauliX, if_pos]
  cases digit : Basis.bit qubit index with
  | false => exact .inl (by simp [digit])
  | true => exact .inr (by simp [digit])

end Loops

/-! ## Laws -/

section Laws

variable (register : Register α n)

theorem pauliX_pauliX_self (qubit : Fin n) :
    (register.pauliX qubit).pauliX qubit = register := by
  apply ext_entry
  intro index
  rw [entry_pauliX, entry_pauliX, Basis.flip_flip]

theorem pauliX_comm (first second : Fin n) :
    (register.pauliX first).pauliX second = (register.pauliX second).pauliX first := by
  apply ext_entry
  intro index
  simp only [entry_pauliX]
  rw [Basis.flip_comm]

variable [InvolutiveNeg α]

theorem entry_controlledZ_eq_negateIf
    (first second : Fin n)
    (index : Basis n) :
    (register.controlledZ first second).entry index =
      negateIf (Basis.bit first index && Basis.bit second index) (register.entry index) :=
  entry_controlledZ register first second index

theorem entry_pauliZ_eq_negateIf
    (qubit : Fin n)
    (index : Basis n) :
    (register.pauliZ qubit).entry index =
      negateIf (Basis.bit qubit index) (register.entry index) :=
  entry_pauliZ register qubit index

theorem entry_neg (index : Basis n) : (-register).entry index = -register.entry index :=
  Vector.getElem_neg register index.val index.isLt

theorem controlledZ_symm (first second : Fin n) :
    register.controlledZ first second = register.controlledZ second first := by
  apply ext_entry
  intro index
  rw [entry_controlledZ_eq_negateIf, entry_controlledZ_eq_negateIf, Bool.and_comm]

theorem controlledZ_controlledZ_self (first second : Fin n) :
    (register.controlledZ first second).controlledZ first second = register := by
  apply ext_entry
  intro index
  simp only [entry_controlledZ_eq_negateIf, negateIf_negateIf, Bool.xor_self,
    negateIf_false]

theorem pauliZ_pauliZ_self (qubit : Fin n) :
    (register.pauliZ qubit).pauliZ qubit = register := by
  apply ext_entry
  intro index
  simp only [entry_pauliZ_eq_negateIf, negateIf_negateIf, Bool.xor_self, negateIf_false]

/-- An X that passes a controlled-Z on its qubit leaves a Z on the other qubit behind. -/
theorem pauliX_controlledZ
    {first second : Fin n}
    (different : first ≠ second) :
    (register.pauliX first).controlledZ first second =
      ((register.controlledZ first second).pauliX first).pauliZ second := by
  apply ext_entry
  intro index
  rw [entry_controlledZ_eq_negateIf, entry_pauliZ_eq_negateIf, entry_pauliX, entry_pauliX,
    entry_controlledZ_eq_negateIf, negateIf_negateIf, Basis.bit_flip_self,
    Basis.bit_flip_of_ne different.symm]
  congr 1
  cases Basis.bit first index <;> simp

theorem pauliZ_controlledZ (qubit first second : Fin n) :
    (register.pauliZ qubit).controlledZ first second =
      (register.controlledZ first second).pauliZ qubit := by
  apply ext_entry
  intro index
  simp only [entry_controlledZ_eq_negateIf, entry_pauliZ_eq_negateIf, negateIf_negateIf]
  rw [Bool.xor_comm]

theorem pauliZ_comm (first second : Fin n) :
    (register.pauliZ first).pauliZ second = (register.pauliZ second).pauliZ first := by
  apply ext_entry
  intro index
  simp only [entry_pauliZ_eq_negateIf, negateIf_negateIf]
  rw [Bool.xor_comm]

theorem controlledZ_comm (first second third fourth : Fin n) :
    (register.controlledZ first second).controlledZ third fourth =
      (register.controlledZ third fourth).controlledZ first second := by
  apply ext_entry
  intro index
  simp only [entry_controlledZ_eq_negateIf, negateIf_negateIf]
  rw [Bool.xor_comm]

/-- On one qubit, X and Z anticommute. -/
theorem pauliX_pauliZ_self (qubit : Fin n) :
    (register.pauliX qubit).pauliZ qubit = -(register.pauliZ qubit).pauliX qubit := by
  apply ext_entry
  intro index
  rw [entry_neg, entry_pauliX, entry_pauliZ_eq_negateIf, entry_pauliZ_eq_negateIf,
    entry_pauliX, neg_negateIf, Basis.bit_flip_self, Bool.not_not]

/-- On different qubits, X and Z commute. -/
theorem pauliX_pauliZ_of_ne
    {first second : Fin n}
    (different : first ≠ second) :
    (register.pauliX first).pauliZ second = (register.pauliZ second).pauliX first := by
  apply ext_entry
  intro index
  rw [entry_pauliX, entry_pauliZ_eq_negateIf, entry_pauliZ_eq_negateIf, entry_pauliX,
    Basis.bit_flip_of_ne different.symm]

end Laws

/-- The operations on registers, carried out in place, are involutions that
commute with one another, except that an X anticommutes with the Z of its
qubit and leaves a Z behind when it passes a controlled-Z. -/
theorem pauli_algebra
    [InvolutiveNeg α]
    (register : Register α n)
    {a b : Fin n}
    (different : a ≠ b) :
    (∀ first second, register.controlledZ first second =
      register.mapIdx fun index value =>
        if index &&& (Basis.weight first ||| Basis.weight second) =
            Basis.weight first ||| Basis.weight second
        then -value else value) ∧
    (∀ q, register.pauliZ q =
      register.mapIdx fun index value =>
        if index &&& Basis.weight q ≠ 0 then -value else value) ∧
    (∀ q, register.pauliX q = (Basis.pairs q).foldl exchange register) ∧
    register.controlledZ a b = register.controlledZ b a ∧
    (register.controlledZ a b).controlledZ a b = register ∧
    (∀ q, (register.pauliX q).pauliX q = register) ∧
    (∀ q, (register.pauliZ q).pauliZ q = register) ∧
    (register.pauliX a).controlledZ a b =
      ((register.controlledZ a b).pauliX a).pauliZ b ∧
    (∀ q, (register.pauliZ q).controlledZ a b = (register.controlledZ a b).pauliZ q) ∧
    (∀ q r, (register.pauliZ q).pauliZ r = (register.pauliZ r).pauliZ q) ∧
    (∀ c d, (register.controlledZ a b).controlledZ c d =
      (register.controlledZ c d).controlledZ a b) ∧
    (∀ q, (register.pauliX q).pauliZ q = -(register.pauliZ q).pauliX q) ∧
    (register.pauliX a).pauliX b = (register.pauliX b).pauliX a ∧
    (register.pauliX a).pauliZ b = (register.pauliZ b).pauliX a ∧
    (register.pauliZ a).pauliZ b = (register.pauliZ b).pauliZ a :=
  ⟨register.controlledZ_eq_mapIdx, register.pauliZ_eq_mapIdx,
    register.pauliX_eq_foldl_exchange, register.controlledZ_symm a b,
    register.controlledZ_controlledZ_self a b, register.pauliX_pauliX_self,
    register.pauliZ_pauliZ_self, register.pauliX_controlledZ different,
    fun q => register.pauliZ_controlledZ q a b, register.pauliZ_comm,
    register.controlledZ_comm a b, register.pauliX_pauliZ_self, register.pauliX_comm a b,
    register.pauliX_pauliZ_of_ne different, register.pauliZ_comm a b⟩

/-- A register of three qubits whose entries are their own places. -/
def numbered : Register Int 3 :=
  ofFn fun index => index.val

/-- An X on the first of three qubits passes a controlled-Z of the outer ones. -/
theorem pauli_algebra_outer_qubits :
    (0 : Fin 3) ≠ 2 ∧
    ((numbered.pauliX 0).controlledZ 0 2).toList = [4, 5, 6, 7, 0, -1, 2, -3] ∧
    (((numbered.controlledZ 0 2).pauliX 0).pauliZ 2).toList =
      [4, 5, 6, 7, 0, -1, 2, -3] := by
  have different : (0 : Fin 3) ≠ 2 := by decide
  obtain ⟨_, _, _, _, _, _, _, passes, _⟩ := pauli_algebra numbered different
  have entries : ((numbered.pauliX 0).controlledZ 0 2).toList =
      [4, 5, 6, 7, 0, -1, 2, -3] := by
    decide
  exact ⟨different, entries, passes ▸ entries⟩

end Register

end MeasurementCalculus
