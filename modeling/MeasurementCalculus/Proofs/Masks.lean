import MeasurementCalculus.Basis
import Mathlib.Data.List.Nodup
import Mathlib.Data.Nat.Bitwise

/-!
# Masks and pairs of basis states

The weight of a qubit is the number with its binary digit alone. As a mask it
selects this digit: a basis state has digit one at a qubit if it shares a
digit with the mask, and setting a digit that is zero adds the weight. The
pairs of a qubit go through all basis states, each of which stands in exactly
one pair.
-/

namespace MeasurementCalculus

namespace Basis

variable {n : Nat}

/-! ## Masks -/

theorem bit_eq_true_iff
    {qubit : Fin n}
    {index : Basis n} :
    bit qubit index = true ↔ index.val &&& weight qubit ≠ 0 := by
  unfold bit weight
  rw [Nat.pow_eq, Nat.and_two_pow]
  cases index.val.testBit (place qubit) with
  | false => simp
  | true => simp

theorem bit_and_bit_eq_true_iff
    {first second : Fin n}
    {index : Basis n} :
    (bit first index && bit second index) = true ↔
      index.val &&& (weight first ||| weight second) = weight first ||| weight second := by
  rw [Bool.and_eq_true]
  constructor
  · rintro ⟨firstSet, secondSet⟩
    apply Nat.eq_of_testBit_eq
    intro digit
    rw [Nat.testBit_and, Bool.and_eq_right_iff_imp, Nat.testBit_or, testBit_weight,
      testBit_weight, Bool.or_eq_true, decide_eq_true_iff, decide_eq_true_iff]
    rintro (rfl | rfl)
    · exact firstSet
    · exact secondSet
  · intro contained
    have digits (digit : Nat) := congrArg (·.testBit digit) contained
    simp only [Nat.testBit_and, Nat.testBit_or, testBit_weight, Bool.and_eq_right_iff_imp,
      Bool.or_eq_true, decide_eq_true_iff] at digits
    exact ⟨digits _ (.inl rfl), digits _ (.inr rfl)⟩

/-- Changing a digit that is zero sets it. -/
theorem flip_val_eq_or
    {qubit : Fin n}
    {index : Basis n}
    (clear : bit qubit index = false) :
    (flip qubit index).val = index.val ||| weight qubit := by
  apply Nat.eq_of_testBit_eq
  intro digit
  change (index.val ^^^ weight qubit).testBit digit = _
  rw [Nat.testBit_xor, Nat.testBit_or, testBit_weight]
  by_cases here : place qubit = digit
  · have digitClear : index.val.testBit digit = false := here ▸ clear
    simp [here, digitClear]
  · simp [here]

/-- Setting a digit that is zero adds the weight of its qubit. -/
theorem flip_val_eq_add
    {qubit : Fin n}
    {index : Basis n}
    (clear : bit qubit index = false) :
    (flip qubit index).val = index.val + weight qubit := by
  have apart : BitVec.ofNat n index.val &&& BitVec.ofNat n (weight qubit) = 0#n := by
    rw [← BitVec.ofNat_and]
    congr 1
    by_contra shared
    rw [bit_eq_true_iff.2 shared] at clear
    cases clear
  have indexSmall : index.val % 2 ^ n = index.val := Nat.mod_eq_of_lt index.isLt
  have weightSmall : weight qubit % 2 ^ n = weight qubit := Nat.mod_eq_of_lt (weight_lt qubit)
  have sum := BitVec.toNat_add_of_and_eq_zero apart
  rw [BitVec.add_eq_or_of_and_eq_zero _ _ apart, BitVec.toNat_or, BitVec.toNat_ofNat,
    BitVec.toNat_ofNat, indexSmall, weightSmall] at sum
  rw [flip_val_eq_or clear, sum]

/-- Two basis states of which one is the other with one digit changed differ in this digit
alone. -/
theorem testBit_flip_ne_iff
    {qubit : Fin n}
    {index : Basis n}
    {digit : Nat} :
    index.val.testBit digit ≠ (flip qubit index).val.testBit digit ↔
      digit = place qubit := by
  change _ ≠ (index.val ^^^ weight qubit).testBit digit ↔ _
  rw [Nat.testBit_xor, testBit_weight, eq_comm (a := digit)]
  by_cases here : place qubit = digit
  · simp [here]
  · simp [here]

/-! ## Pairs -/

theorem mem_pairs_iff
    {qubit : Fin n}
    {pair : Basis n × Basis n} :
    pair ∈ pairs qubit ↔
      bit qubit pair.1 = false ∧ pair.2 = flip qubit pair.1 := by
  unfold pairs
  rw [List.mem_map]
  constructor
  · rintro ⟨low, member, rfl⟩
    rw [List.mem_filter, Bool.not_eq_true'] at member
    exact ⟨member.2, rfl⟩
  · rintro ⟨clear, partner⟩
    refine ⟨pair.1, List.mem_filter.2 ⟨List.mem_finRange _, ?_⟩,
      Prod.ext rfl partner.symm⟩
    rw [clear, Bool.not_false]

/-- The first members of the pairs are ascending. -/
theorem pairwise_fst_pairs (qubit : Fin n) :
    ((pairs qubit).map Prod.fst).Pairwise (· < ·) := by
  unfold pairs
  rw [List.map_map]
  change (List.map id _).Pairwise _
  rw [List.map_id]
  exact (List.pairwise_lt_finRange _).filter _

/-- A basis state determines the pair in which it stands. -/
theorem fst_of_mem_pair
    {qubit : Fin n}
    {pair : Basis n × Basis n}
    (member : pair ∈ pairs qubit)
    {index : Basis n}
    (inside : index ∈ [pair.1, pair.2]) :
    pair.1 = if bit qubit index then flip qubit index else index := by
  obtain ⟨clear, partner⟩ := mem_pairs_iff.1 member
  rcases List.mem_pair.1 inside with rfl | rfl
  · simp [clear]
  · simp [partner, clear]

/-- Every basis state stands in exactly one pair, at one of its places. -/
theorem flatMap_pairs_perm (qubit : Fin n) :
    ((pairs qubit).flatMap fun pair => [pair.1, pair.2]).Perm
      (List.finRange (dimension n)) := by
  have nodup : ((pairs qubit).flatMap fun pair => [pair.1, pair.2]).Nodup := by
    rw [List.nodup_flatMap]
    refine ⟨fun pair member => ?_, ?_⟩
    · obtain ⟨clear, partner⟩ := mem_pairs_iff.1 member
      rw [List.nodup_cons, List.mem_singleton, partner]
      refine ⟨fun same => ?_, List.nodup_singleton _⟩
      have changed := bit_flip_self qubit pair.1
      rw [← same, clear] at changed
      cases changed
    · refine (List.pairwise_map.1 (pairwise_fst_pairs qubit)).imp_of_mem ?_
      intro first second firstMember secondMember before index inFirst inSecond
      refine (Fin.ne_of_lt before) ?_
      rw [fst_of_mem_pair firstMember inFirst, fst_of_mem_pair secondMember inSecond]
  refine (List.perm_ext_iff_of_nodup nodup (List.nodup_finRange _)).2 fun index =>
    iff_of_true (List.mem_flatMap.2 ?_) (List.mem_finRange index)
  cases digit : bit qubit index with
  | false =>
      exact ⟨(index, flip qubit index), mem_pairs_iff.2 ⟨digit, rfl⟩, by simp⟩
  | true =>
      refine ⟨(flip qubit index, index), mem_pairs_iff.2 ⟨?_, ?_⟩, by simp⟩
      · rw [bit_flip_self, digit, Bool.not_true]
      · rw [flip_flip]

end Basis

end MeasurementCalculus
