import MeasurementCalculus.Proofs.FixedPoints
import MeasurementCalculus.Proofs.SignalFlow
import Mathlib.Algebra.Ring.Parity

/-!
# Parities decide canonical forms

Assign one to a single qubit and zero to all others, and the parity of a
signal list tells whether that qubit occurs in it an odd number of times. So
lists with the same parities have the same canonical form, merging behaves
like the addition of sets modulo two, and standardizing drops exactly the
corrections that never fire.
-/

namespace MeasurementCalculus

namespace Signals

/-! ## Outcomes that tell qubits apart -/

/-- If a single qubit has the outcome one, then parities count how often it occurs. -/
theorem under_beq
    (qubit : Qubit)
    (signals : Signals) :
    under (· == qubit) signals = decide (Odd (signals.count qubit)) := by
  induction signals with
  | nil => simp
  | cons head rest inductionHypothesis =>
      rw [under_cons, inductionHypothesis, List.count_cons]
      cases same : head == qubit with
      | false => simp
      | true => simp [Nat.odd_add_one, ← decide_not]

/-- In a list without repetition they tell whether it occurs. -/
theorem under_beq_of_nodup
    (qubit : Qubit)
    {signals : Signals}
    (nodup : signals.Nodup) :
    under (· == qubit) signals = decide (qubit ∈ signals) := by
  rw [under_beq, nodup.count]
  split
  · next member => simp [member]
  · next absent => simp [absent]

theorem nodup_canonical (signals : Signals) : (canonical signals).Nodup :=
  (pairwise_canonical signals).imp Nat.ne_of_lt

theorem under_canonical
    (bits : Qubit → Bool)
    (signals : Signals) :
    under bits (canonical signals) = under bits signals :=
  parity_canonical _ signals

/-- The canonical form lists the qubits that occur an odd number of times. -/
theorem mem_canonical_iff
    {qubit : Qubit}
    {signals : Signals} :
    qubit ∈ canonical signals ↔ Odd (signals.count qubit) := by
  have shown := under_canonical (· == qubit) signals
  rwa [under_beq_of_nodup qubit (nodup_canonical signals), under_beq,
    decide_eq_decide] at shown

/-! ## Equal parities -/

/-- Lists have the same canonical form exactly if they have the same parity, whatever
the recorded outcomes are. -/
theorem canonical_eq_iff
    {first second : Signals} :
    canonical first = canonical second ↔ SameParity first second := by
  constructor
  · intro same lookup
    rw [← parity_canonical, same, parity_canonical]
  · intro sameParity
    refine (pairwise_canonical first).sortedLT.eq_of_mem_iff
      (pairwise_canonical second).sortedLT fun qubit => ?_
    have sameCount : under (· == qubit) first = under (· == qubit) second :=
      sameParity _
    rwa [under_beq, under_beq, decide_eq_decide, ← mem_canonical_iff,
      ← mem_canonical_iff] at sameCount

theorem merge_nil (signals : Signals) : merge signals [] = canonical signals := by
  rw [merge, List.append_nil]

theorem merge_comm (first second : Signals) :
    merge first second = merge second first := by
  refine canonical_eq_iff.2 fun lookup => ?_
  rw [parity_append, parity_append, Bool.xor_comm]

theorem merge_assoc (first second third : Signals) :
    merge (merge first second) third = merge first (merge second third) := by
  refine canonical_eq_iff.2 fun lookup => ?_
  rw [parity_append, parity_append, parity_merge, parity_merge, Bool.xor_assoc]

/-- Signals cancel exactly if their parity is even under all outcomes. One of the
outcomes with a single one shows it if they do not. -/
theorem cancels_eq_true_iff
    {signals : Signals} :
    signals.cancels = true ↔ ∀ bits : Qubit → Bool, signals.under bits = false := by
  refine ⟨fun cancel bits => parity_of_cancels cancel _, fun even => ?_⟩
  rw [cancels, List.isEmpty_iff, List.eq_nil_iff_forall_not_mem]
  intro qubit member
  have odd := decide_eq_true (mem_canonical_iff.1 member)
  rw [← under_beq, even] at odd
  cases odd

end Signals

namespace StandardForm

variable {R : Type}

/-- An ineffective correction is one that fires under no outcomes. -/
theorem isEffective_eq_false_iff
    {command : Command R} :
    isEffective command = false ↔
      ∀ bits : Qubit → Bool, command.signals.under bits = false := by
  rw [isEffective, Bool.not_eq_false', Signals.cancels_eq_true_iff]

end StandardForm

namespace Signals

/-- Merging yields the ascending list of the qubits that occur an odd number
of times in both lists together. Lists have the same canonical form exactly
if their parities agree under all values. -/
theorem merge_canonical_form :
    (∀ first second : Signals,
      (merge first second).Pairwise (· < ·) ∧
      (∀ qubit, qubit ∈ merge first second ↔
        Odd (first.count qubit + second.count qubit)) ∧
      (∀ lookup : Qubit → UInt8, parity lookup (merge first second) =
        (parity lookup first ^^ parity lookup second)) ∧
      merge first second = merge second first ∧
      (merge first [] = merge second [] ↔
        ∀ lookup : Qubit → UInt8, parity lookup first = parity lookup second)) ∧
    (∀ first second third : Signals,
      merge (merge first second) third = merge first (merge second third)) ∧
    ∀ (R : Type) (corrections : List (Command R)),
      (∀ command ∈ corrections, command.isCorrection = true) →
        StandardForm.settle corrections =
            corrections.filter StandardForm.isEffective ∧
          ∀ command ∈ corrections, StandardForm.isEffective command = false ↔
            ∀ bits : Qubit → Bool, command.signals.under bits = false := by
  refine ⟨fun first second => ⟨pairwise_merge first second, fun qubit => ?_,
      fun lookup => parity_merge lookup first second, merge_comm first second, ?_⟩,
    merge_assoc, fun R corrections areCorrections => ⟨?_, fun command _ =>
      StandardForm.isEffective_eq_false_iff⟩⟩
  · rw [merge, mem_canonical_iff, List.count_append]
  · rw [merge_nil, merge_nil]
    exact canonical_eq_iff
  · exact StandardForm.settleFrom_of_isCorrection areCorrections []

/-- Lists with repetitions, and corrections of which one never fires. -/
theorem merge_canonical_form_repeated :
    merge [3, 1, 3] [2, 1, 2, 0] = [0] ∧
    merge [3, 1, 3] [] ≠ merge [2, 1, 2, 0] [] ∧
    StandardForm.settle
        [.correctX 4 [1, 0, 1], .correctZ 4 [2, 3, 3, 2], .correctZ 4 [0, 0, 0]] =
      ([.correctX 4 [1, 0, 1], .correctZ 4 [0, 0, 0]] : List (Command Nat)) ∧
    ∀ bits : Qubit → Bool, under bits [2, 3, 3, 2] = false := by
  obtain ⟨pair, _, corrections⟩ := merge_canonical_form
  obtain ⟨_, _, parities, _, canonicalForms⟩ := pair [3, 1, 3] [2, 1, 2, 0]
  obtain ⟨settled, idle⟩ := corrections Nat
    [.correctX 4 [1, 0, 1], .correctZ 4 [2, 3, 3, 2], .correctZ 4 [0, 0, 0]]
    (by decide)
  refine ⟨by decide, fun same => ?_, ?_, ?_⟩
  · have equal := canonicalForms.1 same fun qubit => if qubit = 0 then 1 else 0
    revert equal
    decide
  · rw [settled]
    decide
  · exact (idle (.correctZ 4 [2, 3, 3, 2]) (by simp)).1 (by decide)

end Signals

end MeasurementCalculus
