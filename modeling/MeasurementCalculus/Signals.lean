import MeasurementCalculus.Qubit

/-!
# Signals

A signal list names measured qubits whose outcome bits are added modulo two.
A qubit that is listed twice contributes twice and cancels, so two lists have
the same parity under every assignment of bits exactly when the same qubits
occur an odd number of times in both. Merging two lists yields that set of
qubits as a strictly ascending list, the canonical form of their sum.
-/

namespace MeasurementCalculus

/-- A list of measured qubits whose outcome bits are summed modulo two. -/
abbrev Signals := List Qubit

namespace Signals

/-- Only the lowest bit of a recorded value takes part in a parity. -/
def isOdd (value : UInt8) : Bool :=
  value % 2 == 1

/-- The sum modulo two of the bits that `lookup` assigns to the listed qubits. -/
def parity (lookup : Qubit → UInt8) : Signals → Bool
  | [] => false
  | qubit :: rest => isOdd (lookup qubit) ^^ parity lookup rest

@[simp] theorem parity_nil (lookup : Qubit → UInt8) :
    parity lookup [] = false := rfl

@[simp] theorem parity_cons
    (lookup : Qubit → UInt8)
    (qubit : Qubit)
    (rest : Signals) :
    parity lookup (qubit :: rest) =
      (isOdd (lookup qubit) ^^ parity lookup rest) := rfl

theorem parity_append
    (lookup : Qubit → UInt8)
    (first second : Signals) :
    parity lookup (first ++ second) =
      (parity lookup first ^^ parity lookup second) := by
  induction first with
  | nil => simp
  | cons qubit rest inductionHypothesis =>
      simp [inductionHypothesis]

/-- Add a qubit to an ascending list, or remove it if it is already there. -/
def toggle (qubit : Qubit) : Signals → Signals
  | [] => [qubit]
  | head :: tail =>
      if qubit < head then qubit :: head :: tail
      else if qubit = head then tail
      else head :: toggle qubit tail

@[simp] theorem toggle_nil (qubit : Qubit) :
    toggle qubit [] = [qubit] := rfl

/-- Toggling a qubit adds its bit to the parity, wherever it is inserted and
also when it cancels. -/
@[simp] theorem parity_toggle
    (lookup : Qubit → UInt8)
    (qubit : Qubit)
    (signals : Signals) :
    parity lookup (toggle qubit signals) =
      (isOdd (lookup qubit) ^^ parity lookup signals) := by
  induction signals with
  | nil => rfl
  | cons head tail inductionHypothesis =>
      unfold toggle
      split
      · rfl
      · split
        · next same => subst same; simp
        · simp [inductionHypothesis, Bool.xor_left_comm]

theorem mem_of_mem_toggle
    {member qubit : Qubit}
    {signals : Signals}
    (inside : member ∈ toggle qubit signals) :
    member = qubit ∨ member ∈ signals := by
  induction signals with
  | nil => exact .inl (List.mem_singleton.1 inside)
  | cons head tail inductionHypothesis =>
      unfold toggle at inside
      split at inside
      · exact List.mem_cons.1 inside
      · split at inside
        · exact .inr (List.mem_cons_of_mem _ inside)
        · rcases List.mem_cons.1 inside with first | later
          · exact .inr (first ▸ List.mem_cons_self)
          · exact (inductionHypothesis later).imp id (List.mem_cons_of_mem _)

/-- Toggling keeps a list strictly ascending. -/
theorem pairwise_toggle
    (qubit : Qubit)
    {signals : Signals}
    (ascending : signals.Pairwise (· < ·)) :
    (toggle qubit signals).Pairwise (· < ·) := by
  induction signals with
  | nil => exact List.pairwise_singleton _ _
  | cons head tail inductionHypothesis =>
      obtain ⟨headFirst, tailAscending⟩ := List.pairwise_cons.1 ascending
      unfold toggle
      split
      · next before =>
          refine List.pairwise_cons.2 ⟨fun member inside => ?_, ascending⟩
          rcases List.mem_cons.1 inside with rfl | later
          · exact before
          · exact Nat.lt_trans before (headFirst member later)
      · split
        · exact tailAscending
        · next notBefore different =>
            refine List.pairwise_cons.2
              ⟨fun member inside => ?_, inductionHypothesis tailAscending⟩
            rcases mem_of_mem_toggle inside with rfl | old
            · exact Nat.lt_of_le_of_ne (Nat.le_of_not_lt notBefore)
                (Ne.symm different)
            · exact headFirst member old

/-- The qubits that occur an odd number of times, in ascending order. -/
def canonical (signals : Signals) : Signals :=
  signals.foldl (fun odd qubit => toggle qubit odd) []

theorem parity_foldl_toggle
    (lookup : Qubit → UInt8)
    (odd signals : Signals) :
    parity lookup (signals.foldl (fun odd qubit => toggle qubit odd) odd) =
      (parity lookup odd ^^ parity lookup signals) := by
  induction signals generalizing odd with
  | nil => simp
  | cons qubit rest inductionHypothesis =>
      rw [List.foldl_cons, inductionHypothesis, parity_toggle, parity_cons,
        Bool.xor_assoc, Bool.xor_left_comm]

theorem pairwise_foldl_toggle
    (signals : Signals)
    {odd : Signals}
    (ascending : odd.Pairwise (· < ·)) :
    (signals.foldl (fun odd qubit => toggle qubit odd) odd).Pairwise (· < ·) := by
  induction signals generalizing odd with
  | nil => exact ascending
  | cons qubit rest inductionHypothesis =>
      exact inductionHypothesis (pairwise_toggle qubit ascending)

/-- The canonical form has the same parity under all outcomes. -/
@[simp] theorem parity_canonical
    (lookup : Qubit → UInt8)
    (signals : Signals) :
    parity lookup (canonical signals) = parity lookup signals := by
  simp [canonical, parity_foldl_toggle]

theorem pairwise_canonical (signals : Signals) :
    (canonical signals).Pairwise (· < ·) :=
  pairwise_foldl_toggle signals .nil

/-- Add two signal lists: the qubits that occur an odd number of times in both
together, in ascending order. -/
def merge (first second : Signals) : Signals :=
  canonical (first ++ second)

/-- The parity of a merged list is the sum of both parities. -/
@[simp] theorem parity_merge
    (lookup : Qubit → UInt8)
    (first second : Signals) :
    parity lookup (merge first second) =
      (parity lookup first ^^ parity lookup second) := by
  simp [merge, parity_append]

theorem pairwise_merge (first second : Signals) :
    (merge first second).Pairwise (· < ·) :=
  pairwise_canonical _

/-- A signal list cancels when its parity is even whatever the outcomes are. -/
def cancels (signals : Signals) : Bool :=
  (canonical signals).isEmpty

end Signals

end MeasurementCalculus
