import MeasurementCalculus.Run.Measurement
import Mathlib.Data.List.Nodup

/-!
# The two stores of a run

A run keeps values in slots and the measured qubits in an order, and shows an
outcome through both. The invariant of this module says that the filled slots
are those of the qubits in the order, so that reading the outcome cannot fail.
If no qubit is measured twice, the outcome only grows at its end, and shows
the values in the slots.
-/

namespace MeasurementCalculus

/-- A computation on every member of a list succeeds if it succeeds on each. -/
theorem mapM_eq_ok_map
    {ε α β : Type}
    {computation : α → Except ε β}
    {result : α → β}
    {members : List α}
    (success : ∀ member ∈ members, computation member = .ok (result member)) :
    members.mapM computation = .ok (members.map result) := by
  induction members with
  | nil => rfl
  | cons head tail inductionHypothesis =>
      rw [List.forall_mem_cons] at success
      rw [List.mapM_cons, success.1, inductionHypothesis success.2]
      rfl

namespace Outcome

/-- Add the value of one more measurement. -/
def record
    (outcome : Outcome)
    (qubit : Qubit)
    (bit : Bool) : Outcome :=
  ⟨outcome.bits ++ [(qubit, bit.toUInt8)]⟩

@[simp] theorem bits_record
    (outcome : Outcome)
    (qubit : Qubit)
    (bit : Bool) :
    (outcome.record qubit bit).bits =
      outcome.bits ++ [(qubit, bit.toUInt8)] := rfl

/-- A qubit has a recorded value exactly if it occurs among the recorded pairs. -/
theorem isSome_bit?_iff
    (outcome : Outcome)
    (qubit : Qubit) :
    (outcome.bit? qubit).isSome ↔ qubit ∈ outcome.bits.map Prod.fst := by
  unfold bit?
  induction outcome.bits with
  | nil => simp
  | cons entry rest inductionHypothesis =>
      rw [List.lookup_cons]
      split
      · next same => simp [eq_of_beq same]
      · next different =>
          have apart : qubit ≠ entry.1 := ne_of_beq_false (by simpa using different)
          simp [inductionHypothesis, apart]

/-- If each listed qubit has one value, this is the value that is found for it. -/
theorem bit?_map
    (value : Qubit → UInt8)
    {qubits : List Qubit}
    {qubit : Qubit}
    (member : qubit ∈ qubits) :
    (Outcome.mk (qubits.map fun qubit => (qubit, value qubit))).bit? qubit =
      some (value qubit) := by
  unfold bit?
  induction qubits with
  | nil => cases member
  | cons head tail inductionHypothesis =>
      rw [List.map_cons, List.lookup_cons]
      by_cases same : qubit = head
      · simp [same]
      · have later := (List.mem_cons.1 member).resolve_left same
        rw [beq_false_of_ne same]
        exact inductionHypothesis later

end Outcome

namespace Run

variable {R : Type} {n : Nat}

/-! ## Slots -/

@[simp] theorem register_record
    (run : Run R n)
    (qubit : Fin n)
    (bit : Bool) :
    (run.record qubit bit).register = run.register := rfl

@[simp] theorem value?_blank
    (register : Register (Amplitude R) n)
    (qubit : Qubit) :
    (blank register).value? qubit = none := by
  by_cases inside : qubit < n
  · simp [value?, blank, inside]
  · simp [value?, blank, inside]

/-- Recording fills the slot of one qubit and leaves all others as they are. -/
theorem value?_record
    (run : Run R n)
    (qubit : Fin n)
    (bit : Bool)
    (other : Qubit) :
    (run.record qubit bit).value? other =
      if other = qubit.val then some bit.toUInt8 else run.value? other := by
  unfold value? record
  by_cases same : other = qubit.val
  · simp [same]
  · simp [same, Vector.getElem?_set_ne, Ne.symm same]

theorem value?_record_of_ne
    {run : Run R n}
    {qubit : Fin n}
    {other : Qubit}
    (different : other ≠ qubit.val)
    (bit : Bool) :
    (run.record qubit bit).value? other = run.value? other := by
  rw [value?_record, if_neg different]

/-- A slot that is filled belongs to a qubit of the register. -/
theorem lt_of_isSome_value?
    {run : Run R n}
    {qubit : Qubit}
    (filled : (run.value? qubit).isSome) :
    qubit < n := by
  by_contra outside
  simp [value?, outside] at filled

/-! ## The outcome of both stores -/

/-- The qubits in the order, each with the value in its slot. -/
def outcome (run : Run R n) : Outcome :=
  ⟨run.order.map fun qubit => (qubit, (run.value? qubit).getD 0)⟩

theorem map_fst_outcome (run : Run R n) : run.outcome.bits.map Prod.fst = run.order := by
  simp [outcome, Function.comp_def]

/-- Recording a new qubit adds its value at the end of the outcome. -/
theorem outcome_record
    {run : Run R n}
    {qubit : Fin n}
    (fresh : qubit.val ∉ run.order)
    (bit : Bool) :
    (run.record qubit bit).outcome = run.outcome.record qubit bit := by
  have earlier : ∀ other ∈ run.order,
      (run.record qubit bit).value? other = run.value? other := fun other member =>
    value?_record_of_ne (fun same => fresh (same ▸ member)) bit
  have kept : (run.order.map fun other =>
        (other, ((run.record qubit bit).value? other).getD 0)) = run.outcome.bits :=
    List.map_congr_left fun other member => by rw [earlier other member]
  apply Outcome.ext
  change (run.order ++ [qubit.val]).map _ = _
  rw [List.map_append, kept, List.map_singleton, value?_record, if_pos rfl]
  rfl

/-! ## The invariant -/

/-- A run that has recorded the given qubits, in both of its stores. -/
structure Recorded
    (measured : List Qubit)
    (run : Run R n) : Prop where
  /-- The order lists the qubits as they were measured. -/
  order_eq : run.order = measured
  /-- The slots of these qubits are filled, and no others. -/
  isSome_iff : ∀ qubit, (run.value? qubit).isSome ↔ qubit ∈ measured

theorem recorded_blank (register : Register (Amplitude R) n) :
    (blank register).Recorded [] where
  order_eq := rfl
  isSome_iff qubit := by simp

namespace Recorded

variable {measured : List Qubit} {run : Run R n}

/-- What is recorded does not depend on the register. -/
theorem withRegister
    (recorded : run.Recorded measured)
    (register : Register (Amplitude R) n) :
    { run with register }.Recorded measured :=
  ⟨recorded.order_eq, recorded.isSome_iff⟩

theorem record
    (recorded : run.Recorded measured)
    (qubit : Fin n)
    (bit : Bool) :
    (run.record qubit bit).Recorded (measured ++ [qubit.val]) where
  order_eq := by
    rw [← recorded.order_eq]
    rfl
  isSome_iff other := by
    rw [value?_record, List.mem_append, List.mem_singleton, ← recorded.isSome_iff]
    split
    · next same => simp [same]
    · next different => simp [different]

theorem map_fst_outcome (recorded : run.Recorded measured) :
    run.outcome.bits.map Prod.fst = measured := by
  rw [Run.map_fst_outcome, recorded.order_eq]

/-- Both stores show the same values. -/
theorem bit?_outcome
    (recorded : run.Recorded measured)
    (qubit : Qubit) :
    run.outcome.bit? qubit = run.value? qubit := by
  by_cases member : qubit ∈ measured
  · obtain ⟨value, filled⟩ := Option.isSome_iff_exists.1 ((recorded.isSome_iff qubit).2 member)
    rw [outcome, Outcome.bit?_map _ (recorded.order_eq ▸ member), filled, Option.getD_some]
  · have absent : ¬(run.outcome.bit? qubit).isSome := by
      rwa [Outcome.isSome_bit?_iff, recorded.map_fst_outcome]
    have empty : ¬(run.value? qubit).isSome := by rwa [recorded.isSome_iff]
    rw [Option.not_isSome_iff_eq_none.1 absent, Option.not_isSome_iff_eq_none.1 empty]

/-- Reading the outcome succeeds. -/
theorem readOutcome_eq_ok (recorded : run.Recorded measured) :
    run.readOutcome = .ok run.outcome := by
  have reads : run.order.mapM (fun qubit =>
        (run.readValue qubit).map fun value => (qubit, value)) =
      .ok run.outcome.bits := by
    refine mapM_eq_ok_map fun qubit member => ?_
    rw [recorded.order_eq, ← recorded.isSome_iff] at member
    obtain ⟨value, filled⟩ := Option.isSome_iff_exists.1 member
    rw [readValue, filled]
    rfl
  rw [readOutcome, reads]
  rfl

end Recorded

end Run

end MeasurementCalculus
