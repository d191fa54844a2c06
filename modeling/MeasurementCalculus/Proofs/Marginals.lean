import MeasurementCalculus.Proofs.Mass
import MeasurementCalculus.Distribution

/-!
# Marginals

The marginal of a list of qubits tallies their values and leaves out the
outcomes that lack one of them. It is an image of the distribution, and an
image gives the keys with a property the mass of the keys whose images have
it. So marginals of fewer qubits are images of marginals of more, once
selecting qubits is known to select their values.
-/

namespace MeasurementCalculus

/-- The members of a list at the given positions, in the order of the positions. A position
behind the end of the list selects nothing. -/
def selectAt
    {α : Type}
    (positions : List Nat)
    (members : List α) : List α :=
  positions.filterMap fun position => members[position]?

theorem map_selectAt
    {α β : Type}
    (f : α → β)
    (positions : List Nat)
    (members : List α) :
    (selectAt positions members).map f = selectAt positions (members.map f) := by
  unfold selectAt
  rw [List.map_filterMap]
  simp only [List.getElem?_map]

theorem mem_of_mem_selectAt
    {α : Type}
    {positions : List Nat}
    {members : List α}
    {member : α}
    (selected : member ∈ selectAt positions members) : member ∈ members := by
  obtain ⟨position, _, there⟩ := List.mem_filterMap.1 selected
  exact List.mem_of_getElem? there

namespace Outcome

/-! ## The values of several qubits -/

theorem values?_cons
    (outcome : Outcome)
    (qubit : Qubit)
    (rest : List Qubit) :
    outcome.values? (qubit :: rest) =
      (outcome.bit? qubit).bind fun bit => (outcome.values? rest).map (bit :: ·) := by
  unfold values?
  rw [List.mapM_cons]
  cases outcome.bit? qubit with
  | none => rfl
  | some bit =>
      cases rest.mapM outcome.bit? with
      | none => rfl
      | some bits => rfl

/-- An outcome has values for a list of qubits if it has one for each of them. -/
theorem isSome_values?_iff
    {outcome : Outcome}
    {qubits : List Qubit} :
    (outcome.values? qubits).isSome ↔
      ∀ qubit ∈ qubits, (outcome.bit? qubit).isSome := by
  induction qubits with
  | nil => exact iff_of_true rfl (List.forall_mem_nil _)
  | cons qubit rest inductionHypothesis =>
      rw [values?_cons, List.forall_mem_cons, ← inductionHypothesis]
      cases outcome.bit? qubit with
      | none => simp
      | some bit => simp

theorem values?_eq_some_iff
    {outcome : Outcome}
    {qubits : List Qubit}
    {values : List UInt8} :
    outcome.values? qubits = some values ↔
      qubits.map outcome.bit? = values.map some := by
  induction qubits generalizing values with
  | nil =>
      cases values with
      | nil => exact iff_of_true rfl rfl
      | cons value values => exact ⟨nofun, nofun⟩
  | cons qubit rest inductionHypothesis =>
      rw [values?_cons, List.map_cons]
      cases outcome.bit? qubit with
      | none => cases values <;> exact ⟨nofun, nofun⟩
      | some bit =>
          rw [Option.bind_some, Option.map_eq_some_iff]
          cases values with
          | nil => exact ⟨nofun, nofun⟩
          | cons value values =>
              rw [List.map_cons, List.cons.injEq, Option.some.injEq, ← inductionHypothesis]
              constructor
              · rintro ⟨_, known, ⟨⟩⟩
                exact ⟨rfl, known⟩
              · rintro ⟨rfl, known⟩
                exact ⟨values, known, rfl⟩

/-- Selecting qubits selects their values. -/
theorem values?_selectAt
    {outcome : Outcome}
    {qubits : List Qubit}
    {values : List UInt8}
    (known : outcome.values? qubits = some values)
    (positions : List Nat) :
    outcome.values? (selectAt positions qubits) = some (selectAt positions values) := by
  rw [values?_eq_some_iff] at known ⊢
  rw [map_selectAt, known, map_selectAt]

end Outcome

namespace Distribution

/-! ## Keys and masses of a marginal -/

section Marginal

variable (distribution : Distribution ℝ) (qubits : List Qubit)

variable {distribution qubits} in
theorem mem_keys_marginal {values : List UInt8} :
    values ∈ (distribution.marginal qubits).keys ↔
      ∃ outcome ∈ distribution.keys, outcome.values? qubits = some values :=
  Tally.mem_keys_pushforward

theorem massWhere_marginal
    {property : List UInt8 → Prop}
    [DecidablePred property] :
    (distribution.marginal qubits).massWhere property =
      distribution.massWhere fun outcome =>
        ∃ values ∈ outcome.values? qubits, property values :=
  Tally.massWhere_pushforward _ _

/-- A marginal sums to the mass of the outcomes that have all of its qubits. -/
theorem total_marginal :
    (distribution.marginal qubits).total =
      distribution.massWhere fun outcome =>
        ∀ qubit ∈ qubits, (outcome.bit? qubit).isSome := by
  rw [Tally.total_eq_massWhere, massWhere_marginal]
  refine Tally.massWhere_congr fun outcome _ => ?_
  rw [← Outcome.isSome_values?_iff, Option.isSome_iff_exists]
  simp only [and_true, Option.mem_def]

variable {distribution qubits} in
/-- If all outcomes have the qubits of a marginal, it sums to the total. -/
theorem total_marginal_of_measured
    (measured : ∀ outcome ∈ distribution.keys, ∀ qubit ∈ qubits,
      (outcome.bit? qubit).isSome) :
    (distribution.marginal qubits).total = distribution.total := by
  rw [total_marginal, Tally.total_eq_massWhere]
  exact Tally.massWhere_congr fun outcome member => iff_true_intro (measured outcome member)

end Marginal

/-- Marginals are consistent: if all outcomes have values for the given
qubits, the marginal of selected ones, in any order and with repetitions,
sums the masses of the keys that select to the same key. -/
theorem marginals_consistent
    {distribution : Distribution ℝ}
    {qubits : List Qubit}
    (measured : ∀ outcome ∈ distribution.keys, ∀ qubit ∈ qubits,
      (outcome.bit? qubit).isSome)
    (positions : List Nat) :
    (∀ whole ∈ (distribution.marginal qubits).keys, whole.length = qubits.length) ∧
    (∀ values, values ∈ (distribution.marginal (selectAt positions qubits)).keys ↔
      ∃ whole ∈ (distribution.marginal qubits).keys,
        selectAt positions whole = values) ∧
    (∀ values, (distribution.marginal (selectAt positions qubits)).mass values =
      (distribution.marginal qubits).massWhere fun whole =>
        selectAt positions whole = values) ∧
    (distribution.marginal qubits).total = distribution.total ∧
    (distribution.marginal (selectAt positions qubits)).total = distribution.total ∧
    ∀ others, (distribution.marginal others).total =
      distribution.massWhere fun outcome =>
        ∀ qubit ∈ others, (outcome.bit? qubit).isSome := by
  -- Every outcome has values for all qubits, and the values of the selected qubits are
  -- selected from them.
  have known : ∀ outcome ∈ distribution.keys, ∃ whole,
      outcome.values? qubits = some whole ∧
      outcome.values? (selectAt positions qubits) = some (selectAt positions whole) := by
    intro outcome member
    obtain ⟨whole, value⟩ := Option.isSome_iff_exists.1
      (Outcome.isSome_values?_iff.2 (measured outcome member))
    exact ⟨whole, value, Outcome.values?_selectAt value positions⟩
  refine ⟨fun whole member => ?_, fun values => ?_, fun values => ?_,
    total_marginal_of_measured measured, ?_, distribution.total_marginal⟩
  · obtain ⟨outcome, _, value⟩ := mem_keys_marginal.1 member
    have lengths := congrArg List.length (Outcome.values?_eq_some_iff.1 value)
    rw [List.length_map, List.length_map] at lengths
    exact lengths.symm
  · rw [mem_keys_marginal]
    constructor
    · rintro ⟨outcome, member, selected⟩
      obtain ⟨whole, value, selects⟩ := known outcome member
      exact ⟨whole, mem_keys_marginal.2 ⟨outcome, member, value⟩,
        Option.some.inj (selects.symm.trans selected)⟩
    · rintro ⟨whole, member, rfl⟩
      obtain ⟨outcome, inside, value⟩ := mem_keys_marginal.1 member
      exact ⟨outcome, inside, Outcome.values?_selectAt value positions⟩
  · rw [Tally.mass_eq_massWhere, massWhere_marginal, massWhere_marginal]
    refine Tally.massWhere_congr fun outcome member => ?_
    obtain ⟨whole, value, selects⟩ := known outcome member
    simp only [value, selects, Option.mem_some_iff, exists_eq_left']
  · exact total_marginal_of_measured fun outcome member qubit selected =>
      measured outcome member qubit (mem_of_mem_selectAt selected)

/-- The frequencies of four samples of two qubits that are never both zero. -/
noncomputable def neverBothZero : Distribution ℝ :=
  ofSamples
    [⟨[(0, 0), (1, 1)]⟩, ⟨[(0, 1), (1, 0)]⟩, ⟨[(0, 1), (1, 1)]⟩, ⟨[(0, 1), (1, 1)]⟩]

/-- The second qubit is one in two of the three outcomes, and its mass is read off the
marginal of both qubits. -/
theorem marginals_consistent_neverBothZero :
    (∀ outcome ∈ neverBothZero.keys, ∀ qubit ∈ [0, 1], (outcome.bit? qubit).isSome) ∧
    (neverBothZero.marginal [1, 1]).mass [1, 1] = 3 / 4 ∧
    (neverBothZero.marginal [1, 1]).total = 1 := by
  have measured : ∀ outcome ∈ neverBothZero.keys, ∀ qubit ∈ [0, 1],
      (outcome.bit? qubit).isSome := by
    decide
  obtain ⟨_, _, masses, _, total, _⟩ := marginals_consistent measured [1, 1]
  refine ⟨measured, (masses [1, 1]).trans ?_, total.trans ?_⟩
  · rw [massWhere_marginal]
    change ([0 + 1 / (4 : Nat), 0 + 1 / (4 : Nat) + 1 / (4 : Nat)] : List ℝ).sum = 3 / 4
    norm_num
  · rw [Tally.total, Scalar.sum_real]
    change ([0 + 1 / (4 : Nat), 0 + 1 / (4 : Nat),
      0 + 1 / (4 : Nat) + 1 / (4 : Nat)] : List ℝ).sum = 1
    norm_num

end Distribution

end MeasurementCalculus
