import MeasurementCalculus.Proofs.Legality
import MeasurementCalculus.Proofs.Wave.Register

/-!
# Paths

A path chooses a bit for every qubit. Along a path, a pattern has a meaning
that needs no run: every command acts on a wave by a linear map, a measurement
by the projector onto the state that its bit selects, and nothing is divided
by a norm. The ratio of the squared norms after and before a measurement is
the conditional probability of its bit.
-/

namespace MeasurementCalculus

open Function (update)

namespace Signals

/-- The sum modulo two of the bits that a path chooses for the listed qubits. -/
def under
    (bits : Qubit → Bool)
    (signals : Signals) : Bool :=
  signals.parity fun qubit => (bits qubit).toUInt8

@[simp] theorem under_nil (bits : Qubit → Bool) :
    under bits [] = false := rfl

@[simp] theorem isOdd_toUInt8 (bit : Bool) : isOdd bit.toUInt8 = bit := by
  cases bit <;> rfl

@[simp] theorem under_cons
    (bits : Qubit → Bool)
    (qubit : Qubit)
    (rest : Signals) :
    under bits (qubit :: rest) = (bits qubit ^^ under bits rest) := by
  rw [under, parity_cons, isOdd_toUInt8]
  rfl

/-- The parity of signals depends on the values of their qubits alone. -/
theorem parity_congr
    {first second : Qubit → UInt8}
    {signals : Signals}
    (agree : ∀ qubit ∈ signals, first qubit = second qubit) :
    parity first signals = parity second signals := by
  induction signals with
  | nil => rfl
  | cons qubit rest inductionHypothesis =>
      rw [parity_cons, parity_cons, agree qubit List.mem_cons_self,
        inductionHypothesis fun other member =>
          agree other (List.mem_cons_of_mem _ member)]

theorem under_congr
    {first second : Qubit → Bool}
    {signals : Signals}
    (agree : ∀ qubit ∈ signals, first qubit = second qubit) :
    under first signals = under second signals :=
  parity_congr fun qubit member => congrArg Bool.toUInt8 (agree qubit member)

@[simp] theorem under_merge
    (bits : Qubit → Bool)
    (first second : Signals) :
    under bits (merge first second) =
      (under bits first ^^ under bits second) :=
  parity_merge _ first second

end Signals

namespace Wave

variable {n : Nat}

/-! ## Operations at numbered qubits -/

/-- Apply a matrix to the qubit with the given number, if there is one. -/
def gateAt
    (qubit : Qubit)
    (matrix : GateMatrix)
    (wave : Wave n) : Wave n :=
  if inside : qubit < n then wave.gate ⟨qubit, inside⟩ matrix else wave

/-- Apply a controlled-Z to the qubits with the given numbers, if there are such
qubits. -/
def controlledZAt
    (first second : Qubit)
    (wave : Wave n) : Wave n :=
  if inside : first < n ∧ second < n then
    wave.controlledZ ⟨first, inside.1⟩ ⟨second, inside.2⟩
  else wave

@[simp] theorem gateAt_val
    (qubit : Fin n)
    (matrix : GateMatrix)
    (wave : Wave n) :
    gateAt qubit.val matrix wave = gate qubit matrix wave :=
  dif_pos qubit.isLt

@[simp] theorem controlledZAt_val
    (first second : Fin n)
    (wave : Wave n) :
    controlledZAt first.val second.val wave = controlledZ first second wave :=
  dif_pos ⟨first.isLt, second.isLt⟩

@[simp] theorem gateAt_one
    (qubit : Qubit)
    (wave : Wave n) :
    gateAt qubit 1 wave = wave := by
  unfold gateAt
  split
  · exact gate_one _ wave
  · rfl

theorem gateAt_gateAt
    (qubit : Qubit)
    (second first : GateMatrix)
    {wave : Wave n}
    (inside : qubit < n) :
    gateAt qubit second (gateAt qubit first wave) =
      gateAt qubit (second * first) wave := by
  lift qubit to Fin n using inside
  simp only [gateAt_val, gate_gate]

/-- Two applications of an involution cancel. -/
theorem gateAt_gateAt_self
    (qubit : Qubit)
    {matrix : GateMatrix}
    (involution : matrix * matrix = 1)
    (wave : Wave n) :
    gateAt qubit matrix (gateAt qubit matrix wave) = wave := by
  by_cases inside : qubit < n
  · rw [gateAt_gateAt _ _ _ inside, involution, gateAt_one]
  · simp only [gateAt, dif_neg inside]

theorem gateAt_comm
    {first second : Qubit}
    (different : first ≠ second)
    (firstMatrix secondMatrix : GateMatrix)
    (wave : Wave n) :
    gateAt first firstMatrix (gateAt second secondMatrix wave) =
      gateAt second secondMatrix (gateAt first firstMatrix wave) := by
  unfold gateAt
  split
  · split
    · exact gate_comm (fun same => different (Fin.mk.inj same)) _ _ wave
    · rfl
  · rfl

theorem gateAt_smul
    (qubit : Qubit)
    (matrix : GateMatrix)
    (factor : ℂ)
    (wave : Wave n) :
    gateAt qubit matrix (factor • wave) = factor • gateAt qubit matrix wave := by
  unfold gateAt
  split
  · exact gate_smul _ matrix factor wave
  · rfl

theorem normSq_gateAt_of_unitary
    (qubit : Qubit)
    {matrix : GateMatrix}
    (unitary : matrix.conjTranspose * matrix = 1)
    (wave : Wave n) :
    (gateAt qubit matrix wave).normSq = wave.normSq := by
  unfold gateAt
  split
  · exact normSq_gate_of_unitary _ unitary wave
  · rfl

theorem controlledZAt_smul
    (first second : Qubit)
    (factor : ℂ)
    (wave : Wave n) :
    controlledZAt first second (factor • wave) =
      factor • controlledZAt first second wave := by
  unfold controlledZAt
  split
  · exact controlledZ_smul _ _ factor wave
  · rfl

theorem normSq_controlledZAt
    (first second : Qubit)
    (wave : Wave n) :
    (controlledZAt first second wave).normSq = wave.normSq := by
  unfold controlledZAt
  split
  · exact normSq_controlledZ _ _ wave
  · rfl

theorem controlledZAt_symm
    (first second : Qubit)
    (wave : Wave n) :
    controlledZAt first second wave = controlledZAt second first wave := by
  unfold controlledZAt
  simp only [and_comm (a := second < n)]
  split
  · funext digits
    rw [controlledZ_apply, controlledZ_apply, Bool.and_comm]
  · rfl

/-- Two applications of a controlled-Z cancel. -/
theorem controlledZAt_controlledZAt_self
    (first second : Qubit)
    (wave : Wave n) :
    controlledZAt first second (controlledZAt first second wave) = wave := by
  unfold controlledZAt
  split
  · funext digits
    rw [controlledZ_apply, controlledZ_apply]
    split
    · exact neg_neg _
    · rfl
  · rfl

theorem controlledZAt_gateAt
    {first second qubit : Qubit}
    (firstDifferent : qubit ≠ first)
    (secondDifferent : qubit ≠ second)
    (matrix : GateMatrix)
    (wave : Wave n) :
    controlledZAt first second (gateAt qubit matrix wave) =
      gateAt qubit matrix (controlledZAt first second wave) := by
  unfold gateAt controlledZAt
  split
  · split
    · exact controlledZ_gate (fun same => firstDifferent (Fin.mk.inj same))
        (fun same => secondDifferent (Fin.mk.inj same)) matrix wave
    · rfl
  · rfl

theorem controlledZAt_comm
    (first second third fourth : Qubit)
    (wave : Wave n) :
    controlledZAt first second (controlledZAt third fourth wave) =
      controlledZAt third fourth (controlledZAt first second wave) := by
  unfold controlledZAt
  split
  · split
    · exact controlledZ_comm _ _ _ _ wave
    · rfl
  · rfl

/-- A controlled-Z commutes with every Z. -/
theorem controlledZAt_pauliZ
    (first second qubit : Qubit)
    (fires : Bool)
    (wave : Wave n) :
    controlledZAt first second (gateAt qubit (.onlyIf fires .pauliZ) wave) =
      gateAt qubit (.onlyIf fires .pauliZ) (controlledZAt first second wave) := by
  unfold gateAt controlledZAt
  split
  · split
    · exact controlledZ_pauliZ _ _ _ fires wave
    · rfl
  · rfl

/-! ## The action of commands -/

/-- The linear map by which a command acts along a path: a controlled-Z, a Pauli
operation when the parity of its signals is odd, or the projector onto the state
that the bit of the measured qubit selects at the effective angle. -/
noncomputable def act
    (bits : Qubit → Bool)
    (command : Command ℝ)
    (wave : Wave n) : Wave n :=
  match command with
  | .entangle first second => wave.controlledZAt first second
  | .measure qubit angle s t =>
      wave.gateAt qubit <| .projector <|
        equatorialKet (turnedAngle angle (s.under bits) (t.under bits))
          (bits qubit)
  | .correctX qubit signals =>
      wave.gateAt qubit (.onlyIf (signals.under bits) .pauliX)
  | .correctZ qubit signals =>
      wave.gateAt qubit (.onlyIf (signals.under bits) .pauliZ)

theorem act_smul
    (bits : Qubit → Bool)
    (command : Command ℝ)
    (factor : ℂ)
    (wave : Wave n) :
    act bits command (factor • wave) = factor • act bits command wave := by
  cases command with
  | entangle first second => exact controlledZAt_smul first second factor wave
  | measure qubit angle s t => exact gateAt_smul qubit _ factor wave
  | correctX qubit signals => exact gateAt_smul qubit _ factor wave
  | correctZ qubit signals => exact gateAt_smul qubit _ factor wave

/-- Only measurements change the norm. -/
theorem normSq_act
    (bits : Qubit → Bool)
    {command : Command ℝ}
    (noMeasure : command.measured? = none)
    (wave : Wave n) :
    (act bits command wave).normSq = wave.normSq := by
  cases command with
  | entangle first second => exact normSq_controlledZAt first second wave
  | measure qubit angle s t => cases noMeasure
  | correctX qubit signals =>
      exact normSq_gateAt_of_unitary qubit
        (GateMatrix.onlyIf_unitary GateMatrix.pauliX_unitary _) wave
  | correctZ qubit signals =>
      exact normSq_gateAt_of_unitary qubit
        (GateMatrix.onlyIf_unitary GateMatrix.pauliZ_unitary _) wave

/-- A command reads no other bits than those of its signals and of the qubit that
it measures. -/
theorem act_congr
    {first second : Qubit → Bool}
    {command : Command ℝ}
    (signals : ∀ qubit ∈ command.signals, first qubit = second qubit)
    (measured : ∀ qubit ∈ command.measured?, first qubit = second qubit)
    (wave : Wave n) :
    act first command wave = act second command wave := by
  cases command with
  | entangle _ _ => rfl
  | measure qubit angle s t =>
      have flipped : s.under first = s.under second :=
        Signals.under_congr fun signal member =>
          signals signal (List.mem_append_left t member)
      have shifted : t.under first = t.under second :=
        Signals.under_congr fun signal member =>
          signals signal (List.mem_append_right s member)
      rw [act, act, flipped, shifted, measured qubit rfl]
  | correctX qubit list =>
      have odd : list.under first = list.under second :=
        Signals.under_congr signals
      rw [act, act, odd]
  | correctZ qubit list =>
      have odd : list.under first = list.under second :=
        Signals.under_congr signals
      rw [act, act, odd]

/-- A command commutes with the gates of qubits that it does not act on. -/
theorem act_gateAt
    (bits : Qubit → Bool)
    {qubit : Qubit}
    {command : Command ℝ}
    (apart : qubit ∉ command.targets)
    (matrix : GateMatrix)
    (wave : Wave n) :
    act bits command (gateAt qubit matrix wave) =
      gateAt qubit matrix (act bits command wave) := by
  cases command with
  | entangle first second =>
      rw [Command.targets_entangle, List.mem_cons, List.mem_singleton, not_or]
        at apart
      exact controlledZAt_gateAt apart.1 apart.2 matrix wave
  | measure target angle s t =>
      have different : target ≠ qubit := by
        simpa [eq_comm] using apart
      exact gateAt_comm different _ matrix wave
  | correctX target signals =>
      have different : target ≠ qubit := by
        simpa [eq_comm] using apart
      exact gateAt_comm different _ matrix wave
  | correctZ target signals =>
      have different : target ≠ qubit := by
        simpa [eq_comm] using apart
      exact gateAt_comm different _ matrix wave

/-- Along paths that differ in the bit of the measured qubit, a measurement
projects onto different states at the same angle. -/
theorem act_measure_update
    (bits : Qubit → Bool)
    {qubit : Qubit}
    {s t : Signals}
    (apart : ∀ signal ∈ s ++ t, signal ≠ qubit)
    (angle : ℝ)
    (outcome : Bool)
    (wave : Wave n) :
    act (update bits qubit outcome) (.measure qubit angle s t) wave =
      wave.gateAt qubit (.projector (equatorialKet
        (turnedAngle angle (s.under bits) (t.under bits)) outcome)) := by
  have flipped : s.under (update bits qubit outcome) = s.under bits :=
    Signals.under_congr fun signal member =>
      Function.update_of_ne (apart signal (List.mem_append_left t member)) _ _
  have shifted : t.under (update bits qubit outcome) = t.under bits :=
    Signals.under_congr fun signal member =>
      Function.update_of_ne (apart signal (List.mem_append_right s member)) _ _
  rw [act, flipped, shifted, Function.update_self]

/-- The two outcomes of a measurement share out the squared norm. -/
theorem normSq_act_measure_add
    (bits : Qubit → Bool)
    {qubit : Qubit}
    {s t : Signals}
    (apart : ∀ signal ∈ s ++ t, signal ≠ qubit)
    (inside : qubit < n)
    (angle : ℝ)
    (wave : Wave n) :
    (act (update bits qubit false) (.measure qubit angle s t) wave).normSq +
        (act (update bits qubit true) (.measure qubit angle s t) wave).normSq =
      wave.normSq := by
  lift qubit to Fin n using inside
  rw [act_measure_update bits apart, act_measure_update bits apart, gateAt_val,
    gateAt_val, normSq_project_false_add_true]

/-- A measurement does not increase the norm. -/
theorem normSq_act_measure_le
    (bits : Qubit → Bool)
    {qubit : Qubit}
    {s t : Signals}
    (apart : ∀ signal ∈ s ++ t, signal ≠ qubit)
    (inside : qubit < n)
    (angle : ℝ)
    (wave : Wave n) :
    (act bits (.measure qubit angle s t) wave).normSq ≤ wave.normSq := by
  have total := normSq_act_measure_add bits apart inside angle wave
  have same := Function.update_eq_self qubit bits
  cases bit : bits qubit with
  | false =>
      rw [bit] at same
      rw [same] at total
      rw [← total]
      exact le_add_of_nonneg_right (normSq_nonneg _)
  | true =>
      rw [bit] at same
      rw [same] at total
      rw [← total]
      exact le_add_of_nonneg_left (normSq_nonneg _)

/-! ## The wave along a path -/

/-- The wave after the commands of a path, without any normalization. -/
noncomputable def follow
    (bits : Qubit → Bool)
    (commands : List (Command ℝ))
    (wave : Wave n) : Wave n :=
  commands.foldl (fun current command => act bits command current) wave

@[simp] theorem follow_nil
    (bits : Qubit → Bool)
    (wave : Wave n) :
    follow bits [] wave = wave := rfl

@[simp] theorem follow_cons
    (bits : Qubit → Bool)
    (command : Command ℝ)
    (rest : List (Command ℝ))
    (wave : Wave n) :
    follow bits (command :: rest) wave =
      follow bits rest (act bits command wave) := rfl

@[simp] theorem follow_append
    (bits : Qubit → Bool)
    (first second : List (Command ℝ))
    (wave : Wave n) :
    follow bits (first ++ second) wave =
      follow bits second (follow bits first wave) :=
  List.foldl_append

/-- The conditional probabilities of the bits of a path, one for each measurement:
the squared norm after the measurement divided by the one before. -/
noncomputable def conditionals
    (bits : Qubit → Bool) : List (Command ℝ) → Wave n → List ℝ
  | [], _ => []
  | command :: rest, wave =>
      let next := act bits command wave
      if command.isMeasure then
        next.normSq / wave.normSq :: conditionals bits rest next
      else conditionals bits rest next

@[simp] theorem conditionals_nil
    (bits : Qubit → Bool)
    (wave : Wave n) :
    conditionals bits [] wave = [] := rfl

theorem conditionals_cons
    (bits : Qubit → Bool)
    (command : Command ℝ)
    (rest : List (Command ℝ))
    (wave : Wave n) :
    conditionals bits (command :: rest) wave =
      conditionals bits [command] wave ++
        conditionals bits rest (act bits command wave) := by
  cases command <;> rfl

@[simp] theorem conditionals_append
    (bits : Qubit → Bool)
    (first second : List (Command ℝ))
    (wave : Wave n) :
    conditionals bits (first ++ second) wave =
      conditionals bits first wave ++
        conditionals bits second (follow bits first wave) := by
  induction first generalizing wave with
  | nil => rfl
  | cons command rest inductionHypothesis =>
      rw [List.cons_append, conditionals_cons, inductionHypothesis,
        conditionals_cons bits command rest, follow_cons, List.append_assoc]

/-- Every measurement has a conditional probability. -/
theorem length_conditionals
    (bits : Qubit → Bool)
    (commands : List (Command ℝ))
    (wave : Wave n) :
    (conditionals bits commands wave).length = (Command.measuredBy commands).length := by
  induction commands generalizing wave with
  | nil => rfl
  | cons command rest inductionHypothesis =>
      rw [conditionals_cons, List.length_append, inductionHypothesis,
        Command.measuredBy_cons, List.length_append]
      cases command with
      | entangle first second => rfl
      | measure qubit angle s t => rfl
      | correctX qubit signals => rfl
      | correctZ qubit signals => rfl

/-- A conditional probability belongs to a measurement at some position. -/
theorem exists_of_mem_conditionals
    {bits : Qubit → Bool}
    {commands : List (Command ℝ)}
    {wave : Wave n}
    {share : ℝ}
    (member : share ∈ conditionals bits commands wave) :
    ∃ (index : Nat) (qubit : Qubit) (angle : ℝ) (s t : Signals),
      commands[index]? = some (.measure qubit angle s t) ∧
      share = (act bits (.measure qubit angle s t)
          (follow bits (commands.take index) wave)).normSq /
        (follow bits (commands.take index) wave).normSq := by
  induction commands generalizing wave with
  | nil => cases member
  | cons command rest inductionHypothesis =>
      rw [conditionals_cons, List.mem_append] at member
      rcases member with here | later
      · cases command with
        | measure qubit angle s t =>
            exact ⟨0, qubit, angle, s, t, rfl, List.mem_singleton.1 here⟩
        | entangle first second => cases here
        | correctX qubit signals => cases here
        | correctZ qubit signals => cases here
      · obtain ⟨index, qubit, angle, s, t, there, value⟩ := inductionHypothesis later
        exact ⟨index + 1, qubit, angle, s, t, there, value⟩

/-- The conditional probability of a measurement depends on the norms before and
after it alone. -/
theorem conditionals_singleton_congr
    (bits : Qubit → Bool)
    {first second : Command ℝ}
    (sameKind : first.isMeasure = second.isMeasure)
    {firstWave secondWave : Wave n}
    (before : firstWave.normSq = secondWave.normSq)
    (after : (act bits first firstWave).normSq =
      (act bits second secondWave).normSq) :
    conditionals bits [first] firstWave =
      conditionals bits [second] secondWave := by
  rw [conditionals, conditionals, sameKind, before, after]
  rfl

/-- Commands that measure nothing keep the norm and have no conditional
probabilities. -/
theorem normSq_follow
    (bits : Qubit → Bool)
    {commands : List (Command ℝ)}
    (noMeasure : Command.measuredBy commands = [])
    (wave : Wave n) :
    (follow bits commands wave).normSq = wave.normSq ∧
      conditionals bits commands wave = [] := by
  induction commands generalizing wave with
  | nil => exact ⟨rfl, rfl⟩
  | cons command rest inductionHypothesis =>
      rw [Command.measuredBy_cons, List.append_eq_nil_iff,
        Option.toList_eq_nil_iff] at noMeasure
      obtain ⟨sameNorm, none⟩ :=
        inductionHypothesis noMeasure.2 (act bits command wave)
      refine ⟨?_, ?_⟩
      · rw [follow_cons, sameNorm, normSq_act bits noMeasure.1]
      · rw [conditionals_cons, none, List.append_nil]
        cases command with
        | measure qubit angle s t => cases noMeasure.1
        | entangle first second => rfl
        | correctX qubit signals => rfl
        | correctZ qubit signals => rfl

/-- Commands with a single measurement have a single conditional probability, which
depends on the norms before and after all of them. -/
theorem conditionals_eq_singleton
    (bits : Qubit → Bool)
    {commands : List (Command ℝ)}
    {qubit : Qubit}
    (single : Command.measuredBy commands = [qubit])
    (wave : Wave n) :
    conditionals bits commands wave =
      [(follow bits commands wave).normSq / wave.normSq] := by
  induction commands generalizing wave with
  | nil => cases single
  | cons command rest inductionHypothesis =>
      rw [Command.measuredBy_cons] at single
      rcases command.measured?_eq_none_or with
        noMeasure | ⟨target, angle, s, t, rfl⟩
      · have noMore : Command.measuredBy [command] = [] := by
          simp [noMeasure]
        rw [noMeasure, Option.toList_none, List.nil_append] at single
        rw [conditionals_cons, (normSq_follow bits noMore wave).2,
          inductionHypothesis single, normSq_act bits noMeasure]
        rfl
      · have noMore : Command.measuredBy rest = [] := (List.cons.inj single).2
        obtain ⟨sameNorm, none⟩ := normSq_follow bits noMore
          (act bits (.measure target angle s t) wave)
        rw [conditionals_cons, none, follow_cons, sameNorm]
        rfl

/-- Commands commute with the gates of a qubit that they do not act on. -/
theorem follow_gateAt
    (bits : Qubit → Bool)
    {qubit : Qubit}
    {commands : List (Command ℝ)}
    (apart : ∀ command ∈ commands, qubit ∉ command.targets)
    (matrix : GateMatrix)
    (wave : Wave n) :
    follow bits commands (gateAt qubit matrix wave) =
      gateAt qubit matrix (follow bits commands wave) := by
  induction commands generalizing wave with
  | nil => rfl
  | cons command rest inductionHypothesis =>
      rw [List.forall_mem_cons] at apart
      rw [follow_cons, act_gateAt bits apart.1, inductionHypothesis apart.2,
        follow_cons]

/-- A unitary gate of a qubit that the commands do not act on does not change the
conditional probabilities. -/
theorem conditionals_gateAt
    (bits : Qubit → Bool)
    {qubit : Qubit}
    {commands : List (Command ℝ)}
    (apart : ∀ command ∈ commands, qubit ∉ command.targets)
    {matrix : GateMatrix}
    (unitary : matrix.conjTranspose * matrix = 1)
    (wave : Wave n) :
    conditionals bits commands (gateAt qubit matrix wave) =
      conditionals bits commands wave := by
  induction commands generalizing wave with
  | nil => rfl
  | cons command rest inductionHypothesis =>
      rw [List.forall_mem_cons] at apart
      have commutes := act_gateAt bits apart.1 matrix wave
      have sameHead : conditionals bits [command] (gateAt qubit matrix wave) =
          conditionals bits [command] wave := by
        refine conditionals_singleton_congr bits rfl
          (normSq_gateAt_of_unitary qubit unitary wave) ?_
        rw [commutes, normSq_gateAt_of_unitary qubit unitary]
      rw [conditionals_cons, sameHead, commutes, inductionHypothesis apart.2,
        ← conditionals_cons]

/-- The bits of unmeasured qubits do not matter. -/
theorem follow_congr
    {first second : Qubit → Bool}
    {width : Nat}
    {measured : List Qubit}
    {commands : List (Command ℝ)}
    (legal : Command.AllLegal width measured commands)
    (agree : ∀ qubit ∈ measured ++ Command.measuredBy commands,
      first qubit = second qubit)
    (wave : Wave n) :
    follow first commands wave = follow second commands wave ∧
      conditionals first commands wave = conditionals second commands wave := by
  induction commands generalizing measured wave with
  | nil => simp
  | cons command rest inductionHypothesis =>
      obtain ⟨head, tail⟩ := legal
      rw [Command.measuredBy_cons, ← List.append_assoc] at agree
      have step : act first command wave = act second command wave := by
        apply act_congr
        · intro qubit member
          apply agree
          simp [head.signal_mem qubit member]
        · intro qubit member
          apply agree
          simp [Option.mem_def.1 member]
      obtain ⟨sameWave, sameConditionals⟩ :=
        inductionHypothesis tail agree (act second command wave)
      refine ⟨?_, ?_⟩
      · rw [follow_cons, follow_cons, step, sameWave]
      · simp only [conditionals, step, sameConditionals]

end Wave

/-! ## Paths of patterns -/

namespace Pattern

/-- The state in which a pattern prepares a qubit. -/
noncomputable def initialState
    (pattern : Pattern ℝ)
    (qubit : Qubit) : Bool → ℂ :=
  ((pattern.declared.lookup qubit).getD .zero).state

/-- The product of the states in which a pattern prepares its qubits. -/
noncomputable def initialWave
    (n : Nat)
    (pattern : Pattern ℝ) : Wave n :=
  Wave.product fun qubit => pattern.initialState qubit.val

theorem normSq_initialWave
    (n : Nat)
    (pattern : Pattern ℝ) :
    (pattern.initialWave n).normSq = 1 :=
  Wave.normSq_product fun _ => Ket.isUnitKet_state _

end Pattern

end MeasurementCalculus
