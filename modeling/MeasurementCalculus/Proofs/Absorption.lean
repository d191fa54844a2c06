import MeasurementCalculus.Proofs.Factor
import MeasurementCalculus.StandardForm

/-!
# Absorbing corrections into measurements

A measurement that follows corrections of its qubit gives the same
probabilities as a measurement at the angle that absorbs them, and leaves the
corrections on the measured qubit, where nothing is affected by them. So along
every path, settled commands have the same conditional probabilities as the
commands they come from, and the waves at the end differ by unitary gates on
measured qubits.
-/

namespace MeasurementCalculus

namespace Signals

theorem mem_of_mem_foldl_toggle
    {member : Qubit}
    {odd signals : Signals}
    (inside : member ∈ signals.foldl (fun odd qubit => toggle qubit odd) odd) :
    member ∈ odd ∨ member ∈ signals := by
  induction signals generalizing odd with
  | nil => exact .inl inside
  | cons qubit rest inductionHypothesis =>
      rcases inductionHypothesis inside with toggled | later
      · rcases mem_of_mem_toggle toggled with rfl | old
        · exact .inr List.mem_cons_self
        · exact .inl old
      · exact .inr (List.mem_cons_of_mem _ later)

/-- Merging does not invent signals. -/
theorem mem_of_mem_merge
    {member : Qubit}
    {first second : Signals}
    (inside : member ∈ merge first second) :
    member ∈ first ∨ member ∈ second := by
  rcases mem_of_mem_foldl_toggle inside with empty | either
  · cases empty
  · exact List.mem_append.1 either

theorem mem_of_mem_foldl_merge
    {member : Qubit}
    {signals : Signals}
    {lists : List Signals}
    (inside : member ∈ lists.foldl merge signals) :
    member ∈ signals ∨ ∃ list ∈ lists, member ∈ list := by
  induction lists generalizing signals with
  | nil => exact .inl inside
  | cons list rest inductionHypothesis =>
      rcases inductionHypothesis inside with merged | ⟨other, there, later⟩
      · rcases mem_of_mem_merge merged with old | new
        · exact .inl old
        · exact .inr ⟨list, List.mem_cons_self, new⟩
      · exact .inr ⟨other, List.mem_cons_of_mem _ there, later⟩

/-- Signals that cancel have an even parity under all outcomes. -/
theorem parity_of_cancels
    {signals : Signals}
    (cancel : signals.cancels = true)
    (lookup : Qubit → UInt8) :
    parity lookup signals = false := by
  rw [← parity_canonical, List.isEmpty_iff.1 cancel, parity_nil]

end Signals

namespace StandardForm

open Command

variable {R : Type}

/-! ## Settled commands are legal -/

theorem measured?_of_isCorrection
    {command : Command R}
    (correction : command.isCorrection = true) :
    command.measured? = none := by
  cases command with
  | measure qubit angle s t => cases correction
  | entangle first second => rfl
  | correctX qubit signals => rfl
  | correctZ qubit signals => rfl

theorem reading?_of_isCorrection
    {command : Command R}
    (correction : command.isCorrection = true) :
    command.reading? = none := by
  cases command with
  | measure qubit angle s t => cases correction
  | entangle first second => rfl
  | correctX qubit signals => rfl
  | correctZ qubit signals => rfl

theorem readings_of_isCorrection
    {commands : List (Command R)}
    (corrections : ∀ command ∈ commands, command.isCorrection = true) :
    readings commands = [] := by
  rw [readings, List.filterMap_eq_nil_iff]
  exact fun command member => reading?_of_isCorrection (corrections command member)

theorem measuredBy_of_isCorrection
    {commands : List (Command R)}
    (corrections : ∀ command ∈ commands, command.isCorrection = true) :
    measuredBy commands = [] := by
  rw [measuredBy_eq_map_readings, readings_of_isCorrection corrections, List.map_nil]

/-- A correction acts on a qubit exactly if this is its only target. -/
theorem corrects_iff
    {command : Command R}
    (correction : command.isCorrection = true)
    (qubit : Qubit) :
    corrects qubit command = true ↔ command.targets = [qubit] := by
  cases command with
  | entangle first second => cases correction
  | measure target angle s t => cases correction
  | correctX target signals => simp [corrects, signalsX?, signalsZ?]
  | correctZ target signals => simp [corrects, signalsX?, signalsZ?]

theorem targets_of_corrects
    {qubit : Qubit}
    {command : Command R}
    (onQubit : corrects qubit command = true) :
    command.targets = [qubit] := by
  cases command with
  | entangle first second => cases onQubit
  | measure target angle s t => cases onQubit
  | correctX target signals => exact (corrects_iff rfl qubit).1 onQubit
  | correctZ target signals => exact (corrects_iff rfl qubit).1 onQubit

theorem signals_of_signalsX?
    {qubit : Qubit}
    {command : Command R}
    {list : Signals}
    (absorbed : signalsX? qubit command = some list) :
    command.signals = list := by
  cases command with
  | correctX target signals =>
      rw [signalsX?] at absorbed
      split at absorbed
      · exact Option.some.inj absorbed
      · cases absorbed
  | correctZ target signals => cases absorbed
  | entangle first second => cases absorbed
  | measure target angle s t => cases absorbed

theorem signals_of_signalsZ?
    {qubit : Qubit}
    {command : Command R}
    {list : Signals}
    (absorbed : signalsZ? qubit command = some list) :
    command.signals = list := by
  cases command with
  | correctZ target signals =>
      rw [signalsZ?] at absorbed
      split at absorbed
      · exact Option.some.inj absorbed
      · cases absorbed
  | correctX target signals => cases absorbed
  | entangle first second => cases absorbed
  | measure target angle s t => cases absorbed

theorem settleFrom_correction
    (pending : List (Command R))
    {command : Command R}
    (correction : command.isCorrection = true)
    (rest : List (Command R)) :
    settleFrom pending (command :: rest) =
      settleFrom (command :: pending) rest := by
  cases command with
  | entangle first second => cases correction
  | measure qubit angle s t => cases correction
  | correctX qubit signals => rfl
  | correctZ qubit signals => rfl

theorem settleFrom_measure
    (pending : List (Command R))
    (qubit : Qubit)
    (angle : R)
    (s t : Signals)
    (rest : List (Command R)) :
    settleFrom pending (.measure qubit angle s t :: rest) =
      .measure qubit angle
          ((pending.filterMap (signalsX? qubit)).foldl Signals.merge s)
          ((pending.filterMap (signalsZ? qubit)).foldl Signals.merge t) ::
        settleFrom
          (pending.filter fun correction => !corrects qubit correction) rest :=
  rfl

/-- Settling keeps the measured qubits with their angles and their order. -/
theorem readings_settleFrom
    {pending : List (Command R)}
    (corrections : ∀ command ∈ pending, command.isCorrection = true)
    (commands : List (Command R)) :
    readings (settleFrom pending commands) = readings commands := by
  induction commands generalizing pending with
  | nil =>
      refine readings_of_isCorrection fun command member => ?_
      exact corrections command
        (List.mem_filter.1 (List.mem_reverse.1 member)).1
  | cons command rest inductionHypothesis =>
      rcases command.isCorrection_or with
        correction | ⟨first, second, rfl⟩ | ⟨qubit, angle, s, t, rfl⟩
      · rw [settleFrom_correction pending correction, readings_cons,
          reading?_of_isCorrection correction]
        exact inductionHypothesis
          (List.forall_mem_cons.2 ⟨correction, corrections⟩)
      · rw [settleFrom, readings_cons, readings_cons,
          inductionHypothesis corrections]
      · rw [settleFrom, readings_cons, readings_cons,
          inductionHypothesis fun command member =>
            corrections command (List.mem_filter.1 member).1]
        rfl

/-- What holds for the signals of a measurement and of all pending commands holds for the
signals that are merged from them. -/
theorem forall_mem_merged
    {property : Qubit → Prop}
    {view : Command R → Option Signals}
    (shown : ∀ {command list}, view command = some list → command.signals = list)
    {signals : Signals}
    (own : ∀ signal ∈ signals, property signal)
    {pending : List (Command R)}
    (others : ∀ command ∈ pending, ∀ signal ∈ command.signals, property signal) :
    ∀ signal ∈ (pending.filterMap view).foldl Signals.merge signals, property signal := by
  intro signal member
  rcases Signals.mem_of_mem_foldl_merge member with inside | ⟨list, there, inside⟩
  · exact own signal inside
  · obtain ⟨command, isPending, absorbed⟩ := List.mem_filterMap.1 there
    rw [← shown absorbed] at inside
    exact others command isPending signal inside

/-- A measurement that absorbs legal corrections is legal. -/
theorem legal_absorb
    {width : Nat}
    {measured : List Qubit}
    {pending : List (Command R)}
    (legalPending : ∀ command ∈ pending, command.Legal width measured)
    {qubit : Qubit}
    {angle : R}
    {s t : Signals}
    (legal : (measure qubit angle s t).Legal width measured) :
    (measure qubit angle
      ((pending.filterMap (signalsX? qubit)).foldl Signals.merge s)
      ((pending.filterMap (signalsZ? qubit)).foldl Signals.merge t)).Legal
        width measured where
  target_lt := legal.target_lt
  target_notMem := legal.target_notMem
  targets_nodup := legal.targets_nodup
  signal_mem := by
    obtain ⟨legalS, legalT⟩ := List.forall_mem_append.1 legal.signal_mem
    have others (command : Command R) (isPending : command ∈ pending) :=
      (legalPending command isPending).signal_mem
    exact List.forall_mem_append.2
      ⟨forall_mem_merged signals_of_signalsX? legalS others,
        forall_mem_merged signals_of_signalsZ? legalT others⟩

/-- A legal correction stays legal when another qubit is measured. -/
theorem legal_of_not_corrects
    {width : Nat}
    {measured : List Qubit}
    {command : Command R}
    (legal : command.Legal width measured)
    (correction : command.isCorrection = true)
    {qubit : Qubit}
    (apart : corrects qubit command = false) :
    command.Legal width (measured ++ [qubit]) where
  target_lt := legal.target_lt
  target_notMem := by
    intro target member inside
    rcases List.mem_append.1 inside with earlier | new
    · exact legal.target_notMem target member earlier
    · rw [List.mem_singleton.1 new] at member
      have only : command.targets = [qubit] := by
        cases command with
        | entangle first second => cases correction
        | measure other angle s t => cases correction
        | correctX other signals => rw [List.mem_singleton.1 member]; rfl
        | correctZ other signals => rw [List.mem_singleton.1 member]; rfl
      rw [(corrects_iff correction qubit).2 only] at apart
      cases apart
  targets_nodup := legal.targets_nodup
  signal_mem := fun signal member =>
    List.mem_append_left _ (legal.signal_mem signal member)

/-- Settled commands are legal. -/
theorem allLegal_settleFrom
    {width : Nat}
    {measured : List Qubit}
    {pending : List (Command R)}
    (corrections : ∀ command ∈ pending, command.isCorrection = true)
    (legalPending : ∀ command ∈ pending, command.Legal width measured)
    {commands : List (Command R)}
    (legal : AllLegal width measured commands) :
    AllLegal width measured (settleFrom pending commands) := by
  induction commands generalizing measured pending with
  | nil =>
      refine (allLegal_iff_forall (measuredBy_of_isCorrection ?_)).2 ?_
      · intro command member
        exact corrections command
          (List.mem_filter.1 (List.mem_reverse.1 member)).1
      · intro command member
        exact legalPending command
          (List.mem_filter.1 (List.mem_reverse.1 member)).1
  | cons command rest inductionHypothesis =>
      obtain ⟨head, tail⟩ := legal
      rcases command.isCorrection_or with
        correction | ⟨first, second, rfl⟩ | ⟨qubit, angle, s, t, rfl⟩
      · rw [measuredAfter_of_none (measured?_of_isCorrection correction)] at tail
        rw [settleFrom_correction pending correction]
        exact inductionHypothesis
          (List.forall_mem_cons.2 ⟨correction, corrections⟩)
          (List.forall_mem_cons.2 ⟨head, legalPending⟩) tail
      · rw [measuredAfter_of_none rfl] at tail
        rw [settleFrom, allLegal_cons, measuredAfter_of_none rfl]
        exact ⟨head, inductionHypothesis corrections legalPending tail⟩
      · rw [settleFrom]
        refine ⟨legal_absorb legalPending head, inductionHypothesis ?_ ?_ tail⟩
        · intro command member
          exact corrections command (List.mem_filter.1 member).1
        · intro command member
          obtain ⟨isPending, apart⟩ := List.mem_filter.1 member
          exact legal_of_not_corrects (legalPending command isPending)
            (corrections command isPending) (by simpa using apart)

/-! ## Settling along a path -/

section Path

variable {n : Nat} (bits : Qubit → Bool)

/-- The Pauli matrix that a correction applies along a path. -/
def pauli : Command ℝ → GateMatrix
  | .correctX _ signals => .onlyIf (signals.under bits) .pauliX
  | .correctZ _ signals => .onlyIf (signals.under bits) .pauliZ
  | _ => 1

/-- The product of the Pauli matrices that the pending corrections apply to a
qubit. -/
def frame (qubit : Qubit) (pending : List (Command ℝ)) : GateMatrix :=
  ((pending.filter (corrects qubit)).map (pauli bits)).prod

theorem frame_cons_of_corrects
    {qubit : Qubit}
    {command : Command ℝ}
    (onQubit : corrects qubit command = true)
    (rest : List (Command ℝ)) :
    frame bits qubit (command :: rest) =
      pauli bits command * frame bits qubit rest := by
  rw [frame, List.filter_cons_of_pos onQubit, List.map_cons, List.prod_cons]
  rfl

theorem frame_cons_of_not_corrects
    {qubit : Qubit}
    {command : Command ℝ}
    (apart : ¬corrects qubit command = true)
    (rest : List (Command ℝ)) :
    frame bits qubit (command :: rest) = frame bits qubit rest := by
  rw [frame, List.filter_cons_of_neg apart]
  rfl

theorem pauli_unitary (command : Command ℝ) :
    (pauli bits command).conjTranspose * pauli bits command = 1 := by
  cases command with
  | correctX qubit signals =>
      exact GateMatrix.onlyIf_unitary GateMatrix.pauliX_unitary _
  | correctZ qubit signals =>
      exact GateMatrix.onlyIf_unitary GateMatrix.pauliZ_unitary _
  | entangle first second => simp [pauli]
  | measure qubit angle s t => simp [pauli]

theorem frame_unitary
    (qubit : Qubit)
    (pending : List (Command ℝ)) :
    (frame bits qubit pending).conjTranspose * frame bits qubit pending = 1 := by
  unfold frame
  induction pending.filter (corrects qubit) with
  | nil => simp
  | cons command rest inductionHypothesis =>
      rw [List.map_cons, List.prod_cons, Matrix.conjTranspose_mul, mul_assoc,
        ← mul_assoc _ (pauli bits command), pauli_unitary, one_mul,
        inductionHypothesis]

/-- A correction of a qubit is a Pauli gate on it. -/
theorem act_of_corrects
    {qubit : Qubit}
    {command : Command ℝ}
    (onQubit : corrects qubit command = true)
    (wave : Wave n) :
    Wave.act bits command wave = wave.gateAt qubit (pauli bits command) := by
  have same := targets_of_corrects onQubit
  cases command with
  | entangle first second => cases onQubit
  | measure target angle s t => cases onQubit
  | correctX target signals =>
      rw [targets_correctX, List.singleton_inj] at same
      rw [same]
      rfl
  | correctZ target signals =>
      rw [targets_correctZ, List.singleton_inj] at same
      rw [same]
      rfl

theorem notMem_targets_of_not_corrects
    {command : Command ℝ}
    (correction : command.isCorrection = true)
    {qubit : Qubit}
    (apart : ¬corrects qubit command = true) :
    qubit ∉ command.targets := by
  rw [corrects_iff correction] at apart
  cases command with
  | entangle first second => cases correction
  | measure other angle s t => cases correction
  | correctX other signals => simpa [eq_comm] using apart
  | correctZ other signals => simpa [eq_comm] using apart

/-- Corrections act on a qubit by their frame, after all those on other qubits. -/
theorem follow_reverse_pending
    {pending : List (Command ℝ)}
    (corrections : ∀ command ∈ pending, command.isCorrection = true)
    {qubit : Qubit}
    (inside : qubit < n)
    (wave : Wave n) :
    Wave.follow bits pending.reverse wave =
      (Wave.follow bits
        (pending.filter fun command => !corrects qubit command).reverse
          wave).gateAt qubit (frame bits qubit pending) := by
  induction pending with
  | nil => simp [frame]
  | cons command rest inductionHypothesis =>
      rw [List.forall_mem_cons] at corrections
      rw [List.reverse_cons, Wave.follow_append,
        inductionHypothesis corrections.2, Wave.follow_cons, Wave.follow_nil]
      by_cases onQubit : corrects qubit command = true
      · rw [act_of_corrects bits onQubit, Wave.gateAt_gateAt _ _ _ inside,
          frame_cons_of_corrects bits onQubit,
          List.filter_cons_of_neg (by simpa using onQubit)]
      · rw [Wave.act_gateAt bits
            (notMem_targets_of_not_corrects corrections.1 onQubit),
          frame_cons_of_not_corrects bits onQubit,
          List.filter_cons_of_pos (by simpa using onQubit), List.reverse_cons,
          Wave.follow_append]
        rfl

/-- A projector behind the frame of pending corrections is the projector at the
angle that absorbs them in front of the frame. -/
theorem projector_mul_frame
    (qubit : Qubit)
    (angle : ℝ)
    (outcome : Bool)
    (s t : Signals)
    (pending : List (Command ℝ)) :
    GateMatrix.projector (equatorialKet
        (turnedAngle angle (s.under bits) (t.under bits)) outcome) *
          frame bits qubit pending =
      frame bits qubit pending *
        GateMatrix.projector (equatorialKet
          (turnedAngle angle
            (((pending.filterMap (signalsX? qubit)).foldl Signals.merge s).under
              bits)
            (((pending.filterMap (signalsZ? qubit)).foldl Signals.merge t).under
              bits)) outcome) := by
  induction pending generalizing s t with
  | nil => simp [frame]
  | cons command rest inductionHypothesis =>
      -- A command that is no correction of the qubit is not absorbed.
      have skipped
          (noX : signalsX? qubit command = none)
          (noZ : signalsZ? qubit command = none) :
          GateMatrix.projector (equatorialKet
              (turnedAngle angle (s.under bits) (t.under bits)) outcome) *
                frame bits qubit (command :: rest) =
            frame bits qubit (command :: rest) *
              GateMatrix.projector (equatorialKet (turnedAngle angle
                ((((command :: rest).filterMap (signalsX? qubit)).foldl
                  Signals.merge s).under bits)
                ((((command :: rest).filterMap (signalsZ? qubit)).foldl
                  Signals.merge t).under bits)) outcome) := by
        rw [frame_cons_of_not_corrects bits (by simp [corrects, noX, noZ]),
          List.filterMap_cons_none noX, List.filterMap_cons_none noZ]
        exact inductionHypothesis s t
      cases command with
      | entangle first second => exact skipped rfl rfl
      | measure target angle s t => exact skipped rfl rfl
      | correctX target signals =>
          by_cases same : target = qubit
          · have absorbed : signalsX? qubit (.correctX target signals : Command ℝ) =
                some signals :=
              if_pos same
            rw [frame_cons_of_corrects bits (by simp [corrects, absorbed]),
              List.filterMap_cons_some absorbed, List.filterMap_cons_none rfl,
              List.foldl_cons, ← mul_assoc, pauli,
              projector_mul_onlyIf_pauliX, mul_assoc, mul_assoc,
              ← inductionHypothesis, Signals.under_merge, Bool.xor_comm]
          · exact skipped (if_neg same) rfl
      | correctZ target signals =>
          by_cases same : target = qubit
          · have absorbed : signalsZ? qubit (.correctZ target signals : Command ℝ) =
                some signals :=
              if_pos same
            rw [frame_cons_of_corrects bits (by simp [corrects, absorbed]),
              List.filterMap_cons_some absorbed, List.filterMap_cons_none rfl,
              List.foldl_cons, ← mul_assoc, pauli,
              projector_mul_onlyIf_pauliZ, mul_assoc, mul_assoc,
              ← inductionHypothesis, Signals.under_merge, Bool.xor_comm]
          · exact skipped rfl (if_neg same)

/-- Pending corrections before a measurement are the same as the absorbing
measurement before the corrections. -/
theorem act_measure_pending
    {pending : List (Command ℝ)}
    (corrections : ∀ command ∈ pending, command.isCorrection = true)
    {qubit : Qubit}
    (inside : qubit < n)
    (angle : ℝ)
    (s t : Signals)
    (wave : Wave n) :
    Wave.act bits (.measure qubit angle s t)
        (Wave.follow bits pending.reverse wave) =
      (Wave.follow bits
        (pending.filter fun command => !corrects qubit command).reverse
        (Wave.act bits (.measure qubit angle
          ((pending.filterMap (signalsX? qubit)).foldl Signals.merge s)
          ((pending.filterMap (signalsZ? qubit)).foldl Signals.merge t))
            wave)).gateAt qubit (frame bits qubit pending) := by
  have apart : ∀ command ∈
      (pending.filter fun command => !corrects qubit command).reverse,
      qubit ∉ command.targets := by
    intro command member
    obtain ⟨isPending, notOn⟩ := List.mem_filter.1 (List.mem_reverse.1 member)
    exact notMem_targets_of_not_corrects (corrections command isPending)
      (by simpa using notOn)
  rw [follow_reverse_pending bits corrections inside, Wave.act, Wave.act,
    Wave.gateAt_gateAt _ _ _ inside, projector_mul_frame,
    ← Wave.gateAt_gateAt _ _ _ inside, Wave.follow_gateAt bits apart]

/-- A correction whose signals cancel does nothing. -/
theorem act_of_not_isEffective
    {command : Command ℝ}
    (correction : command.isCorrection = true)
    (ineffective : ¬isEffective command = true)
    (wave : Wave n) :
    Wave.act bits command wave = wave := by
  have cancels : command.signals.cancels = true := by
    simpa [isEffective] using ineffective
  have even : command.signals.under bits = false :=
    Signals.parity_of_cancels cancels _
  cases command with
  | entangle first second => cases correction
  | measure qubit angle s t => cases correction
  | correctX qubit signals =>
      rw [signals_correctX] at even
      rw [Wave.act, even, GateMatrix.onlyIf_false, Wave.gateAt_one]
  | correctZ qubit signals =>
      rw [signals_correctZ] at even
      rw [Wave.act, even, GateMatrix.onlyIf_false, Wave.gateAt_one]

theorem follow_filter_isEffective
    {pending : List (Command ℝ)}
    (corrections : ∀ command ∈ pending, command.isCorrection = true)
    (wave : Wave n) :
    Wave.follow bits (pending.filter isEffective).reverse wave =
      Wave.follow bits pending.reverse wave := by
  induction pending with
  | nil => rfl
  | cons command rest inductionHypothesis =>
      rw [List.forall_mem_cons] at corrections
      rw [List.reverse_cons, Wave.follow_append,
        ← inductionHypothesis corrections.2]
      by_cases effective : isEffective command = true
      · rw [List.filter_cons_of_pos effective, List.reverse_cons,
          Wave.follow_append]
      · rw [List.filter_cons_of_neg effective, Wave.follow_cons, Wave.follow_nil,
          act_of_not_isEffective bits corrections.1 effective]

theorem normSq_follow_reverse
    {pending : List (Command ℝ)}
    (corrections : ∀ command ∈ pending, command.isCorrection = true)
    (wave : Wave n) :
    (Wave.follow bits pending.reverse wave).normSq = wave.normSq := by
  refine (Wave.normSq_follow bits (measuredBy_of_isCorrection ?_) wave).1
  exact fun command member => corrections command (List.mem_reverse.1 member)

/-- If a command acts like another one with a unitary gate behind it, on a qubit
that no later command acts on, then the gate can be moved to the end. -/
theorem follow_cons_of_act
    {command absorbing : Command ℝ}
    (sameKind : command.isMeasure = absorbing.isMeasure)
    {qubit : Qubit}
    {rest : List (Command ℝ)}
    (apart : ∀ command ∈ rest, qubit ∉ command.targets)
    {matrix : GateMatrix}
    (unitary : matrix.conjTranspose * matrix = 1)
    {first second between : Wave n}
    (before : first.normSq = second.normSq)
    (acts : Wave.act bits command first = between.gateAt qubit matrix)
    (after : between.normSq = (Wave.act bits absorbing second).normSq) :
    Wave.follow bits (command :: rest) first =
        (Wave.follow bits rest between).gateAt qubit matrix ∧
      Wave.conditionals bits (command :: rest) first =
        Wave.conditionals bits [absorbing] second ++
          Wave.conditionals bits rest between := by
  have sameHead : Wave.conditionals bits [command] first =
      Wave.conditionals bits [absorbing] second := by
    refine Wave.conditionals_singleton_congr bits sameKind before ?_
    rw [acts, Wave.normSq_gateAt_of_unitary _ unitary, after]
  rw [Wave.follow_cons, Wave.conditionals_cons, acts,
    Wave.follow_gateAt bits apart, Wave.conditionals_gateAt bits apart unitary,
    sameHead]
  exact ⟨rfl, rfl⟩

/-- Along every path, settled commands have the same conditional probabilities as
the commands with the pending corrections in front of them, and they lead to the
same wave up to unitary gates on the qubits that are measured. -/
theorem follow_settleFrom
    {measured : List Qubit}
    {pending : List (Command ℝ)}
    (corrections : ∀ command ∈ pending, command.isCorrection = true)
    {commands : List (Command ℝ)}
    (noEntangle : ∀ command ∈ commands, command.isEntangle = false)
    (legal : AllLegal n measured commands)
    (wave : Wave n) :
    Wave.GatesOn (measuredBy commands)
        (Wave.follow bits commands (Wave.follow bits pending.reverse wave))
        (Wave.follow bits (settleFrom pending commands) wave) ∧
      Wave.conditionals bits commands
          (Wave.follow bits pending.reverse wave) =
        Wave.conditionals bits (settleFrom pending commands) wave := by
  -- The original commands have applied the pending corrections, the settled ones have not.
  induction commands generalizing measured pending wave with
  | nil =>
      have noMeasure : measuredBy (pending.filter isEffective).reverse = [] :=
        measuredBy_of_isCorrection fun command member =>
          corrections command (List.mem_filter.1 (List.mem_reverse.1 member)).1
      rw [settleFrom, follow_filter_isEffective bits corrections]
      exact ⟨.refl _, (Wave.normSq_follow bits noMeasure wave).2.symm⟩
  | cons command rest inductionHypothesis =>
      obtain ⟨head, tail⟩ := legal
      rw [List.forall_mem_cons] at noEntangle
      rcases command.isCorrection_or with
        correction | ⟨first, second, rfl⟩ | ⟨qubit, angle, s, t, rfl⟩
      · have none := measured?_of_isCorrection correction
        obtain ⟨gates, conditionals⟩ := inductionHypothesis
          (List.forall_mem_cons.2 ⟨correction, corrections⟩) noEntangle.2 tail
          wave
        rw [List.reverse_cons, Wave.follow_append] at gates conditionals
        rw [settleFrom_correction pending correction, measuredBy_cons, none,
          Wave.follow_cons, ← conditionals, Wave.conditionals_cons,
          (Wave.normSq_follow bits (by simp [none]) _).2]
        exact ⟨gates, rfl⟩
      · cases noEntangle.1
      · have inside := head.target_lt qubit (by simp)
        -- No later command acts on the measured qubit, so the frame passes them all.
        have apart (command : Command ℝ) (member : command ∈ rest) :
            qubit ∉ command.targets := fun target =>
          (tail.target member target).2 (by simp)
        have remaining : ∀ command ∈
            pending.filter (fun command => !corrects qubit command),
            command.isCorrection = true := fun command member =>
          corrections command (List.mem_filter.1 member).1
        have absorbed := act_measure_pending bits corrections inside angle s t wave
        rw [settleFrom_measure]
        generalize absorbs : (Command.measure qubit angle
          ((pending.filterMap (signalsX? qubit)).foldl Signals.merge s)
          ((pending.filterMap (signalsZ? qubit)).foldl Signals.merge t)) =
            absorbing at absorbed ⊢
        have sameKind : (Command.measure qubit angle s t).isMeasure =
            absorbing.isMeasure := by
          rw [← absorbs]
          rfl
        obtain ⟨gates, conditionals⟩ := inductionHypothesis remaining
          noEntangle.2 tail (Wave.act bits absorbing wave)
        obtain ⟨follows, sameConditionals⟩ := follow_cons_of_act bits sameKind
          apart (frame_unitary bits qubit pending)
          (normSq_follow_reverse bits corrections wave) absorbed
          (normSq_follow_reverse bits remaining _)
        generalize settleFrom (pending.filter fun command =>
          !corrects qubit command) rest = settled at gates conditionals ⊢
        rw [follows, sameConditionals, conditionals, Wave.follow_cons,
          Wave.conditionals_cons bits _ settled]
        refine ⟨.gate (by simp [measured?]) (frame_unitary bits qubit pending)
          (gates.mono fun other member => ?_), rfl⟩
        rw [measuredBy_cons]
        exact List.mem_append_right _ member

end Path

end StandardForm

end MeasurementCalculus
