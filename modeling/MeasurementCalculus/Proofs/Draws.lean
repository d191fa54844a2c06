import MeasurementCalculus.Proofs.Sampling

/-!
# Draws select paths

In exact arithmetic a draw selects outcome zero if it lies below the
probability of zero, and outcome one otherwise, unless the selected outcome
lies at or below the floor. A source of draws selects a path that takes the
selected bit at each measurement. Every source selects a path, unique on the
measured qubits, and the shot returns its outcome.
-/

namespace MeasurementCalculus

open Function (update)

/-! ## One draw -/

/-- The outcome that a draw selects when outcome zero has the given probability and
outcome one the rest. -/
noncomputable def selectedBit (zero draw : ℝ) : Bool :=
  if draw < zero then decide (zero ≤ Scalar.probabilityFloor)
  else decide (Scalar.probabilityFloor < 1 - zero)

/-- The probability of an outcome when outcome zero has the given probability. The
same expression recovers the probability of zero from that of the outcome. -/
noncomputable def bitShare
    (bit : Bool)
    (zero : ℝ) : ℝ :=
  if bit then 1 - zero else zero

@[simp] theorem bitShare_false (zero : ℝ) : bitShare false zero = zero := rfl

@[simp] theorem bitShare_true (zero : ℝ) : bitShare true zero = 1 - zero := rfl

theorem bitShare_bitShare
    (bit : Bool)
    (zero : ℝ) :
    bitShare bit (bitShare bit zero) = zero := by
  cases bit with
  | false => rfl
  | true => rw [bitShare_true, bitShare_true, sub_sub_cancel]

theorem bitShare_not
    (bit : Bool)
    (zero : ℝ) :
    bitShare (!bit) zero = 1 - bitShare bit zero := by
  cases bit with
  | false => rfl
  | true => rw [Bool.not_true, bitShare_false, bitShare_true, sub_sub_cancel]

/-- The selected outcome lies above the floor. -/
theorem floor_lt_bitShare_selectedBit (zero draw : ℝ) :
    Scalar.probabilityFloor < bitShare (selectedBit zero draw) zero := by
  have small : Scalar.probabilityFloor < (1 / 2 : ℝ) := by
    rw [Scalar.probabilityFloor_real]
    norm_num
  unfold selectedBit
  split
  · by_cases below : zero ≤ Scalar.probabilityFloor
    · rw [decide_eq_true below, bitShare_true]
      linarith
    · rw [decide_eq_false below, bitShare_false]
      exact not_le.1 below
  · by_cases above : Scalar.probabilityFloor < 1 - zero
    · rw [decide_eq_true above, bitShare_true]
      exact above
    · rw [decide_eq_false above, bitShare_false]
      linarith

/-- If the total is one, a draw selects the outcome by the probability of zero. -/
theorem PendingMeasurement.choose_eq_selectedBit
    {n : Nat}
    {pending : PendingMeasurement ℝ n}
    (total : pending.total = 1)
    (draw : ℝ) :
    pending.choose draw = selectedBit (pending.probability false) draw := by
  have zero : pending.probability false = pending.zeroProbability := rfl
  have one : pending.probability true = 1 - pending.zeroProbability := by
    rw [← total, PendingMeasurement.total, add_sub_cancel_left]
    rfl
  unfold choose selectedBit
  rw [total, mul_one, zero]
  by_cases below : draw < pending.zeroProbability
  · simp only [below, decide_true, Bool.not_true, zero, if_true]
    split
    · next impossible => exact (decide_eq_true impossible).symm
    · next possible => exact (decide_eq_false possible).symm
  · simp only [below, decide_false, Bool.not_false, one, if_false]
    split
    · next impossible => exact (decide_eq_false (not_lt.2 impossible)).symm
    · next possible => exact (decide_eq_true (not_le.1 possible)).symm

/-! ## Selected paths -/

/-- The listed qubits have the bits that successive draws select, if the shares are
the conditional probabilities of these bits. -/
def Selects
    {G : Type}
    [DrawSource G ℝ]
    (bits : Qubit → Bool) : List Qubit → List ℝ → G → Prop
  | qubit :: qubits, share :: shares, source =>
      bits qubit =
          selectedBit (bitShare (bits qubit) share) (DrawSource.draw source).1 ∧
        Selects bits qubits shares (DrawSource.draw source).2
  | _, _, _ => True

namespace Wave

variable {n : Nat} {G : Type} [DrawSource G ℝ]

/-- A path that takes, at each measurement of the commands, the bit that the next
draw selects. -/
def SelectedBy
    (source : G)
    (bits : Qubit → Bool)
    (commands : List (Command ℝ))
    (wave : Wave n) : Prop :=
  Selects bits (Command.measuredBy commands) (conditionals bits commands wave) source

/-- A command that is not a measurement takes no draw. -/
theorem selectedBy_cons
    (source : G)
    (bits : Qubit → Bool)
    {command : Command ℝ}
    (noMeasure : command.measured? = none)
    (rest : List (Command ℝ))
    (wave : Wave n) :
    SelectedBy source bits (command :: rest) wave ↔
      SelectedBy source bits rest (act bits command wave) := by
  have single : Command.measuredBy [command] = [] := by
    simp [noMeasure]
  unfold SelectedBy
  rw [Command.measuredBy_cons, noMeasure, conditionals_cons,
    (normSq_follow bits single wave).2]
  rfl

section Measurement

variable {qubit : Qubit} {angle : ℝ} {s t : Signals}

/-- The conditional probability of outcome zero of a measurement. -/
noncomputable def zeroShare
    (bits : Qubit → Bool)
    (qubit : Qubit)
    (angle : ℝ)
    (s t : Signals)
    (wave : Wave n) : ℝ :=
  (act (update bits qubit false) (.measure qubit angle s t) wave).normSq /
    wave.normSq

/-- The conditional probability of the outcome on a path is the share of its bit. -/
theorem ratio_eq_bitShare
    (bits : Qubit → Bool)
    (apart : ∀ signal ∈ s ++ t, signal ≠ qubit)
    (inside : qubit < n)
    (angle : ℝ)
    {wave : Wave n}
    (positive : 0 < wave.normSq)
    (outcome : Bool) :
    (act (update bits qubit outcome) (.measure qubit angle s t) wave).normSq /
        wave.normSq =
      bitShare outcome (zeroShare bits qubit angle s t wave) := by
  cases outcome with
  | false => rfl
  | true =>
      have total := normSq_act_measure_add bits apart inside angle wave
      rw [bitShare_true, zeroShare, eq_sub_iff_add_eq, ← add_div, add_comm, total,
        div_self positive.ne']

/-- The probability of outcome zero does not depend on the bit of the qubit. -/
theorem zeroShare_congr
    {first second : Qubit → Bool}
    (agree : ∀ signal ∈ s ++ t, first signal = second signal)
    (angle : ℝ)
    (wave : Wave n) :
    zeroShare first qubit angle s t wave = zeroShare second qubit angle s t wave := by
  unfold zeroShare
  rw [act_congr (fun signal member => ?_) fun other member => ?_]
  · by_cases same : signal = qubit
    · rw [same, Function.update_self, Function.update_self]
    · rw [Function.update_of_ne same, Function.update_of_ne same, agree signal member]
  · rw [← Option.some.inj member, Function.update_self, Function.update_self]

/-- A measurement takes one draw, which selects the bit of its qubit. -/
theorem selectedBy_measure
    (source : G)
    (bits : Qubit → Bool)
    (apart : ∀ signal ∈ s ++ t, signal ≠ qubit)
    (inside : qubit < n)
    (rest : List (Command ℝ))
    {wave : Wave n}
    (positive : 0 < wave.normSq) :
    SelectedBy source bits (.measure qubit angle s t :: rest) wave ↔
      bits qubit =
          selectedBit (zeroShare bits qubit angle s t wave)
            (DrawSource.draw source).1 ∧
        SelectedBy (DrawSource.draw source).2 bits rest
          (act bits (.measure qubit angle s t) wave) := by
  have ratio := ratio_eq_bitShare bits apart inside angle positive (bits qubit)
  rw [Function.update_eq_self] at ratio
  change (bits qubit = selectedBit (bitShare (bits qubit) (_ / _)) _ ∧ _) ↔ _
  rw [ratio, bitShare_bitShare]
  rfl

/-- The wave does not vanish at a bit that a draw selects. -/
theorem normSq_act_pos_of_selected
    {bits : Qubit → Bool}
    (apart : ∀ signal ∈ s ++ t, signal ≠ qubit)
    (inside : qubit < n)
    {wave : Wave n}
    (positive : 0 < wave.normSq)
    {draw : ℝ}
    (selected : bits qubit = selectedBit (zeroShare bits qubit angle s t wave) draw) :
    0 < (act bits (.measure qubit angle s t) wave).normSq := by
  have share := ratio_eq_bitShare bits apart inside angle positive (bits qubit)
  have above := floor_lt_bitShare_selectedBit (zeroShare bits qubit angle s t wave) draw
  rw [← selected, ← share, Function.update_eq_self] at above
  exact (div_pos_iff_of_pos_right positive).1 (Scalar.probabilityFloor_pos.trans above)

end Measurement

/-- Paths that the same source selects have the same bits on all measured qubits. -/
theorem SelectedBy.unique
    {source : G}
    {first second : Qubit → Bool}
    {measured : List Qubit}
    {commands : List (Command ℝ)}
    (legal : Command.AllLegal n measured commands)
    (agree : ∀ qubit ∈ measured, first qubit = second qubit)
    {wave : Wave n}
    (positive : 0 < wave.normSq)
    (firstSelected : SelectedBy source first commands wave)
    (secondSelected : SelectedBy source second commands wave) :
    ∀ qubit ∈ measured ++ Command.measuredBy commands,
      first qubit = second qubit := by
  induction commands generalizing measured wave source with
  | nil => simpa using agree
  | cons command rest inductionHypothesis =>
      obtain ⟨head, tail⟩ := legal
      rw [Command.measuredBy_cons, ← List.append_assoc]
      have signals : ∀ signal ∈ command.signals, first signal = second signal :=
        fun signal member => agree signal (head.signal_mem signal member)
      rcases command.measured?_eq_none_or with
        noMeasure | ⟨qubit, angle, s, t, rfl⟩
      · have same := act_congr signals (by simp [noMeasure]) wave
        rw [selectedBy_cons _ _ noMeasure] at firstSelected secondSelected
        rw [← same] at secondSelected
        refine inductionHypothesis tail ?_ ?_ firstSelected secondSelected
        · simpa [noMeasure] using agree
        · rwa [normSq_act first noMeasure]
      · have inside := head.target_lt qubit (by simp)
        have apart (signal : Qubit) (member : signal ∈ s ++ t) : signal ≠ qubit :=
          head.ne_of_mem member (by simp)
        rw [selectedBy_measure _ _ apart inside _ positive]
          at firstSelected secondSelected
        -- Both paths have led to the same wave, so the same draw selects the same bit.
        have sameBit : first qubit = second qubit := by
          rw [firstSelected.1, secondSelected.1, zeroShare_congr signals]
        have same := act_congr signals
          (fun other member => Option.some.inj member ▸ sameBit) wave
        rw [← same] at secondSelected
        refine inductionHypothesis tail ?_ ?_ firstSelected.2 secondSelected.2
        · intro other member
          rcases List.mem_append.1 member with earlier | single
          · exact agree other earlier
          · rwa [List.mem_singleton.1 single]
        · exact normSq_act_pos_of_selected apart inside positive firstSelected.1

end Wave

/-! ## Shots -/

namespace Branch

variable {n : Nat} {G : Type} [DrawSource G ℝ]
variable {initial : Wave n} {before : List (Command ℝ)}

/-- A command that is not a measurement continues the shot along its path. -/
theorem shotStep_along
    (legalBefore : Command.AllLegal n [] before)
    (bits : Qubit → Bool)
    {command : Command ℝ}
    (legal : command.Legal n (Command.measuredBy before))
    (noMeasure : command.measured? = none)
    (tolerance : ℝ)
    (index : Nat)
    (source : G) :
    (along initial before bits).run.shotStep tolerance index command source =
      .ok ((along initial (before ++ [command]) bits).run, source) := by
  rw [Run.shotStep_of_not_measure noMeasure,
    apply_along initial legalBefore bits legal noMeasure index, ok_bind]

/-- A measurement continues the shot along the path with the bit that the next draw
selects, and this path is kept. -/
theorem shotStep_measure_along
    {qubit : Qubit}
    {angle : ℝ}
    {s t : Signals}
    (unit : initial.normSq = 1)
    {bits : Qubit → Bool}
    (kept : Wave.Kept bits before initial)
    (legalBefore : Command.AllLegal n [] before)
    (legal : (Command.measure qubit angle s t).Legal n
      (Command.measuredBy before))
    {tolerance : ℝ}
    (nonneg : 0 ≤ tolerance)
    (index : Nat)
    (source : G)
    {outcome : Bool}
    (selected : outcome = selectedBit
      (Wave.zeroShare bits qubit angle s t (Wave.follow bits before initial))
      (DrawSource.draw source).1) :
    (along initial before bits).run.shotStep tolerance index
          (.measure qubit angle s t) source =
        .ok ((along initial (before ++ [.measure qubit angle s t])
          (update bits qubit outcome)).run, (DrawSource.draw source).2) ∧
      Wave.Kept (update bits qubit outcome)
        (before ++ [.measure qubit angle s t]) initial := by
  have fresh := legal.target_notMem qubit (by simp)
  have inside := legal.target_lt qubit (by simp)
  have apart (signal : Qubit) (member : signal ∈ s ++ t) : signal ≠ qubit :=
    legal.ne_of_mem member (by simp)
  obtain ⟨pending, pends, sameQubit, total, acts, ratio⟩ :=
    measurement_along unit kept legalBefore legal nonneg index
  have chosen : pending.choose (DrawSource.draw source).1 = outcome := by
    rw [PendingMeasurement.choose_eq_selectedBit total, ratio, selected]
    rfl
  have above : Scalar.probabilityFloor < pending.probability outcome := by
    rw [ratio, Wave.ratio_eq_bitShare bits apart inside angle
      (kept.normSq_pos (unit ▸ one_pos)), selected]
    exact floor_lt_bitShare_selectedBit _ _
  have collapsed := collapse_of_take_eq_ok <| take_along unit kept legalBefore fresh
    sameQubit total (acts outcome) (ratio outcome) above nonneg index
  constructor
  · rw [Run.shotStep, pends, ok_bind]
    dsimp only
    rw [chosen, collapsed]
    rfl
  · obtain ⟨same, keptBefore⟩ :=
      follow_update legalBefore fresh initial bits outcome
    rw [Wave.kept_append, keptBefore, Wave.kept_measure, same, ← ratio]
    exact ⟨kept, above⟩

/-- A path that continues another one with a bit of a new qubit agrees with it
before. -/
theorem agrees_before
    {measured : List Qubit}
    {qubit : Qubit}
    (fresh : qubit ∉ measured)
    {path bits : Qubit → Bool}
    {outcome : Bool}
    (agree : ∀ earlier ∈ measured ++ [qubit],
      path earlier = update bits qubit outcome earlier) :
    ∀ earlier ∈ measured, path earlier = bits earlier := by
  intro earlier member
  rw [agree earlier (List.mem_append_left _ member), Function.update_of_ne]
  rintro rfl
  exact fresh member

/-- Whether a measurement selects the bit of a path can be read off any other path
that agrees with it before. -/
theorem selectedBy_measure_of_agrees
    {qubit : Qubit}
    {angle : ℝ}
    {s t : Signals}
    (legalBefore : Command.AllLegal n [] before)
    (legal : (Command.measure qubit angle s t).Legal n
      (Command.measuredBy before))
    {path bits : Qubit → Bool}
    (agree : ∀ earlier ∈ Command.measuredBy before, path earlier = bits earlier)
    (positive : 0 < (Wave.follow bits before initial).normSq)
    {source : G}
    (chosen : path qubit = selectedBit
      (Wave.zeroShare bits qubit angle s t (Wave.follow bits before initial))
      (DrawSource.draw source).1)
    {rest : List (Command ℝ)}
    (selected : Wave.SelectedBy (DrawSource.draw source).2 path rest
      (Wave.follow path [.measure qubit angle s t]
        (Wave.follow path before initial))) :
    Wave.SelectedBy source path (.measure qubit angle s t :: rest)
      (Wave.follow path before initial) := by
  have sameWave := (Wave.follow_congr legalBefore (by simpa using agree) initial).1
  have sameShare : Wave.zeroShare path qubit angle s t
        (Wave.follow bits before initial) =
      Wave.zeroShare bits qubit angle s t (Wave.follow bits before initial) :=
    Wave.zeroShare_congr (fun signal member =>
      agree signal (legal.signal_mem signal member)) angle _
  rw [sameWave] at selected ⊢
  rw [Wave.selectedBy_measure source path
    (fun signal member => legal.ne_of_mem member (by simp))
    (legal.target_lt qubit (by simp)) rest positive, sameShare]
  exact ⟨chosen, selected⟩

/-- A shot goes along a kept path to the end, and its source selects this path. -/
theorem exists_shootFrom_along
    (unit : initial.normSq = 1)
    {rest : List (Command ℝ)}
    (legal : Command.AllLegal n [] (before ++ rest))
    {bits : Qubit → Bool}
    (kept : Wave.Kept bits before initial)
    {tolerance : ℝ}
    (nonneg : 0 ≤ tolerance)
    (index : Nat)
    (source : G) :
    ∃ path : Qubit → Bool,
      (∀ qubit ∈ Command.measuredBy before, path qubit = bits qubit) ∧
      Wave.Kept path (before ++ rest) initial ∧
      Wave.SelectedBy source path rest (Wave.follow path before initial) ∧
      (along initial before bits).run.shootFrom tolerance index source rest =
        .ok ((along initial (before ++ rest) path).run,
          DrawSource.after (Command.measuredBy rest).length source) := by
  -- The path is known only at the end, so what is kept on the way is that it agrees so far.
  induction rest generalizing before bits index source with
  | nil =>
      rw [List.append_nil]
      exact ⟨bits, fun _ _ => rfl, kept, trivial, rfl⟩
  | cons command rest inductionHypothesis =>
      obtain ⟨legalBefore, legalCommand, _⟩ :=
        (Command.allLegal_append n [] before (command :: rest)).1 legal
      rw [List.append_cons] at legal ⊢
      rcases command.measured?_eq_none_or with
        noMeasure | ⟨qubit, angle, s, t, rfl⟩
      · have longer := (Wave.kept_append_of_none bits before noMeasure initial).2 kept
        obtain ⟨path, agree, pathKept, selected, shot⟩ :=
          inductionHypothesis legal longer (index + 1) source
        rw [Command.measuredBy_append_of_none before noMeasure] at agree
        refine ⟨path, agree, pathKept, ?_, ?_⟩
        · rw [Wave.selectedBy_cons _ _ noMeasure]
          rwa [Wave.follow_append] at selected
        · rw [Run.shootFrom,
            shotStep_along legalBefore bits legalCommand noMeasure tolerance index source,
            ok_bind, Command.measuredBy_cons, noMeasure]
          exact shot
      · obtain ⟨step, longer⟩ := shotStep_measure_along unit kept legalBefore
          legalCommand nonneg index source rfl
        obtain ⟨path, agree, pathKept, selected, shot⟩ :=
          inductionHypothesis legal longer (index + 1) (DrawSource.draw source).2
        rw [Command.measuredBy_append_measure] at agree
        have agreeBefore := agrees_before
          (legalCommand.target_notMem qubit (by simp)) agree
        refine ⟨path, agreeBefore, pathKept, ?_, ?_⟩
        · rw [Wave.follow_append] at selected
          refine selectedBy_measure_of_agrees legalBefore legalCommand agreeBefore
            (kept.normSq_pos (unit ▸ one_pos)) ?_ selected
          rw [agree qubit (by simp), Function.update_self]
        · rw [Run.shootFrom, step, ok_bind, Command.measuredBy_cons]
          exact shot

end Branch

namespace Program

variable {G : Type} [DrawSource G ℝ]

/-- Before every position a shot is at the end of a kept path. -/
theorem exists_runBefore_eq_ok
    (program : Program ℝ)
    {tolerance : ℝ}
    (nonneg : 0 ≤ tolerance)
    (source : G)
    (index : Nat) :
    ∃ path : Qubit → Bool,
      Wave.Kept path (program.pattern.commands.take index)
        (program.pattern.initialWave program.width) ∧
      Wave.SelectedBy source path (program.pattern.commands.take index)
        (program.pattern.initialWave program.width) ∧
      program.runBefore tolerance source index =
        .ok ((Branch.along (program.pattern.initialWave program.width)
          (program.pattern.commands.take index) path).run,
          DrawSource.after
            (Command.measuredBy (program.pattern.commands.take index)).length
            source) := by
  have unit := program.pattern.normSq_initialWave program.width
  have legal : Command.AllLegal program.width []
      ([] ++ program.pattern.commands.take index) :=
    program.allLegal_take index
  obtain ⟨path, _, kept, selected, shot⟩ := Branch.exists_shootFrom_along unit legal
    (Wave.kept_nil (fun _ => false) _) nonneg 0 source
  refine ⟨path, kept, selected, ?_⟩
  rw [Branch.along_nil unit] at shot
  rw [runBefore, program.start_eq_ok nonneg, ok_bind]
  exact shot

omit [DrawSource G ℝ] in
/-- A run does not start with a negative tolerance, because the deviation of the norm
is zero. -/
theorem start_eq_error
    (program : Program ℝ)
    {tolerance : ℝ}
    (negative : tolerance < 0) :
    Run.start program tolerance = .error (.numeric .initialState 1 tolerance) := by
  obtain ⟨kets, filled, declared⟩ := Run.initialKets_eq_ok program.lawful
  have unit : (Register.product fun qubit : Fin program.width =>
        kets[qubit].amplitudes).normSq = 1 := by
    rw [Register.normSq_eq_normSq_wave,
      Register.wave_product fun qubit : Fin program.width => kets[qubit]]
    exact Wave.normSq_product fun _ => Ket.isUnitKet_state _
  unfold Run.start
  rw [filled, ok_bind]
  dsimp only
  rw [Register.acceptNorm, acceptTotal_real, unit, sub_self, abs_zero,
    if_neg (not_le.2 negative)]
  rfl

omit [DrawSource G ℝ] in
theorem enumerate_eq_error
    (program : Program ℝ)
    {tolerance : ℝ}
    (negative : tolerance < 0) :
    program.enumerate tolerance = .error (.numeric .initialState 1 tolerance) := by
  unfold enumerate branches
  rw [program.start_eq_error negative]
  rfl

theorem shoot_eq_error
    (program : Program ℝ)
    {tolerance : ℝ}
    (negative : tolerance < 0)
    (source : G) :
    program.shoot tolerance source = .error (.numeric .initialState 1 tolerance) := by
  unfold shoot
  rw [program.start_eq_error negative]
  rfl

/-- A shot returns the outcome of a kept path that its source selects. -/
theorem exists_shoot_eq_ok
    (program : Program ℝ)
    {tolerance : ℝ}
    (nonneg : 0 ≤ tolerance)
    (source : G) :
    ∃ path : Qubit → Bool,
      Wave.Kept path program.pattern.commands
        (program.pattern.initialWave program.width) ∧
      Wave.SelectedBy source path program.pattern.commands
        (program.pattern.initialWave program.width) ∧
      program.shoot tolerance source =
        .ok (.along path program.pattern.measured,
          DrawSource.after program.pattern.measured.length source) := by
  obtain ⟨path, kept, selected, reached⟩ := program.exists_runBefore_eq_ok nonneg
    source program.pattern.commands.length
  have shown := Branch.outcome_along program.lawful.legal
    (program.pattern.initialWave program.width) path
  rw [List.take_length] at kept selected
  refine ⟨path, kept, selected, ?_⟩
  rw [shoot_eq_bind_runBefore, reached, List.take_length]
  exact congrArg (fun outcome => Except.ok (outcome, _)) shown

/-- A shot returns the outcome of every path that its source selects. -/
theorem shoot_eq_ok_of_selectedBy
    (program : Program ℝ)
    {tolerance : ℝ}
    (nonneg : 0 ≤ tolerance)
    {source : G}
    {path : Qubit → Bool}
    (selected : Wave.SelectedBy source path program.pattern.commands
      (program.pattern.initialWave program.width)) :
    program.shoot tolerance source =
      .ok (.along path program.pattern.measured,
        DrawSource.after program.pattern.measured.length source) := by
  obtain ⟨other, _, otherSelected, shot⟩ := program.exists_shoot_eq_ok nonneg source
  have positive : 0 < (program.pattern.initialWave program.width).normSq := by
    rw [Pattern.normSq_initialWave]
    exact one_pos
  have agree := otherSelected.unique program.lawful.legal (by simp) positive selected
  have same : Outcome.along other program.pattern.measured =
      .along path program.pattern.measured := Outcome.along_congr agree
  rw [shot, same]

/-- Programs that measure the same qubits in the same order, with the same conditional
probabilities along every path, have the same shots. -/
theorem shoot_congr
    {first second : Program ℝ}
    (measured : second.pattern.measured = first.pattern.measured)
    (conditionals : ∀ bits, Wave.conditionals bits second.pattern.commands
        (second.pattern.initialWave second.width) =
      Wave.conditionals bits first.pattern.commands
        (first.pattern.initialWave first.width))
    (tolerance : ℝ)
    (source : G) :
    second.shoot tolerance source = first.shoot tolerance source := by
  rcases le_or_gt 0 tolerance with nonneg | negative
  · obtain ⟨path, _, selected, shot⟩ := first.exists_shoot_eq_ok nonneg source
    have selectedToo : Wave.SelectedBy source path second.pattern.commands
        (second.pattern.initialWave second.width) := by
      unfold Wave.SelectedBy
      rw [conditionals]
      change Selects path second.pattern.measured _ source
      rw [measured]
      exact selected
    rw [shot, second.shoot_eq_ok_of_selectedBy nonneg selectedToo, measured]
  · rw [first.shoot_eq_error negative, second.shoot_eq_error negative]

end Program

end MeasurementCalculus
