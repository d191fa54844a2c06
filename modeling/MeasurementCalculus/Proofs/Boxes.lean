import MeasurementCalculus.Proofs.Draws
import MeasurementCalculus.Proofs.Floor

/-!
# Draws fall into boxes

Let a program be clear of the floor. A draw selects a bit of a measurement
exactly if it falls into an interval whose length is the conditional
probability of the bit. So the draws that select an outcome form a box, whose
volume is the probability of the outcome. The boxes of different outcomes are
disjoint and fill the unit cube.
-/

namespace MeasurementCalculus

/-! ## One draw -/

/-- The least draw that selects a bit with the given probability. -/
noncomputable def lowerDraw
    (bit : Bool)
    (share : ℝ) : ℝ :=
  if bit then 1 - share else 0

/-- The draws that select a bit form an interval that is as long as its probability is
large, unless one of the two bits is possible but improbable. -/
theorem mem_Ico_lowerDraw_iff
    {bit : Bool}
    {share : ℝ}
    (possible : Scalar.probabilityFloor < share)
    (rest : share = 1 ∨ Scalar.probabilityFloor < 1 - share)
    (draw : ℝ) :
    draw ∈ Set.Ico (lowerDraw bit share) (lowerDraw bit share + share) ↔
      draw ∈ Set.Ico 0 1 ∧ bit = selectedBit (bitShare bit share) draw := by
  have floorPos := Scalar.probabilityFloor_pos
  have atMostOne : share ≤ 1 := by
    rcases rest with all | above
    · exact all.le
    · linarith
  unfold selectedBit lowerDraw
  -- The other bit is impossible or above the floor, so the floor never turns a draw around.
  cases bit with
  | false =>
      rw [bitShare_false, if_neg Bool.false_ne_true, zero_add,
        decide_eq_false possible.not_ge]
      constructor
      · rintro ⟨lower, below⟩
        exact ⟨⟨lower, below.trans_le atMostOne⟩, (if_pos below).symm⟩
      · rintro ⟨⟨lower, upper⟩, selected⟩
        refine ⟨lower, ?_⟩
        by_contra above
        rw [if_neg above] at selected
        rcases rest with rfl | enough
        · exact above upper
        · rw [decide_eq_true enough] at selected
          cases selected
  | true =>
      rw [bitShare_true, if_pos rfl, sub_add_cancel, sub_sub_cancel,
        decide_eq_true possible]
      constructor
      · rintro ⟨lower, upper⟩
        exact ⟨⟨(sub_nonneg.2 atMostOne).trans lower, upper⟩, (if_neg lower.not_gt).symm⟩
      · rintro ⟨⟨lower, upper⟩, selected⟩
        refine ⟨?_, upper⟩
        by_contra above
        have below := not_le.1 above
        rw [if_pos below] at selected
        rcases rest with rfl | enough
        · rw [sub_self] at below
          exact below.not_ge lower
        · rw [decide_eq_false enough.not_ge] at selected
          cases selected

/-! ## Finitely many draws -/

namespace DrawSource

/-- The next draws of a source. -/
def first
    {G R : Type}
    [DrawSource G R]
    (count : Nat)
    (source : G) : Fin count → R :=
  fun index => (draw (after index.val source)).1

/-- A source that begins with the given draws. -/
def ofDraws
    {count : Nat}
    (draws : Fin count → ℝ) : Stream' ℝ :=
  fun index => if inside : index < count then draws ⟨index, inside⟩ else 0

theorem after_stream
    (count : Nat)
    (stream : Stream' ℝ) :
    after count stream = stream.drop count := by
  induction count generalizing stream with
  | zero => rfl
  | succ count inductionHypothesis =>
      rw [after, inductionHypothesis]
      rfl

theorem first_ofDraws
    {count : Nat}
    (draws : Fin count → ℝ) :
    first count (ofDraws draws) = draws := by
  funext index
  rw [first, after_stream]
  change ofDraws draws (0 + index.val) = draws index
  simp [ofDraws]

end DrawSource

section Selects

variable {G : Type} [DrawSource G ℝ]

/-- Every bit is selected by the draw at its position. -/
theorem selects_iff
    (bits : Qubit → Bool)
    {qubits : List Qubit}
    {shares : List ℝ}
    (same : qubits.length = shares.length)
    (source : G) :
    Selects bits qubits shares source ↔
      ∀ index : Fin qubits.length, bits (qubits.get index) =
        selectedBit (bitShare (bits (qubits.get index)) (shares.get (index.cast same)))
          (DrawSource.first qubits.length source index) := by
  induction qubits generalizing shares source with
  | nil => exact ⟨fun _ index => index.elim0, fun _ => trivial⟩
  | cons qubit qubits inductionHypothesis =>
      cases shares with
      | nil => cases same
      | cons share shares =>
          have tail := inductionHypothesis (Nat.succ.inj same) (DrawSource.draw source).2
          constructor
          · rintro ⟨here, later⟩ index
            cases index using Fin.cases with
            | zero => exact here
            | succ index => exact tail.1 later index
          · intro all
            exact ⟨all ⟨0, Nat.zero_lt_succ _⟩, tail.2 fun index => all index.succ⟩

end Selects

namespace Wave

variable {n : Nat}

/-- Whether a source selects a path depends on the bits of the measured qubits alone. -/
theorem selectedBy_congr
    {G : Type}
    [DrawSource G ℝ]
    (source : G)
    {first second : Qubit → Bool}
    {width : Nat}
    {commands : List (Command ℝ)}
    (legal : Command.AllLegal width [] commands)
    (agree : ∀ qubit ∈ Command.measuredBy commands, first qubit = second qubit)
    (wave : Wave n) :
    SelectedBy source first commands wave ↔ SelectedBy source second commands wave := by
  have same := (length_conditionals second commands wave).symm
  unfold SelectedBy
  rw [(follow_congr legal agree wave).2, selects_iff first same, selects_iff second same]
  refine forall_congr' fun index => ?_
  rw [agree _ (List.get_mem _ index)]

end Wave

namespace Program

/-- If a program is clear of the floor, then at every measurement of a kept path the
other bit is impossible or exceeds the floor. -/
theorem ClearOfFloor.eq_one_or
    {program : Program ℝ}
    {tolerance : ℝ}
    (clear : program.ClearOfFloor tolerance)
    (nonneg : 0 ≤ tolerance)
    {bits : Qubit → Bool}
    (kept : Wave.Kept bits program.pattern.commands
      (program.pattern.initialWave program.width))
    {share : ℝ}
    (member : share ∈ Wave.conditionals bits program.pattern.commands
      (program.pattern.initialWave program.width)) :
    share = 1 ∨ Scalar.probabilityFloor < 1 - share := by
  obtain ⟨index, qubit, angle, s, t, there, value⟩ :=
    Wave.exists_of_mem_conditionals member
  have legal := program.legal_getElem there
  have inside := legal.target_lt qubit (by simp)
  have apart (signal : Qubit) (reads : signal ∈ s ++ t) : signal ≠ qubit :=
    legal.ne_of_mem reads (by simp)
  rw [← List.take_append_drop index program.pattern.commands, Wave.kept_append] at kept
  have unit := program.pattern.normSq_initialWave program.width
  have positive := kept.1.normSq_pos (unit ▸ one_pos)
  have here := Wave.ratio_eq_bitShare bits apart inside angle positive (bits qubit)
  have other := Wave.ratio_eq_bitShare bits apart inside angle positive (!bits qubit)
  rw [Function.update_eq_self] at here
  rw [bitShare_not, ← here, ← value] at other
  have possible := (clearOfFloor_iff nonneg).1 clear index qubit angle s t there bits _
    kept.1 rfl (!bits qubit)
  rw [other] at possible
  have otherNonneg : 0 ≤ 1 - share := by
    rw [← other]
    exact div_nonneg (Wave.normSq_nonneg _) positive.le
  rcases otherNonneg.eq_or_lt with none | some
  · exact .inl (sub_eq_zero.1 none.symm).symm
  · exact .inr (possible some)

/-- A shot returns the outcome of a path exactly if its source selects the path. -/
theorem exists_shoot_eq_ok_iff
    {G : Type}
    [DrawSource G ℝ]
    (program : Program ℝ)
    {tolerance : ℝ}
    (nonneg : 0 ≤ tolerance)
    (source : G)
    (path : Qubit → Bool) :
    (∃ rest, program.shoot tolerance source =
        .ok (.along path program.pattern.measured, rest)) ↔
      Wave.SelectedBy source path program.pattern.commands
        (program.pattern.initialWave program.width) := by
  constructor
  · rintro ⟨rest, success⟩
    obtain ⟨other, _, selected, shot⟩ := program.exists_shoot_eq_ok nonneg source
    have same := (Prod.mk.inj (Except.ok.inj (shot.symm.trans success))).1
    exact (Wave.selectedBy_congr source program.lawful.legal
      (fun qubit => Outcome.eq_of_along_eq same) _).1 selected
  · intro selected
    exact ⟨_, program.shoot_eq_ok_of_selectedBy nonneg selected⟩

/-! ## Boxes of draws -/

/-- The draws in the unit interval, one for each measurement, on which a shot returns the
outcome. -/
def drawsFor
    (program : Program ℝ)
    (tolerance : ℝ)
    (outcome : Outcome) : Set (Fin program.pattern.measured.length → ℝ) :=
  {draws | (∀ index, draws index ∈ Set.Ico 0 1) ∧
    ∃ rest, program.shoot tolerance (DrawSource.ofDraws draws) = .ok (outcome, rest)}

/-- The conditional probability of the bit at the measurement with the given number. -/
noncomputable def shareAt
    (program : Program ℝ)
    (path : Qubit → Bool)
    (index : Fin program.pattern.measured.length) : ℝ :=
  (Wave.conditionals path program.pattern.commands
    (program.pattern.initialWave program.width)).get
      (index.cast (Wave.length_conditionals ..).symm)

/-- Where the draws begin that select the bit at the measurement with the given
number. -/
noncomputable def lowerAt
    (program : Program ℝ)
    (path : Qubit → Bool)
    (index : Fin program.pattern.measured.length) : ℝ :=
  lowerDraw (path (program.pattern.measured.get index)) (program.shareAt path index)

variable {program : Program ℝ}

theorem shareAt_mem
    (path : Qubit → Bool)
    (index : Fin program.pattern.measured.length) :
    program.shareAt path index ∈ Wave.conditionals path program.pattern.commands
      (program.pattern.initialWave program.width) :=
  List.get_mem _ _

/-- The lengths of the sides multiply to the probability of the path. -/
theorem prod_shareAt
    {path : Qubit → Bool}
    (kept : Wave.Kept path program.pattern.commands
      (program.pattern.initialWave program.width)) :
    ∏ index, program.shareAt path index =
      (Wave.follow path program.pattern.commands
        (program.pattern.initialWave program.width)).normSq := by
  have unit := program.pattern.normSq_initialWave program.width
  rw [← kept.prod_conditionals_mul (unit ▸ one_pos), unit, mul_one,
    ← Fin.prod_univ_getElem]
  exact Fin.prod_congr' _ (Wave.length_conditionals ..).symm

/-- The draws that select a path are those in its box. -/
theorem ClearOfFloor.mem_box_iff
    {tolerance : ℝ}
    (clear : program.ClearOfFloor tolerance)
    (nonneg : 0 ≤ tolerance)
    {path : Qubit → Bool}
    (kept : Wave.Kept path program.pattern.commands
      (program.pattern.initialWave program.width))
    {G : Type}
    [DrawSource G ℝ]
    (source : G) :
    (∀ index, DrawSource.first program.pattern.measured.length source index ∈
        Set.Ico (program.lowerAt path index)
          (program.lowerAt path index + program.shareAt path index)) ↔
      (∀ index, DrawSource.first program.pattern.measured.length source index ∈
        Set.Ico 0 1) ∧
      Wave.SelectedBy source path program.pattern.commands
        (program.pattern.initialWave program.width) := by
  have side (index : Fin program.pattern.measured.length) (draw : ℝ) :
      draw ∈ Set.Ico (program.lowerAt path index)
          (program.lowerAt path index + program.shareAt path index) ↔
        draw ∈ Set.Ico 0 1 ∧ path (program.pattern.measured.get index) =
          selectedBit (bitShare (path (program.pattern.measured.get index))
            (program.shareAt path index)) draw :=
    mem_Ico_lowerDraw_iff (kept _ (shareAt_mem path index))
      (clear.eq_one_or nonneg kept (shareAt_mem path index)) draw
  unfold Wave.SelectedBy
  rw [selects_iff path (Wave.length_conditionals ..).symm]
  simp only [side, forall_and]
  rfl

/-- The draws on which a shot returns the outcome of a path form the box of the path. -/
theorem ClearOfFloor.drawsFor_eq
    {tolerance : ℝ}
    (clear : program.ClearOfFloor tolerance)
    (nonneg : 0 ≤ tolerance)
    {path : Qubit → Bool}
    (kept : Wave.Kept path program.pattern.commands
      (program.pattern.initialWave program.width)) :
    program.drawsFor tolerance (.along path program.pattern.measured) =
      Set.univ.pi fun index => Set.Ico (program.lowerAt path index)
        (program.lowerAt path index + program.shareAt path index) := by
  ext draws
  have box := clear.mem_box_iff nonneg kept (DrawSource.ofDraws draws)
  rw [DrawSource.first_ofDraws] at box
  rw [Set.mem_univ_pi, box, ← program.exists_shoot_eq_ok_iff nonneg]
  rfl

/-- Only the draws that a shot takes decide about its outcome. -/
theorem ClearOfFloor.first_mem_drawsFor_iff
    {tolerance : ℝ}
    (clear : program.ClearOfFloor tolerance)
    (nonneg : 0 ≤ tolerance)
    {outcome : Outcome}
    (occurs : outcome ∈ program.pathDistribution.keys)
    {G : Type}
    [DrawSource G ℝ]
    (source : G) :
    DrawSource.first program.pattern.measured.length source ∈
        program.drawsFor tolerance outcome ↔
      (∀ index, DrawSource.first program.pattern.measured.length source index ∈
        Set.Ico 0 1) ∧
      ∃ rest, program.shoot tolerance source = .ok (outcome, rest) := by
  obtain ⟨path, kept, rfl⟩ := (program.mem_keys_pathDistribution_iff outcome).1 occurs
  have returned := program.exists_shoot_eq_ok_iff nonneg source path
  have box := clear.mem_box_iff nonneg kept source
  rw [← returned] at box
  exact (clear.drawsFor_eq nonneg kept ▸ Set.mem_univ_pi).trans box

/-- Different outcomes are returned on different draws. -/
theorem disjoint_drawsFor
    (tolerance : ℝ)
    {first second : Outcome}
    (different : first ≠ second) :
    program.drawsFor tolerance first ∩ program.drawsFor tolerance second = ∅ := by
  rw [Set.eq_empty_iff_forall_notMem]
  rintro draws ⟨⟨_, rest, success⟩, _, otherRest, otherSuccess⟩
  exact different (Prod.mk.inj (Except.ok.inj (success.symm.trans otherSuccess))).1

/-- On all draws some outcome of the distribution is returned. -/
theorem iUnion_drawsFor
    {tolerance : ℝ}
    (nonneg : 0 ≤ tolerance) :
    ⋃ outcome ∈ program.pathDistribution.keys, program.drawsFor tolerance outcome =
      Set.univ.pi fun _ => Set.Ico 0 1 := by
  ext draws
  simp only [Set.mem_iUnion, Set.mem_univ_pi, exists_prop]
  constructor
  · rintro ⟨_, _, inside, _⟩
    exact inside
  · intro inside
    obtain ⟨path, kept, _, shot⟩ :=
      program.exists_shoot_eq_ok nonneg (DrawSource.ofDraws draws)
    exact ⟨_, (program.along_mem_keys_pathDistribution_iff path).2 kept, inside, _, shot⟩

/-- Shots sample from the exact distribution: the draws on which a shot
returns an outcome form a box with the probability of the outcome as volume,
and the disjoint boxes of all outcomes fill the unit cube. -/
theorem shots_sample_exactly
    {program : Program ℝ}
    {tolerance : ℝ}
    {distribution : Distribution ℝ}
    (clear : program.ClearOfFloor tolerance)
    (success : program.enumerate tolerance = .ok distribution) :
    (∀ outcome ∈ distribution.keys,
      ∃ lower upper : Fin program.pattern.measured.length → ℝ,
        (∀ index, lower index < upper index) ∧
        program.drawsFor tolerance outcome =
          Set.univ.pi (fun index => Set.Ico (lower index) (upper index)) ∧
        ∏ index, (upper index - lower index) = distribution.probability outcome) ∧
    (∀ first ∈ distribution.keys, ∀ second ∈ distribution.keys, first ≠ second →
      program.drawsFor tolerance first ∩ program.drawsFor tolerance second = ∅) ∧
    ⋃ outcome ∈ distribution.keys, program.drawsFor tolerance outcome =
      Set.univ.pi (fun _ => Set.Ico 0 1) ∧
    ∀ (G : Type) [DrawSource G ℝ] (source : G), ∀ outcome ∈ distribution.keys,
      (DrawSource.first program.pattern.measured.length source ∈
          program.drawsFor tolerance outcome ↔
        (∀ index, DrawSource.first program.pattern.measured.length source index ∈
          Set.Ico 0 1) ∧
        ∃ rest, program.shoot tolerance source = .ok (outcome, rest)) := by
  have nonneg := nonneg_of_enumerate_eq_ok success
  rw [eq_pathDistribution success]
  refine ⟨fun outcome occurs => ?_, fun first _ second _ => disjoint_drawsFor tolerance,
    iUnion_drawsFor nonneg,
    fun G _ source outcome occurs => clear.first_mem_drawsFor_iff nonneg occurs source⟩
  obtain ⟨path, kept, rfl⟩ := (program.mem_keys_pathDistribution_iff outcome).1 occurs
  refine ⟨program.lowerAt path,
    fun index => program.lowerAt path index + program.shareAt path index,
    fun index => ?_, clear.drawsFor_eq nonneg kept, ?_⟩
  · exact lt_add_of_pos_right _
      (Scalar.probabilityFloor_pos.trans (kept _ (shareAt_mem path index)))
  · simp only [add_sub_cancel_left]
    rw [prod_shareAt kept]
    exact (program.probability_pathDistribution kept).symm

theorem shots_sample_fair :
    ∃ distribution, fair.enumerate 0 = .ok distribution ∧
      (∀ outcome ∈ distribution.keys, ∃ lower upper : Fin 2 → ℝ,
        (∀ index, lower index < upper index) ∧
        fair.drawsFor 0 outcome =
          Set.univ.pi (fun index => Set.Ico (lower index) (upper index)) ∧
        ∏ index, (upper index - lower index) = distribution.probability outcome) ∧
      ⋃ outcome ∈ distribution.keys, fair.drawsFor 0 outcome =
        Set.univ.pi (fun _ => Set.Ico 0 1) := by
  have clear := clearOfFloor_fair le_rfl
  have success := clear.enumerate_eq_ok le_rfl
  obtain ⟨boxes, _, filled, _⟩ := shots_sample_exactly clear success
  exact ⟨_, success, boxes, filled⟩

end Program

end MeasurementCalculus
