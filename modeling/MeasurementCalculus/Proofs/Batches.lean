import MeasurementCalculus.Proofs.Draws

/-!
# Batches of shots

A simulator first draws one word for each shot and then runs every shot on a
generator of its own, which is started from that word. So shots can be sampled
in one batch or in several batches one after another, and a batch fails with
the error of its first failing shot. Nothing is assumed of the arithmetic and
of the generator.
-/

namespace MeasurementCalculus

/-! ## Words of a generator -/

namespace Generator

variable {G : Type} [Generator G]

/-- The generator after a number of words. -/
def after : Nat → G → G
  | 0, generator => generator
  | count + 1, generator => after count (word generator).2

/-- The word at a position, counted from zero. -/
def wordAt
    (generator : G)
    (index : Nat) : UInt64 :=
  (word (after index generator)).1

theorem words_eq
    (generator : G)
    (count : Nat) :
    words generator count =
      ((List.range count).map (wordAt generator), after count generator) := by
  induction count generalizing generator with
  | zero => rfl
  | succ count inductionHypothesis =>
      have later : (List.range count).map (wordAt (word generator).2) =
          (List.range count).map (wordAt generator ∘ Nat.succ) := rfl
      rw [words_succ, inductionHypothesis, List.range_succ_eq_map, List.map_cons,
        List.map_map, later]
      rfl

theorem words_add
    (generator : G)
    (first second : Nat) :
    words generator (first + second) =
      ((words generator first).1 ++ (words (words generator first).2 second).1,
        (words (words generator first).2 second).2) := by
  induction first generalizing generator with
  | zero => rw [Nat.zero_add, words_zero, List.nil_append]
  | succ first inductionHypothesis =>
      rw [Nat.succ_add, words_succ, inductionHypothesis, words_succ, List.cons_append]

end Generator

/-! ## Computations on a list -/

/-- A computation succeeds on a list exactly if it succeeds on each member. -/
theorem mapM_eq_ok_iff
    {ε α β : Type}
    {computation : α → Except ε β}
    {members : List α}
    {results : List β} :
    members.mapM computation = .ok results ↔
      List.Forall₂ (fun member result => computation member = .ok result)
        members results := by
  refine ⟨forall₂_of_mapM_eq_ok, fun pairs => ?_⟩
  induction pairs with
  | nil => rfl
  | cons here _ inductionHypothesis =>
      rw [List.mapM_cons, here, ok_bind, inductionHypothesis]
      rfl

/-- A computation on numbers succeeds with one result for each of them. -/
theorem mapM_range_eq_ok_iff
    {ε β : Type}
    {computation : Nat → Except ε β}
    {count : Nat}
    {results : List β} :
    (List.range count).mapM computation = .ok results ↔
      results.length = count ∧
      ∀ index < count, ∃ result, results[index]? = some result ∧
        computation index = .ok result := by
  simp only [mapM_eq_ok_iff, List.forall₂_iff_get, List.length_range,
    List.get_eq_getElem, List.getElem_range]
  constructor
  · rintro ⟨rfl, pairs⟩
    exact ⟨rfl, fun index below =>
      ⟨results[index], List.getElem?_eq_getElem below, pairs index below below⟩⟩
  · rintro ⟨rfl, succeeds⟩
    refine ⟨rfl, fun index below _ => ?_⟩
    obtain ⟨result, there, success⟩ := succeeds index below
    obtain ⟨_, rfl⟩ := List.getElem?_eq_some_iff.1 there
    exact success

theorem bind_ok_eq_error_iff
    {ε α β : Type}
    {computation : Except ε α}
    {result : α → β}
    {error : ε} :
    (computation >>= fun value => .ok (result value)) = .error error ↔
      computation = .error error := by
  cases computation with
  | error other =>
      constructor
      · rintro ⟨⟩
        rfl
      · rintro ⟨⟩
        rfl
  | ok value => exact ⟨nofun, nofun⟩

/-- A computation on numbers fails with the error of the first number on which it
fails. -/
theorem mapM_range_eq_error_iff
    {ε β : Type}
    {computation : Nat → Except ε β}
    {count : Nat}
    {error : ε} :
    (List.range count).mapM computation = .error error ↔
      ∃ index < count, computation index = .error error ∧
        ∀ earlier < index, ∃ result, computation earlier = .ok result := by
  induction count generalizing computation with
  | zero => exact ⟨nofun, fun ⟨_, below, _⟩ => absurd below (Nat.not_lt_zero _)⟩
  | succ count inductionHypothesis =>
      -- Behind the number zero follow the successors of the smaller range.
      rw [List.range_succ_eq_map, List.mapM_cons, List.mapM_map]
      cases here : computation 0 with
      | error first =>
          constructor
          · rintro ⟨⟩
            exact ⟨0, Nat.succ_pos count, here, fun _ before => nomatch before⟩
          · rintro ⟨index, below, failed, succeeded⟩
            cases index with
            | zero =>
                cases here.symm.trans failed
                rfl
            | succ index =>
                obtain ⟨result, success⟩ := succeeded 0 (Nat.succ_pos index)
                cases here.symm.trans success
      | ok first =>
          refine (bind_ok_eq_error_iff.trans inductionHypothesis).trans ⟨?_, ?_⟩
          · rintro ⟨index, below, failed, succeeded⟩
            refine ⟨index + 1, Nat.succ_lt_succ below, failed, fun earlier before => ?_⟩
            cases earlier with
            | zero => exact ⟨first, here⟩
            | succ earlier => exact succeeded earlier (Nat.lt_of_succ_lt_succ before)
          · rintro ⟨index, below, failed, succeeded⟩
            cases index with
            | zero => cases here.symm.trans failed
            | succ index =>
                exact ⟨index, Nat.lt_of_succ_lt_succ below, failed,
                  fun earlier before => succeeded (earlier + 1) (Nat.succ_lt_succ before)⟩

/-! ## Batches -/

namespace Simulator

variable {R G : Type} [Scalar R] [Generator G] [DrawSource G R]

/-- The shot that belongs to a word: it runs on the generator that is started from the
word. -/
def shot
    (simulator : Simulator R)
    (G : Type)
    [Generator G]
    [DrawSource G R]
    (program : Program R)
    (seed : UInt64) : Except (Error R) Outcome :=
  (program.shoot simulator.tolerance (Generator.ofSeed seed : G)).map Prod.fst

/-- A batch checks the capacity, draws its words and then runs the shots of the words. -/
theorem shotsFrom_eq
    (simulator : Simulator R)
    (program : Program R)
    (count : Nat)
    (generator : G) :
    simulator.shotsFrom program count generator = (do
      simulator.checkCapacity program
      let outcomes ← (Generator.words generator count).1.mapM (simulator.shot G program)
      .ok (outcomes, (Generator.words generator count).2)) := rfl

/-- A batch is a smaller batch followed by a batch of the other shots, which begins with
the generator that the smaller one leaves behind. -/
theorem shotsFrom_add
    (simulator : Simulator R)
    (program : Program R)
    (first second : Nat)
    (generator : G) :
    simulator.shotsFrom program (first + second) generator = (do
      let (earlier, between) ← simulator.shotsFrom program first generator
      let (later, final) ← simulator.shotsFrom program second between
      .ok (earlier ++ later, final)) := by
  simp only [shotsFrom_eq, Generator.words_add, List.mapM_append]
  cases simulator.checkCapacity program with
  | error error => rfl
  | ok _ =>
      simp only [ok_bind]
      cases (Generator.words generator first).1.mapM (simulator.shot G program) with
      | error error => rfl
      | ok earlier =>
          simp only [ok_bind]
          cases (Generator.words (Generator.words generator first).2 second).1.mapM
            (simulator.shot G program) with
          | error error => rfl
          | ok later => rfl

/-- Two batches one after another succeed exactly if the batch of all their shots does. -/
theorem shotsFrom_add_eq_ok_iff
    {simulator : Simulator R}
    {program : Program R}
    {first second : Nat}
    {generator final : G}
    {outcomes : List Outcome} :
    simulator.shotsFrom program (first + second) generator = .ok (outcomes, final) ↔
      ∃ earlier between later,
        simulator.shotsFrom program first generator = .ok (earlier, between) ∧
        simulator.shotsFrom program second between = .ok (later, final) ∧
        outcomes = earlier ++ later := by
  rw [shotsFrom_add]
  constructor
  · intro success
    obtain ⟨⟨earlier, between⟩, before, continued⟩ := bind_eq_ok success
    obtain ⟨⟨later, last⟩, after, joined⟩ := bind_eq_ok continued
    cases joined
    exact ⟨earlier, between, later, before, after, rfl⟩
  · rintro ⟨earlier, between, later, before, after, rfl⟩
    simp only [before, after, ok_bind]

section Capacity

variable {simulator : Simulator R} {program : Program R} {count : Nat} {generator : G}

/-- Within the capacity a batch consists of the shots of the words of its generator. -/
theorem shotsFrom_eq_of_fits (fits : program.width ≤ simulator.maxQubits) :
    simulator.shotsFrom program count generator = (do
      let outcomes ← (List.range count).mapM fun index =>
        simulator.shot G program (Generator.wordAt generator index)
      .ok (outcomes, Generator.after count generator)) := by
  have capacity : simulator.checkCapacity program = .ok () := if_neg (Nat.not_lt.2 fits)
  rw [shotsFrom_eq, capacity, ok_bind, Generator.words_eq, List.mapM_map]
  rfl

/-- A batch succeeds with the outcomes of its shots, one for each word. -/
theorem shotsFrom_eq_ok_iff
    (fits : program.width ≤ simulator.maxQubits)
    {outcomes : List Outcome}
    {final : G} :
    simulator.shotsFrom program count generator = .ok (outcomes, final) ↔
      outcomes.length = count ∧
      (∀ index < count, ∃ outcome, outcomes[index]? = some outcome ∧
        simulator.shot G program (Generator.wordAt generator index) = .ok outcome) ∧
      final = Generator.after count generator := by
  rw [shotsFrom_eq_of_fits fits]
  constructor
  · intro success
    obtain ⟨results, shots, same⟩ := bind_eq_ok success
    cases same
    rw [mapM_range_eq_ok_iff] at shots
    exact ⟨shots.1, shots.2, rfl⟩
  · rintro ⟨length, shots, rfl⟩
    rw [mapM_range_eq_ok_iff.2 ⟨length, shots⟩, ok_bind]

theorem shotsFrom_eq_error_iff
    (fits : program.width ≤ simulator.maxQubits)
    {error : Error R} :
    simulator.shotsFrom program count generator = .error error ↔
      ∃ index < count,
        simulator.shot G program (Generator.wordAt generator index) = .error error ∧
        ∀ earlier < index, ∃ outcome,
          simulator.shot G program (Generator.wordAt generator earlier) =
            .ok outcome := by
  rw [shotsFrom_eq_of_fits fits, bind_ok_eq_error_iff, mapM_range_eq_error_iff]

end Capacity

/-- Shots do not depend on the batches they are sampled in, because each of
them takes one word of the generator. A batch fails with the error of its
first failing shot. -/
theorem shots_independent_of_batching
    {simulator : Simulator R}
    {program : Program R}
    (fits : program.width ≤ simulator.maxQubits)
    (generator : G) :
    (∀ first second outcomes final,
      simulator.shotsFrom program (first + second) generator = .ok (outcomes, final) ↔
        ∃ earlier between later,
          simulator.shotsFrom program first generator = .ok (earlier, between) ∧
          simulator.shotsFrom program second between = .ok (later, final) ∧
          outcomes = earlier ++ later) ∧
    (∀ count outcomes final,
      simulator.shotsFrom program count generator = .ok (outcomes, final) ↔
        outcomes.length = count ∧
        (∀ index < count, ∃ outcome, outcomes[index]? = some outcome ∧
          simulator.shot G program (Generator.wordAt generator index) = .ok outcome) ∧
        final = Generator.after count generator) ∧
    ∀ count error,
      simulator.shotsFrom program count generator = .error error ↔
        ∃ index < count,
          simulator.shot G program (Generator.wordAt generator index) = .error error ∧
          ∀ earlier < index, ∃ outcome,
            simulator.shot G program (Generator.wordAt generator earlier) =
              .ok outcome := by
  refine ⟨fun first second outcomes final => ?_, fun count outcomes final => ?_,
    fun count error => ?_⟩
  · exact shotsFrom_add_eq_ok_iff
  · exact shotsFrom_eq_ok_iff fits
  · exact shotsFrom_eq_error_iff fits

end Simulator

/-- A generator that counts upwards from its seed. Its draws are the numbers divided by
the number of all words. -/
structure Counter where
  /-- The next number. -/
  next : UInt64

noncomputable section

instance : Generator Counter where
  ofSeed seed := ⟨seed⟩
  word counter := (counter.next, ⟨counter.next + 1⟩)

instance : DrawSource Counter ℝ where
  draw counter := (counter.next.toNat / UInt64.size, ⟨counter.next + 1⟩)

end

namespace Simulator

/-- Five shots are two shots followed by three. With a negative tolerance the batch fails
with the error of the shot of the first word. -/
theorem shots_independent_of_batching_adaptive :
    (∃ earlier between later final,
      ({ tolerance := 0 } : Simulator ℝ).shotsFrom Program.adaptive 2 (⟨7⟩ : Counter) =
        .ok (earlier, between) ∧
      ({ tolerance := 0 } : Simulator ℝ).shotsFrom Program.adaptive 3 between =
        .ok (later, final) ∧
      ({ tolerance := 0 } : Simulator ℝ).shotsFrom Program.adaptive 5 ⟨7⟩ =
        .ok (earlier ++ later, final) ∧
      later.length = 3 ∧ final = ⟨12⟩) ∧
    ∃ error,
      ({ tolerance := -1 } : Simulator ℝ).shot Counter Program.adaptive 7 =
        .error error ∧
      ({ tolerance := -1 } : Simulator ℝ).shotsFrom Program.adaptive 5 (⟨7⟩ : Counter) =
        .error error := by
  have fits (tolerance : ℝ) :
      Program.adaptive.width ≤ ({ tolerance } : Simulator ℝ).maxQubits := by
    change 2 ≤ 20
    decide
  constructor
  · obtain ⟨batches, successes, failures⟩ :=
      shots_independent_of_batching (fits 0) (⟨7⟩ : Counter)
    have succeeds (seed : UInt64) : ∃ outcome,
        ({ tolerance := 0 } : Simulator ℝ).shot Counter Program.adaptive seed =
          .ok outcome := by
      obtain ⟨path, _, _, reached⟩ :=
        Program.adaptive.exists_shoot_eq_ok le_rfl (Generator.ofSeed seed : Counter)
      exact ⟨_, congrArg (Except.map Prod.fst) reached⟩
    cases result : ({ tolerance := 0 } : Simulator ℝ).shotsFrom Program.adaptive 5
        (⟨7⟩ : Counter) with
    | error error =>
        obtain ⟨index, _, failed, _⟩ := (failures 5 error).1 result
        obtain ⟨outcome, success⟩ := succeeds (Generator.wordAt (⟨7⟩ : Counter) index)
        cases failed.symm.trans success
    | ok pair =>
        obtain ⟨outcomes, final⟩ := pair
        obtain ⟨length, _, rfl⟩ := (successes 5 outcomes final).1 result
        obtain ⟨earlier, between, later, before, after, rfl⟩ :=
          (batches 2 3 outcomes _).1 result
        obtain ⟨two, _, _⟩ := (successes 2 earlier between).1 before
        rw [List.length_append, two] at length
        exact ⟨earlier, between, later, _, before, after, rfl, by omega, rfl⟩
  · obtain ⟨_, _, failures⟩ := shots_independent_of_batching (fits (-1)) (⟨7⟩ : Counter)
    have failed : ({ tolerance := -1 } : Simulator ℝ).shot Counter Program.adaptive 7 =
        .error (.numeric .initialState 1 (-1)) :=
      congrArg (Except.map Prod.fst)
        (Program.adaptive.shoot_eq_error neg_one_lt_zero (Generator.ofSeed 7 : Counter))
    exact ⟨_, failed,
      (failures 5 _).2 ⟨0, by decide, failed, fun _ before => nomatch before⟩⟩

end Simulator

end MeasurementCalculus
