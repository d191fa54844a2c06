import MeasurementCalculus.Proofs.Real
import MeasurementCalculus.Tally

/-!
# The masses of a tally

Recording a mass changes the mass of its key and of no other, so after a list
of records every key has the sum of the masses recorded for it, added in their
order. Only sums over several keys need exact addition. Tallies are equal if
they have the same keys and every key has the same mass in both.
-/

namespace MeasurementCalculus

/-- The sum over the members with a property, as a sum over all members. -/
theorem sum_map_filter
    {α : Type}
    (test : α → Prop)
    [DecidablePred test]
    (weight : α → ℝ)
    (members : List α) :
    ((members.filter (decide <| test ·)).map weight).sum =
      (members.map fun member => if test member then weight member else 0).sum := by
  induction members with
  | nil => rfl
  | cons head tail inductionHypothesis =>
      rw [List.filter_cons, List.map_cons, List.sum_cons, ← inductionHypothesis]
      by_cases here : test head
      · simp [here]
      · simp [here]

namespace Tally

variable {κ R : Type} [Ord κ]

/-- The keys are strictly ascending. -/
theorem pairwise_keys (tally : Tally κ R) :
    tally.keys.Pairwise fun first second => compare first second = .lt := by
  unfold keys
  rw [List.pairwise_map]
  exact tally.ascending

variable [Std.TransOrd κ]

/-- Every key occurs once. -/
theorem nodup_keys (tally : Tally κ R) : tally.keys.Nodup := by
  refine tally.pairwise_keys.imp fun {first second} before same => ?_
  rw [same, Std.ReflOrd.compare_self] at before
  cases before

variable [Std.LawfulEqOrd κ]

section Record

variable [Zero R] [Add R]

omit [Std.TransOrd κ] in
theorem mem_keys_accumulate
    (key : κ)
    (mass : R)
    (entries : List (κ × R))
    (other : κ) :
    other ∈ (accumulate key mass entries).map Prod.fst ↔
      other = key ∨ other ∈ entries.map Prod.fst := by
  induction entries with
  | nil => simp [accumulate]
  | cons head tail inductionHypothesis =>
      rw [accumulate]
      split
      · simp
      · next same =>
          have equal := Std.LawfulEqOrd.eq_of_compare same
          simp [equal]
      · simp only [List.map_cons, List.mem_cons, inductionHypothesis]
        exact or_left_comm

/-- Recording adds one key. -/
theorem mem_keys_record
    (tally : Tally κ R)
    (key : κ)
    (mass : R)
    (other : κ) :
    other ∈ (tally.record key mass).keys ↔
      other = key ∨ other ∈ tally.keys :=
  mem_keys_accumulate key mass tally.entries other

/-- The keys after a list of records. -/
theorem mem_keys_recordAll
    (tally : Tally κ R)
    (masses : List (κ × R))
    (key : κ) :
    key ∈ (tally.recordAll masses).keys ↔
      key ∈ tally.keys ∨ key ∈ masses.map Prod.fst := by
  unfold recordAll
  induction masses generalizing tally with
  | nil => simp
  | cons head tail inductionHypothesis =>
      rw [List.foldl_cons, inductionHypothesis, mem_keys_record, List.map_cons,
        List.mem_cons, or_assoc, or_left_comm]

/-- The keys of a list of records from the beginning. -/
theorem mem_keys_recordAll_empty
    {masses : List (κ × R)}
    {key : κ} :
    key ∈ (empty.recordAll masses).keys ↔ key ∈ masses.map Prod.fst := by
  rw [mem_keys_recordAll]
  exact or_iff_right List.not_mem_nil

omit [Std.TransOrd κ] in
theorem beq_compare_iff (first second : κ) :
    (compare first second == .eq) = true ↔ first = second := by
  rw [beq_iff_eq]
  exact Std.LawfulEqOrd.compare_eq_iff_eq

omit [Std.TransOrd κ] in
/-- Recording under one key does not change what is found under another. -/
theorem find?_accumulate_of_ne
    {key other : κ}
    (different : other ≠ key)
    (mass : R)
    (entries : List (κ × R)) :
    ((accumulate key mass entries).find? fun entry =>
        compare other entry.1 == .eq) =
      entries.find? fun entry => compare other entry.1 == .eq := by
  have skipped : (compare other key == .eq) = false := by
    rwa [← Bool.not_eq_true, beq_compare_iff]
  induction entries with
  | nil => simp only [accumulate, List.find?_cons, skipped]
  | cons head tail inductionHypothesis =>
      rw [accumulate]
      split
      · simp only [List.find?_cons, skipped]
      · next same =>
          rw [Std.LawfulEqOrd.eq_of_compare same] at skipped
          simp only [List.find?_cons, skipped]
      · simp only [List.find?_cons, inductionHypothesis]

/-- Recording under a key adds to what is found under it. -/
theorem find?_accumulate_self
    (key : κ)
    (mass : R)
    {entries : List (κ × R)}
    (ascending : entries.Pairwise fun first second =>
      compare first.1 second.1 = .lt) :
    ((accumulate key mass entries).find? fun entry =>
        compare key entry.1 == .eq) =
      some (key,
        (match entries.find? fun entry => compare key entry.1 == .eq with
          | some entry => entry.2
          | none => 0) + mass) := by
  have found : (compare key key == .eq) = true := by
    rw [beq_compare_iff]
  induction entries with
  | nil => simp only [accumulate, List.find?_cons, found, List.find?_nil]
  | cons head tail inductionHypothesis =>
      obtain ⟨headFirst, tailAscending⟩ := List.pairwise_cons.1 ascending
      rw [accumulate]
      split
      · next before =>
          have absent : (head :: tail).find? (fun entry =>
              compare key entry.1 == .eq) = none := by
            rw [List.find?_eq_none]
            intro entry member equal
            have later : compare key entry.1 = .lt := by
              rcases List.mem_cons.1 member with rfl | inTail
              · exact before
              · exact Std.TransCmp.lt_trans before (headFirst entry inTail)
            rw [later] at equal
            cases equal
          rw [absent]
          simp only [List.find?_cons, found]
      · next same =>
          have equal := Std.LawfulEqOrd.eq_of_compare same
          rw [← equal]
          simp only [List.find?_cons, ← equal, found]
      · next after =>
          have skipped : (compare key head.1 == .eq) = false := by
            rw [after]
            rfl
          simp only [List.find?_cons, skipped, inductionHypothesis tailAscending]

variable [DecidableEq κ]

/-- Recording changes the mass of one key. -/
theorem mass_record
    (tally : Tally κ R)
    (key : κ)
    (mass : R)
    (other : κ) :
    (tally.record key mass).mass other =
      if key = other then tally.mass other + mass else tally.mass other := by
  unfold Tally.mass record
  by_cases same : key = other
  · subst same
    have found := find?_accumulate_self key mass tally.ascending
    rw [if_pos rfl]
    exact congrArg (fun result : Option (κ × R) =>
      match result with
      | some entry => entry.2
      | none => 0) found
  · rw [find?_accumulate_of_ne (Ne.symm same), if_neg same]

/-- The mass of a key after a list of records is the sum of the masses recorded for
it, in their order. -/
theorem mass_recordAll
    (tally : Tally κ R)
    (masses : List (κ × R))
    (key : κ) :
    (tally.recordAll masses).mass key =
      ((masses.filter fun entry => entry.1 = key).map Prod.snd).foldl (· + ·)
        (tally.mass key) := by
  unfold recordAll
  induction masses generalizing tally with
  | nil => rfl
  | cons head tail inductionHypothesis =>
      rw [List.foldl_cons, inductionHypothesis, mass_record, List.filter_cons]
      by_cases same : head.1 = key
      · simp [same]
      · simp [same]

end Record

/-! ## Entries of a tally -/

section Entries

/-- What is found under a key is an entry of this key. -/
theorem find?_eq_some_iff
    {tally : Tally κ R}
    {key : κ}
    {entry : κ × R} :
    (tally.entries.find? fun entry => compare key entry.1 == .eq) = some entry ↔
      entry ∈ tally.entries ∧ entry.1 = key := by
  constructor
  · intro found
    have same := List.find?_some found
    exact ⟨List.mem_of_find?_eq_some found, ((beq_compare_iff _ _).1 same).symm⟩
  · rintro ⟨member, rfl⟩
    have some : (tally.entries.find? fun other =>
        compare entry.1 other.1 == .eq).isSome := by
      rw [List.find?_isSome]
      exact ⟨entry, member, (beq_compare_iff _ _).2 rfl⟩
    obtain ⟨other, found⟩ := Option.isSome_iff_exists.1 some
    have same := List.find?_some found
    rw [found, List.inj_on_of_nodup_map tally.nodup_keys member
      (List.mem_of_find?_eq_some found) ((beq_compare_iff _ _).1 same)]

variable [Zero R]

theorem mass_of_mem_entries
    {tally : Tally κ R}
    {entry : κ × R}
    (member : entry ∈ tally.entries) :
    tally.mass entry.1 = entry.2 := by
  unfold Tally.mass
  rw [find?_eq_some_iff.2 ⟨member, rfl⟩]

omit [Std.TransOrd κ] in
theorem mass_of_notMem_keys
    {tally : Tally κ R}
    {key : κ}
    (absent : key ∉ tally.keys) :
    tally.mass key = 0 := by
  have none : (tally.entries.find? fun entry => compare key entry.1 == .eq) = none := by
    refine List.find?_eq_none.2 fun entry member same => absent ?_
    rw [(beq_compare_iff _ _).1 same]
    exact List.mem_map_of_mem member
  unfold Tally.mass
  rw [none]

/-- The entries of a tally are its keys with their masses. -/
theorem mem_entries_iff
    {tally : Tally κ R}
    {entry : κ × R} :
    entry ∈ tally.entries ↔ entry.1 ∈ tally.keys ∧ tally.mass entry.1 = entry.2 := by
  refine ⟨fun member => ⟨List.mem_map_of_mem member, mass_of_mem_entries member⟩, ?_⟩
  rintro ⟨member, same⟩
  obtain ⟨other, inside, sameKey⟩ := List.mem_map.1 member
  rw [← sameKey, mass_of_mem_entries inside] at same
  rwa [← Prod.ext sameKey same]

/-- Tallies with the same keys and the same masses are equal. -/
theorem eq_of_mass_eq
    {first second : Tally κ R}
    (sameKeys : ∀ key, key ∈ first.keys ↔ key ∈ second.keys)
    (sameMass : ∀ key, first.mass key = second.mass key) :
    first = second := by
  have perm := (List.perm_ext_iff_of_nodup first.nodup_keys.of_map
    second.nodup_keys.of_map).2 fun entry => by
      rw [mem_entries_iff, mem_entries_iff, sameKeys, sameMass]
  apply Tally.ext
  refine perm.eq_of_pairwise (fun one other _ _ before after => ?_) first.ascending
    second.ascending
  have circular := Std.TransCmp.lt_trans before after
  rw [Std.ReflOrd.compare_self] at circular
  cases circular

variable [Add R] [DecidableEq κ]

/-- Two lists of records give the same tally if they record the same masses for every key
in the same order. The order of records of different keys does not matter. -/
theorem recordAll_congr
    (tally : Tally κ R)
    {first second : List (κ × R)}
    (same : ∀ key,
      (first.filter fun entry => entry.1 = key).map Prod.snd =
        (second.filter fun entry => entry.1 = key).map Prod.snd) :
    tally.recordAll first = tally.recordAll second := by
  have recorded (masses : List (κ × R)) (key : κ) : key ∈ masses.map Prod.fst ↔
      (masses.filter fun entry => entry.1 = key).map Prod.snd ≠ [] := by
    rw [ne_eq, List.map_eq_nil_iff, List.filter_eq_nil_iff]
    simp
  refine eq_of_mass_eq (fun key => ?_) fun key => ?_
  · rw [mem_keys_recordAll, mem_keys_recordAll, recorded, recorded, same]
  · rw [mass_recordAll, mass_recordAll, same]

end Entries

/-! ## Exact masses -/

section Exact

/-- The sum of the masses of the keys with a property. -/
noncomputable def massWhere
    (tally : Tally κ ℝ)
    (property : κ → Prop)
    [DecidablePred property] : ℝ :=
  ((tally.entries.filter fun entry => property entry.1).map Prod.snd).sum

variable {property : κ → Prop} [DecidablePred property]

omit [Std.TransOrd κ] [Std.LawfulEqOrd κ] in
theorem massWhere_empty : (empty : Tally κ ℝ).massWhere property = 0 := rfl

omit [Std.TransOrd κ] [Std.LawfulEqOrd κ] in
theorem massWhere_congr
    {tally : Tally κ ℝ}
    {other : κ → Prop}
    [DecidablePred other]
    (same : ∀ key ∈ tally.keys, property key ↔ other key) :
    tally.massWhere property = tally.massWhere other := by
  unfold massWhere
  refine congrArg (fun entries => (List.map Prod.snd entries).sum)
    (List.filter_congr fun entry member => ?_)
  rw [decide_eq_decide]
  exact same entry.1 (List.mem_map_of_mem member)

omit [Std.TransOrd κ] [Std.LawfulEqOrd κ] in
theorem total_eq_massWhere (tally : Tally κ ℝ) :
    tally.total = tally.massWhere fun _ => True := by
  unfold massWhere
  rw [total, Scalar.sum_real, List.filter_eq_self.2 fun _ _ => decide_eq_true trivial]

/-- The mass of a key is the sum over this key alone. -/
theorem mass_eq_massWhere
    [DecidableEq κ]
    (tally : Tally κ ℝ)
    (key : κ) :
    tally.mass key = tally.massWhere fun other => other = key := by
  unfold massWhere
  by_cases member : key ∈ tally.keys
  · obtain ⟨entry, inside, rfl⟩ := List.mem_map.1 member
    have alone : (tally.entries.filter fun other => other.1 = entry.1).Perm [entry] := by
      refine (List.perm_ext_iff_of_nodup (tally.nodup_keys.of_map.filter _)
        (List.nodup_singleton entry)).2 fun other => ?_
      rw [List.mem_filter, List.mem_singleton, decide_eq_true_iff]
      constructor
      · rintro ⟨there, same⟩
        exact List.inj_on_of_nodup_map tally.nodup_keys there inside same
      · rintro rfl
        exact ⟨inside, rfl⟩
    rw [mass_of_mem_entries inside, (alone.map Prod.snd).sum_eq, List.map_singleton,
      List.sum_singleton]
  · have none : (tally.entries.filter fun other => other.1 = key) = [] := by
      refine List.filter_eq_nil_iff.2 fun entry inside same => member ?_
      rw [← of_decide_eq_true same]
      exact List.mem_map_of_mem inside
    rw [mass_of_notMem_keys member, none, List.map_nil, List.sum_nil]

omit [Std.TransOrd κ] in
theorem sum_filter_accumulate
    (key : κ)
    (mass : ℝ)
    (entries : List (κ × ℝ)) :
    (((accumulate key mass entries).filter fun entry => property entry.1).map
        Prod.snd).sum =
      ((entries.filter fun entry => property entry.1).map Prod.snd).sum +
        if property key then mass else 0 := by
  induction entries with
  | nil =>
      rw [accumulate]
      by_cases has : property key
      · simp [has]
      · simp [has]
  | cons head tail inductionHypothesis =>
      rw [accumulate]
      split
      · rw [List.filter_cons]
        by_cases has : property key
        · rw [if_pos (decide_eq_true has), if_pos has, List.map_cons, List.sum_cons,
            zero_add, add_comm]
        · rw [if_neg (by simpa using has), if_neg has, add_zero]
      · next same =>
          rw [Std.LawfulEqOrd.eq_of_compare same]
          by_cases has : property head.1
          · simp only [List.filter_cons, has, decide_true, if_true, List.map_cons,
              List.sum_cons]
            ring
          · simp [has]
      · by_cases has : property head.1
        · simp only [List.filter_cons, has, decide_true, if_true, List.map_cons,
            List.sum_cons, inductionHypothesis, add_assoc]
        · simp only [List.filter_cons, has, decide_false, Bool.false_eq_true, if_false,
            inductionHypothesis]

/-- Records add their masses to that of the keys with a property. -/
theorem massWhere_recordAll
    (tally : Tally κ ℝ)
    (masses : List (κ × ℝ)) :
    (tally.recordAll masses).massWhere property =
      tally.massWhere property +
        ((masses.filter fun entry => property entry.1).map Prod.snd).sum := by
  unfold recordAll
  induction masses generalizing tally with
  | nil => simp
  | cons head tail inductionHypothesis =>
      have recorded : (tally.record head.1 head.2).massWhere property =
          tally.massWhere property + if property head.1 then head.2 else 0 :=
        sum_filter_accumulate head.1 head.2 tally.entries
      rw [List.foldl_cons, inductionHypothesis, recorded, List.filter_cons, add_assoc]
      by_cases has : property head.1
      · simp [has]
      · simp [has]

/-- With exact addition the mass of a key after a list of records from the beginning is the
sum of the masses recorded for it. -/
theorem mass_recordAll_empty
    [DecidableEq κ]
    (masses : List (κ × ℝ))
    (key : κ) :
    (empty.recordAll masses).mass key =
      ((masses.filter fun entry => entry.1 = key).map Prod.snd).sum := by
  rw [mass_eq_massWhere, massWhere_recordAll, massWhere_empty, zero_add]

/-- The total after a list of records is the sum of all recorded masses. -/
theorem total_recordAll
    (tally : Tally κ ℝ)
    (masses : List (κ × ℝ)) :
    (tally.recordAll masses).total =
      tally.total + (masses.map Prod.snd).sum := by
  rw [total_eq_massWhere, total_eq_massWhere, massWhere_recordAll,
    List.filter_eq_self.2 fun _ _ => decide_eq_true trivial]

/-- The order of the records does not matter. -/
theorem recordAll_perm
    [DecidableEq κ]
    (tally : Tally κ ℝ)
    {first second : List (κ × ℝ)}
    (perm : first.Perm second) :
    tally.recordAll first = tally.recordAll second := by
  refine eq_of_mass_eq (fun key => ?_) fun key => ?_
  · rw [mem_keys_recordAll, mem_keys_recordAll, (perm.map Prod.fst).mem_iff]
  · rw [mass_eq_massWhere, mass_eq_massWhere, massWhere_recordAll, massWhere_recordAll,
      ((perm.filter _).map Prod.snd).sum_eq]

end Exact

/-! ## Entries under other names -/

section Fresh

variable [Zero R] [Add R]

omit [Std.TransOrd κ] [Std.LawfulEqOrd κ] in
/-- Recording under a new key adds one entry. -/
theorem accumulate_perm
    {key : κ}
    {mass : R}
    {entries : List (κ × R)}
    (fresh : ∀ entry ∈ entries, compare key entry.1 ≠ .eq) :
    (accumulate key mass entries).Perm ((key, 0 + mass) :: entries) := by
  induction entries with
  | nil => rw [accumulate]
  | cons head tail inductionHypothesis =>
      rw [List.forall_mem_cons] at fresh
      rw [accumulate]
      split
      · exact List.Perm.refl _
      · next same => exact absurd same fresh.1
      · exact ((inductionHypothesis fresh.2).cons head).trans (.swap _ _ _)

/-- If no key is recorded twice, the records become the entries, each added to zero and
in another order. -/
theorem entries_recordAll_perm
    (tally : Tally κ R)
    {masses : List (κ × R)}
    (nodup : (masses.map Prod.fst).Nodup)
    (fresh : ∀ entry ∈ masses, entry.1 ∉ tally.keys) :
    (tally.recordAll masses).entries.Perm
      (tally.entries ++ masses.map fun entry => (entry.1, 0 + entry.2)) := by
  unfold recordAll
  induction masses generalizing tally with
  | nil => rw [List.map_nil, List.append_nil, List.foldl_nil]
  | cons head tail inductionHypothesis =>
      rw [List.map_cons, List.nodup_cons] at nodup
      rw [List.forall_mem_cons] at fresh
      have recorded : (tally.record head.1 head.2).entries.Perm
          ((head.1, 0 + head.2) :: tally.entries) := by
        refine accumulate_perm fun entry member same => ?_
        rw [Std.LawfulEqOrd.eq_of_compare same] at fresh
        exact fresh.1 (List.mem_map_of_mem member)
      have later : ∀ entry ∈ tail, entry.1 ∉ (tally.record head.1 head.2).keys := by
        intro entry member there
        rcases (mem_keys_record _ _ _ _).1 there with same | old
        · exact nodup.1 (same ▸ List.mem_map_of_mem member)
        · exact fresh.2 entry member old
      rw [List.foldl_cons]
      refine (inductionHypothesis _ nodup.2 later).trans ?_
      exact (recorded.append_right _).trans List.perm_middle.symm

end Fresh

section Images

variable {ι : Type} [Ord ι] [Std.TransOrd ι] [Std.LawfulEqOrd ι]

/-- Two tallies have the same masses under keys that are renamed: the entries of the
second are those of the first with their keys renamed, in the order of the new keys. -/
def Renames
    (rename : κ → ι)
    (first : Tally κ ℝ)
    (second : Tally ι ℝ) : Prop :=
  second.entries.Perm (first.entries.map fun entry => (rename entry.1, entry.2))

omit [Std.TransOrd κ] [Std.LawfulEqOrd κ] [Std.TransOrd ι] [Std.LawfulEqOrd ι] in
theorem Renames.total_eq
    {rename : κ → ι}
    {first : Tally κ ℝ}
    {second : Tally ι ℝ}
    (renames : first.Renames rename second) :
    second.total = first.total := by
  have sums := (List.Perm.map Prod.snd renames).sum_eq
  rw [List.map_map] at sums
  rw [total, total, Scalar.sum_real, Scalar.sum_real, sums]
  rfl

/-! ## Tallies of positive masses -/

/-- Every entry has a positive mass. -/
def Positive (tally : Tally κ ℝ) : Prop :=
  ∀ entry ∈ tally.entries, 0 < entry.2

omit [Std.TransOrd κ] [Std.LawfulEqOrd κ] in
theorem pos_of_mem_accumulate
    {key : κ}
    {mass : ℝ}
    (pos : 0 < mass)
    {entries : List (κ × ℝ)}
    (positive : ∀ entry ∈ entries, 0 < entry.2) :
    ∀ entry ∈ accumulate key mass entries, 0 < entry.2 := by
  induction entries with
  | nil => simpa [accumulate] using pos
  | cons head tail inductionHypothesis =>
      obtain ⟨here, later⟩ := List.forall_mem_cons.1 positive
      rw [accumulate]
      split
      · rw [List.forall_mem_cons, zero_add]
        exact ⟨pos, positive⟩
      · rw [List.forall_mem_cons]
        exact ⟨add_pos here pos, later⟩
      · rw [List.forall_mem_cons]
        exact ⟨here, inductionHypothesis later⟩

omit [Std.LawfulEqOrd κ] in
/-- Positive records keep a tally positive. -/
theorem Positive.recordAll
    {tally : Tally κ ℝ}
    (positive : tally.Positive)
    {masses : List (κ × ℝ)}
    (pos : ∀ entry ∈ masses, 0 < entry.2) :
    (tally.recordAll masses).Positive := by
  unfold Tally.recordAll
  induction masses generalizing tally with
  | nil => exact positive
  | cons head tail inductionHypothesis =>
      obtain ⟨here, later⟩ := List.forall_mem_cons.1 pos
      exact inductionHypothesis (pos_of_mem_accumulate here positive) later

omit [Std.TransOrd κ] [Std.LawfulEqOrd κ] [Std.LawfulEqOrd ι] in
theorem Positive.pushforward
    {tally : Tally κ ℝ}
    (positive : tally.Positive)
    (image : κ → Option ι) :
    (tally.pushforward image).Positive := by
  refine Positive.recordAll (fun _ absent => absurd absent List.not_mem_nil) ?_
  intro entry member
  obtain ⟨earlier, inside, named⟩ := List.mem_filterMap.1 member
  obtain ⟨key, _, rfl⟩ := Option.map_eq_some_iff.1 named
  exact positive earlier inside

theorem Positive.mem_keys_iff
    {tally : Tally κ ℝ}
    (positive : tally.Positive)
    (key : κ) :
    key ∈ tally.keys ↔ 0 < tally.mass key := by
  refine ⟨fun member => ?_, fun pos => ?_⟩
  · obtain ⟨entry, inside, rfl⟩ := List.mem_map.1 member
    rw [mass_of_mem_entries inside]
    exact positive entry inside
  · by_contra absent
    exact pos.ne' (mass_of_notMem_keys absent)

/-- Positive tallies with the same masses are equal. -/
theorem Positive.eq_of_mass_eq
    {first second : Tally κ ℝ}
    (firstPositive : first.Positive)
    (secondPositive : second.Positive)
    (same : ∀ key, first.mass key = second.mass key) :
    first = second := by
  refine Tally.eq_of_mass_eq (fun key => ?_) same
  rw [firstPositive.mem_keys_iff, secondPositive.mem_keys_iff, same]

/-! ## Images of the keys -/

omit [Std.TransOrd κ] [Std.LawfulEqOrd κ] in
/-- The keys of a pushforward are the images of the keys. -/
theorem mem_keys_pushforward
    [Zero R]
    [Add R]
    {image : κ → Option ι}
    {tally : Tally κ R}
    {key : ι} :
    key ∈ (tally.pushforward image).keys ↔
      ∃ source ∈ tally.keys, image source = some key := by
  unfold pushforward
  rw [mem_keys_recordAll_empty]
  constructor
  · intro member
    obtain ⟨recorded, inside, rfl⟩ := List.mem_map.1 member
    obtain ⟨entry, there, named⟩ := List.mem_filterMap.1 inside
    obtain ⟨target, hasImage, rfl⟩ := Option.map_eq_some_iff.1 named
    exact ⟨entry.1, List.mem_map_of_mem there, hasImage⟩
  · rintro ⟨source, member, hasImage⟩
    obtain ⟨entry, there, rfl⟩ := List.mem_map.1 member
    refine List.mem_map.2 ⟨(key, entry.2), List.mem_filterMap.2 ⟨entry, there, ?_⟩, rfl⟩
    rw [hasImage, Option.map_some]

omit [Std.TransOrd κ] [Std.LawfulEqOrd κ] in
/-- The keys with a property have the mass of the keys whose images have it. -/
theorem massWhere_pushforward
    (image : κ → Option ι)
    (tally : Tally κ ℝ)
    {property : ι → Prop}
    [DecidablePred property] :
    (tally.pushforward image).massWhere property =
      tally.massWhere fun key => ∃ target ∈ image key, property target := by
  unfold pushforward
  rw [massWhere_recordAll, massWhere_empty, zero_add]
  unfold massWhere
  induction tally.entries with
  | nil => rfl
  | cons head tail inductionHypothesis =>
      rw [List.filterMap_cons, List.filter_cons]
      cases named : image head.1 with
      | none => simpa [named] using inductionHypothesis
      | some target =>
          by_cases has : property target
          · simpa [named, has] using inductionHypothesis
          · simpa [named, has] using inductionHypothesis

omit [Std.TransOrd κ] [Std.LawfulEqOrd κ] in
/-- The mass of a key in a pushforward is the sum of the masses of its preimages. -/
theorem mass_pushforward
    [DecidableEq ι]
    (image : κ → Option ι)
    (tally : Tally κ ℝ)
    (key : ι) :
    (tally.pushforward image).mass key =
      (tally.entries.map fun entry =>
        if image entry.1 = some key then entry.2 else 0).sum := by
  rw [mass_eq_massWhere, massWhere_pushforward, massWhere, sum_map_filter fun entry : κ × ℝ =>
    ∃ target ∈ image entry.1, target = key]
  simp only [exists_eq_right, Option.mem_def]

end Images

end Tally

end MeasurementCalculus
