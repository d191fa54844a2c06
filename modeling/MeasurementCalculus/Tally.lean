import MeasurementCalculus.Scalar

/-!
# Tallies

A tally assigns a mass to finitely many keys. Its entries are strictly ascending
in their keys, so no key occurs twice and two tallies with the same entries in
any order of recording are the same. Recording a mass adds it to the mass that
its key already has, starting from zero.
-/

namespace MeasurementCalculus

/-- Finitely many keys with their masses, strictly ascending. -/
structure Tally (κ R : Type) [Ord κ] where
  /-- The keys with their masses. -/
  entries : List (κ × R)
  /-- Every key comes before all later ones. -/
  ascending : entries.Pairwise fun first second =>
    compare first.1 second.1 = .lt

namespace Tally

variable {κ R : Type} [Ord κ]

/-- Tallies with the same entries are equal. -/
@[ext] theorem ext
    {first second : Tally κ R}
    (same : first.entries = second.entries) : first = second := by
  cases first
  cases second
  cases same
  rfl

instance [BEq κ] [BEq R] : BEq (Tally κ R) :=
  ⟨fun first second => first.entries == second.entries⟩

/-- The tally without entries. -/
def empty : Tally κ R := ⟨[], .nil⟩

section Record

variable [Zero R] [Add R]

/-- Add a mass to the entry of a key in an ascending list; a key that is not
there yet starts from zero. -/
def accumulate
    (key : κ)
    (mass : R) : List (κ × R) → List (κ × R)
  | [] => [(key, 0 + mass)]
  | entry :: rest =>
      match compare key entry.1 with
      | .lt => (key, 0 + mass) :: entry :: rest
      | .eq => (entry.1, entry.2 + mass) :: rest
      | .gt => entry :: accumulate key mass rest

/-- Every key of the extended list is the recorded one or was there before. -/
theorem fst_of_mem_accumulate
    {key : κ}
    {mass : R}
    {entries : List (κ × R)}
    {entry : κ × R}
    (member : entry ∈ accumulate key mass entries) :
    entry.1 = key ∨ ∃ earlier ∈ entries, entry.1 = earlier.1 := by
  induction entries with
  | nil =>
      rw [accumulate, List.mem_singleton] at member
      exact .inl (congrArg Prod.fst member)
  | cons head tail inductionHypothesis =>
      rw [accumulate] at member
      split at member
      · rcases List.mem_cons.1 member with rfl | old
        · exact .inl rfl
        · exact .inr ⟨entry, old, rfl⟩
      · rcases List.mem_cons.1 member with rfl | old
        · exact .inr ⟨head, List.mem_cons_self, rfl⟩
        · exact .inr ⟨entry, List.mem_cons_of_mem _ old, rfl⟩
      · rcases List.mem_cons.1 member with rfl | old
        · exact .inr ⟨entry, List.mem_cons_self, rfl⟩
        · rcases inductionHypothesis old with new | ⟨earlier, there, same⟩
          · exact .inl new
          · exact .inr ⟨earlier, List.mem_cons_of_mem _ there, same⟩

/-- Recording keeps the entries strictly ascending. -/
theorem pairwise_accumulate
    [Std.TransOrd κ]
    (key : κ)
    (mass : R)
    {entries : List (κ × R)}
    (ascending : entries.Pairwise fun first second =>
      compare first.1 second.1 = .lt) :
    (accumulate key mass entries).Pairwise fun first second =>
      compare first.1 second.1 = .lt := by
  induction entries with
  | nil => exact List.pairwise_singleton _ _
  | cons head tail inductionHypothesis =>
      obtain ⟨headFirst, tailAscending⟩ := List.pairwise_cons.1 ascending
      rw [accumulate]
      split
      · next before =>
          refine List.pairwise_cons.2 ⟨fun entry member => ?_, ascending⟩
          rcases List.mem_cons.1 member with rfl | later
          · exact before
          · exact Std.TransCmp.lt_trans before (headFirst entry later)
      · exact List.pairwise_cons.2 ⟨headFirst, tailAscending⟩
      · next after =>
          refine List.pairwise_cons.2
            ⟨fun entry member => ?_, inductionHypothesis tailAscending⟩
          rcases fst_of_mem_accumulate member with new | ⟨earlier, there, same⟩
          · rw [new]
            exact Std.OrientedCmp.lt_of_gt after
          · rw [same]
            exact headFirst earlier there

/-- Add a mass to a key. -/
def record
    [Std.TransOrd κ]
    (tally : Tally κ R)
    (key : κ)
    (mass : R) : Tally κ R :=
  ⟨accumulate key mass tally.entries, pairwise_accumulate key mass tally.ascending⟩

/-- Record a list of keys with masses, from left to right. -/
def recordAll
    [Std.TransOrd κ]
    (tally : Tally κ R)
    (masses : List (κ × R)) : Tally κ R :=
  masses.foldl (fun current entry => current.record entry.1 entry.2) tally

end Record

/-- The keys in ascending order. -/
def keys (tally : Tally κ R) : List κ :=
  tally.entries.map Prod.fst

/-- The mass of a key, zero if it has none. -/
def mass
    [Zero R]
    (tally : Tally κ R)
    (key : κ) : R :=
  match tally.entries.find? fun entry => compare key entry.1 == .eq with
  | some entry => entry.2
  | none => 0

/-- The sum of all masses, in ascending order of the keys. -/
def total [Scalar R] (tally : Tally κ R) : R :=
  Scalar.sum (tally.entries.map Prod.snd)

/-- The tally of the keys' images; keys without an image are left out. -/
def pushforward
    [Zero R]
    [Add R]
    {ι : Type}
    [Ord ι]
    [Std.TransOrd ι]
    (image : κ → Option ι)
    (tally : Tally κ R) : Tally ι R :=
  empty.recordAll <| tally.entries.filterMap fun entry =>
    (image entry.1).map fun key => (key, entry.2)

/-- The largest absolute difference of the masses of a key in two tallies, over
all keys of either. -/
def distance
    [Scalar R]
    (first second : Tally κ R) : R :=
  ((first.keys ++ second.keys).map fun key =>
    Scalar.abs (first.mass key - second.mass key)).foldl Scalar.max 0

end Tally

end MeasurementCalculus
