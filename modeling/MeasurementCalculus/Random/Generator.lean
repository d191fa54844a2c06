/-!
# Generators

A generator yields 64-bit words one after another and can be
started from any seed. Nothing else is assumed of it, so
that what is proved about shots does not depend on how
random the words are.
-/

namespace MeasurementCalculus

/-- A deterministic stream of words that is started from a seed. -/
class Generator (G : Type) where
  /-- The generator that belongs to a seed. -/
  ofSeed : UInt64 → G
  /-- The next word and the generator after it. -/
  word : G → UInt64 × G

namespace Generator

variable {G : Type} [Generator G]

/-- The next `count` words and the generator after them. -/
def words (generator : G) : Nat → List UInt64 × G
  | 0 => ([], generator)
  | count + 1 =>
      let (first, next) := word generator
      let (rest, last) := words next count
      (first :: rest, last)

@[simp] theorem words_zero (generator : G) :
    words generator 0 = ([], generator) := rfl

@[simp] theorem words_succ
    (generator : G)
    (count : Nat) :
    words generator (count + 1) =
      ((word generator).1 :: (words (word generator).2 count).1,
        (words (word generator).2 count).2) := rfl

end Generator

end MeasurementCalculus
