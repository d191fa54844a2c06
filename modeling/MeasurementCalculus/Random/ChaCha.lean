import MeasurementCalculus.Random.Generator
import MeasurementCalculus.Run.Shot
import MeasurementCalculus.Scalar.Float

/-!
# The ChaCha generator

The stream cipher ChaCha with twelve rounds, used as a generator. Its key is
expanded from a 64-bit seed by a permuted congruential generator, and a 64-bit
counter numbers the blocks of sixteen words. A random word of 64 bits consists
of two words of the stream, the lower one first, and a draw from the unit
interval of its upper 53 bits.
-/

namespace MeasurementCalculus

namespace ChaCha

/-- The sixteen words on which a block is computed. -/
abbrev Block := Vector UInt32 16

/-- Rotate a word to the left; the amount is between 1 and 31. -/
def rotateLeft (word amount : UInt32) : UInt32 :=
  (word <<< amount) ||| (word >>> (32 - amount))

/-- Mix four words of a block. -/
def quarterRound
    (block : Block)
    (a b c d : Fin 16) : Block :=
  let block := block.set a (block[a] + block[b])
  let block := block.set d (rotateLeft (block[d] ^^^ block[a]) 16)
  let block := block.set c (block[c] + block[d])
  let block := block.set b (rotateLeft (block[b] ^^^ block[c]) 12)
  let block := block.set a (block[a] + block[b])
  let block := block.set d (rotateLeft (block[d] ^^^ block[a]) 8)
  let block := block.set c (block[c] + block[d])
  block.set b (rotateLeft (block[b] ^^^ block[c]) 7)

/-- Mix the four columns of a block, then its four diagonals. -/
def doubleRound (block : Block) : Block :=
  let block := quarterRound block 0 4 8 12
  let block := quarterRound block 1 5 9 13
  let block := quarterRound block 2 6 10 14
  let block := quarterRound block 3 7 11 15
  let block := quarterRound block 0 5 10 15
  let block := quarterRound block 1 6 11 12
  let block := quarterRound block 2 7 8 13
  quarterRound block 3 4 9 14

/-- Apply the double round as often as told. -/
def rounds : Nat → Block → Block
  | 0, block => block
  | count + 1, block => rounds count (doubleRound block)

/-- The words a block starts from: four constants, the key, the counter with its
lower word first, and two zeros. -/
def initialBlock
    (key : Vector UInt32 8)
    (counter : UInt64) : Block :=
  #v[0x61707865, 0x3320646e, 0x79622d32, 0x6b206574,
    key[0], key[1], key[2], key[3], key[4], key[5], key[6], key[7],
    counter.toUInt32, (counter >>> 32).toUInt32, 0, 0]

/-- The output for one value of the counter: six double rounds, after which the
initial words are added. -/
def output
    (key : Vector UInt32 8)
    (counter : UInt64) : Block :=
  let start := initialBlock key counter
  (rounds 6 start).zipWith (· + ·) start

/-- One step of the key expansion. -/
def expandStep (state : UInt64) : UInt64 :=
  state * 0x5851F42D4C957F2D + 0xA17654E46FBE17F3

/-- The word that a state of the key expansion yields: a shifted word, rotated to
the right by the upper bits of the state. -/
def expandWord (state : UInt64) : UInt32 :=
  let word := (((state >>> 18) ^^^ state) >>> 27).toUInt32
  let amount := (state >>> 59).toUInt32
  if amount = 0 then word
  else rotateLeft word (32 - amount)

/-- The first `count` words of the key expansion. -/
def expand (state : UInt64) : Nat → List UInt32
  | 0 => []
  | count + 1 =>
      let next := expandStep state
      expandWord next :: expand next count

theorem length_expand (state : UInt64) (count : Nat) :
    (expand state count).length = count := by
  induction count generalizing state with
  | zero => rfl
  | succ count inductionHypothesis => simp [expand, inductionHypothesis]

end ChaCha

/-- The state of the generator: the key, the counter of the next block, and the
words of the current block that are not used yet. -/
structure ChaCha where
  /-- The key. -/
  key : Vector UInt32 8
  /-- The counter of the next block. -/
  counter : UInt64
  /-- The unused words of the current block. -/
  unused : List UInt32

namespace ChaCha

/-- The generator that belongs to a seed. -/
def ofSeed (seed : UInt64) : ChaCha where
  key := ⟨(expand seed 8).toArray, by simp [length_expand]⟩
  counter := 0
  unused := []

/-- The next word of the stream. -/
def next (generator : ChaCha) : UInt32 × ChaCha :=
  match generator.unused with
  | word :: rest => (word, { generator with unused := rest })
  | [] =>
      let block := output generator.key generator.counter
      (block[0],
        { generator with
          counter := generator.counter + 1
          unused := block.toList.tail })

/-- Two words of the stream as one, the lower one first. -/
def word (generator : ChaCha) : UInt64 × ChaCha :=
  let (low, generator) := generator.next
  let (high, generator) := generator.next
  (low.toUInt64 ||| (high.toUInt64 <<< 32), generator)

instance : Generator ChaCha where
  ofSeed := ofSeed
  word := word

/-- The fraction of the unit interval that the upper 53 bits of a word name. -/
def fraction (word : UInt64) : Float :=
  (word >>> 11).toFloat * 1.1102230246251565e-16

instance : DrawSource ChaCha Float where
  draw generator :=
    let (word, generator) := generator.word
    (fraction word, generator)

end ChaCha

end MeasurementCalculus
