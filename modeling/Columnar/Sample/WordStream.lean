import Columnar.Word

/-!
# A stream of random words

A seed of 64 bits determines an endless stream of 32-bit words, so a sample can be drawn again.
The seed is stretched to a key of eight words by a linear congruential generator with permuted
output. The words come in blocks of sixteen: a block is the result of twelve rounds of
ChaCha on the key and the number of the block.
-/

namespace Columnar

/-- The sixteen words that the rounds work on. -/
abbrev ChaChaState := Vector UInt32 16

namespace ChaChaState

/-- A word moved left by some bits, with the bits that leave coming back on the right. -/
def rotateLeft (x bits : UInt32) : UInt32 := (x <<< bits) ||| (x >>> (32 - bits))

/-- Adds one word to another, and mixes the sum into a third, which is rotated. -/
def addMix (s : ChaChaState) (target addend mixed : Fin 16) (bits : UInt32) : ChaChaState :=
  let sum := s[target] + s[addend]
  let s := s.set target sum
  s.set mixed (rotateLeft (s[mixed] ^^^ sum) bits)

/-- The quarter round on four of the words. -/
def quarterRound (s : ChaChaState) (a b c d : Fin 16) : ChaChaState :=
  let s := s.addMix a b d 16
  let s := s.addMix c d b 12
  let s := s.addMix a b d 8
  s.addMix c d b 7

/-- A round on the columns and a round on the diagonals. -/
def doubleRound (s : ChaChaState) : ChaChaState :=
  let s := s.quarterRound 0 4 8 12
  let s := s.quarterRound 1 5 9 13
  let s := s.quarterRound 2 6 10 14
  let s := s.quarterRound 3 7 11 15
  let s := s.quarterRound 0 5 10 15
  let s := s.quarterRound 1 6 11 12
  let s := s.quarterRound 2 7 8 13
  s.quarterRound 3 4 9 14

/-- The state before the rounds: constants, key, block number, zeros. -/
def initial (key : Vector UInt32 8) (block : UInt64) : ChaChaState :=
  let constants : Vector UInt32 4 := #v[0x61707865, 0x3320646e, 0x79622d32, 0x6b206574]
  let number : Vector UInt32 4 := #v[block.toUInt32, (block >>> 32).toUInt32, 0, 0]
  constants ++ key ++ number

/-- The words of a block: the state after twelve rounds, added to the state before them. -/
def block (key : Vector UInt32 8) (number : UInt64) : ChaChaState :=
  let start := initial key number
  let mixed := (List.range 6).foldl (fun s _ => s.doubleRound) start
  mixed.zipWith (· + ·) start

end ChaChaState

/-- A stream of words: its key, the number of the next block, and what is left of this one. -/
structure WordStream where
  key : Vector UInt32 8
  nextBlock : UInt64
  pending : List UInt32

namespace WordStream

/-- The next state of the generator that stretches a seed. -/
def stretch (state : UInt64) : UInt64 := state * 6364136223846793005 + 11634580027462260723

/-- The word that a state of that generator puts out: a mix of its bits, rotated right by the
highest ones. -/
def stretchedWord (state : UInt64) : UInt32 :=
  let mixed := (((state >>> 18) ^^^ state) >>> 27).toUInt32
  let bits := (state >>> 59).toUInt32
  (mixed >>> bits) ||| (mixed <<< (32 - bits))

/-- The state of the generator after some steps from a seed. -/
def stretchTimes (seed : UInt64) (steps : Nat) : UInt64 :=
  (List.range steps).foldl (fun state _ => stretch state) seed

/-- The stream of a seed. -/
def ofSeed (seed : UInt64) : WordStream :=
  ⟨Vector.ofFn fun i => stretchedWord (stretchTimes seed (i + 1)), 0, []⟩

/-- The next word, and the stream behind it. -/
def next (s : WordStream) : UInt32 × WordStream :=
  match s.pending with
  | word :: rest => (word, { s with pending := rest })
  | [] =>
    let words := ChaChaState.block s.key s.nextBlock
    (words[0], ⟨s.key, s.nextBlock + 1, words.toList.drop 1⟩)

/-- A number from `low` to `high`, ends included. A word is widened over the range; where the part
below the point could still carry, the next word decides. -/
def range (s : WordStream) (low high : Nat) : Nat × WordStream :=
  let size := high - low + 1
  let (word, s) := s.next
  let product := word.toNat * size
  let whole := high32 product
  let part := low32 product
  if maxCount + 1 - size < part then
    let (word, s) := s.next
    let carry := part + high32 (word.toNat * size)
    (low + whole + (if maxCount < carry then 1 else 0), s)
  else (low + whole, s)

end WordStream

end Columnar
