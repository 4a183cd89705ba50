import Columnar.Sample.WordStream
import Std.Data.HashSet

/-!
# Selecting distinct numbers

Three ways to select `amount` different numbers below `bound` from a stream of words, for
`amount < bound`. Which one is used depends on both numbers only (`Method.pick`), and decides which
words are used for what, so it is part of the outcome.

* `growing`: for each of the last `amount` numbers in turn, take a number up to it, or the number
  itself if that one is taken.
* `inPlace`: shuffle the front of the list of all numbers.
* `rejection`: draw numbers until enough different ones have come.
-/

namespace Columnar.Selection

/-- A way to select numbers. -/
inductive Method where
  | growing
  | inPlace
  | rejection
deriving DecidableEq, Repr

/-- A count as the nearest 32-bit float. -/
def asFloat32 (n : Nat) : Float32 := n.toUInt64.toFloat32

/-- From this bound on, the list of all numbers is costlier to hold. -/
def largeBound : Nat := 500000

/-- The method for selecting `amount` numbers below `bound`. Shuffling in place is used for bounds
below a line that rises with the amount. -/
def Method.pick (bound amount : Nat) : Method :=
  let large := largeBound ≤ bound
  let size := asFloat32 amount
  if amount < 163 then
    let slope : Float32 := if large then 8 / 45 else 1.6
    let start : Float32 := if large then 70 / 9 else 10
    if 11 < amount && asFloat32 bound < (start + slope * size) * size then .inPlace
    else .growing
  else
    let slope : Float32 := if large then 330 / 9 else 270
    if asFloat32 bound < slope * size then .inPlace else .rejection

/-- One step under a growing bound: a number up to `top` that is not taken yet, or else `top`. -/
def addBelow (taken : List Nat × WordStream) (top : Nat) : List Nat × WordStream :=
  let (number, words) := taken.2.range 0 top
  (if number ∈ taken.1 then top :: taken.1 else number :: taken.1, words)

def growing (bound amount : Nat) (words : WordStream) : List Nat :=
  ((List.range' (bound - amount) amount).foldl addBelow ([], words)).1

/-- One step of the shuffle: a number from the rest of the list moves to place `i`. -/
def swapIn (bound : Nat) (shuffled : Array Nat × WordStream) (i : Nat) : Array Nat × WordStream :=
  let (j, words) := shuffled.2.range i (bound - 1)
  (shuffled.1.swapIfInBounds i j, words)

/-- Selects by shuffling the front of the list of all numbers. -/
def inPlace (bound amount : Nat) (words : WordStream) : List Nat :=
  let shuffled := (List.range amount).foldl (swapIn bound) (Array.range bound, words)
  shuffled.1.toList.take amount

/-- Draws numbers until `amount` different ones have come, for at most `draws` words. A word whose
product with the bound falls into the uneven part of the range is passed over. -/
def drawDistinct (bound amount : Nat) : Nat → Std.HashSet Nat → WordStream → Std.HashSet Nat
  | 0, seen, _ => seen
  | draws + 1, seen, words =>
    if amount ≤ seen.size then seen
    else
      let (word, words) := words.next
      let product := word.toNat * bound
      if low32 product < (maxCount + 1 - bound) % bound then
        drawDistinct bound amount draws seen words
      else drawDistinct bound amount draws (seen.insert (high32 product)) words

/-- Adds the least numbers that are missing, up to the given amount. -/
def fillUp (amount : Nat) (numbers : List Nat) : List Nat :=
  if amount ≤ numbers.length then numbers
  else
    numbers ++ ((List.range amount).filter (· ∉ numbers)).take (amount - numbers.length)

/-- Selects by rejection. At least half of the words give a number and almost none of the numbers
repeat, so the allowance of words never runs out in practice; if it did, the least missing numbers
would complete the selection. -/
def rejection (bound amount : Nat) (words : WordStream) : List Nat :=
  fillUp amount (drawDistinct bound amount (64 * amount + 4096) ∅ words).toList

/-- Selects `amount` different numbers below `bound`, in no particular order. -/
def select (bound amount : Nat) (words : WordStream) : List Nat :=
  match Method.pick bound amount with
  | .growing => growing bound amount words
  | .inPlace => inPlace bound amount words
  | .rejection => rejection bound amount words

end Columnar.Selection
