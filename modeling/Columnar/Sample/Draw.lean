import Columnar.Sample.Selection

/-!
# Row samples

A row sample is a sorted list of different row ids. A `Selector` selects them by a seed, so that the
same row count, size and seed always draw the same rows; a size that reaches the row count draws
all of them and selects nothing.
-/

namespace Columnar

/-- Selects an amount of numbers below a larger bound, in no particular order. -/
abbrev Selector := (bound amount : Nat) → (seed : UInt64) → List Nat

/-- The selector on the words of a seed. -/
def Selection.seeded : Selector := fun bound amount seed => select bound amount (.ofSeed seed)

/-- The row sample that a selector makes. -/
def Selector.draw (select : Selector) (rows size : Nat) (seed : UInt64) : List Nat :=
  if rows ≤ size then List.range rows else (select rows size seed).mergeSort

def drawSample (rows size : Nat) (seed : UInt64) : List Nat := Selection.seeded.draw rows size seed

end Columnar
