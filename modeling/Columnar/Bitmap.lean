import Columnar.Matrix

/-!
# Bitmaps

A bitmap lists the different tuples of a column subset, each with the offsets where it occurs.
Bitmaps come from an extractor or from a caller; `Bitmap.ofParts` checks a caller's, and accepts
it when the values fill the tuples and every tuple has offsets in strictly increasing order.
Different tuples may share offsets in a caller's bitmap.
-/

namespace Columnar

/-- A tuple of cells and the offsets where it occurs. -/
structure TupleOffsets where
  values : List Cell
  offsets : List Nat
deriving Repr

/-- The tuples of a column subset of the given width. -/
structure Bitmap where
  width : Nat
  tuples : List TupleOffsets
deriving Repr

namespace Bitmap

def empty : Bitmap := ⟨0, []⟩

def isIncreasing : List Nat → Bool
  | a :: b :: rest => a < b && isIncreasing (b :: rest)
  | _ => true

/-- What callers promise of a bitmap, and what `ofParts` checks. -/
structure WellFormed (b : Bitmap) : Prop where
  width : ∀ t ∈ b.tuples, t.values.length = b.width
  occurs : ∀ t ∈ b.tuples, t.offsets ≠ []
  increasing : ∀ t ∈ b.tuples, t.offsets.Pairwise (· < ·)

/-- Why the offsets of a tuple are refused. -/
def offsetFault? (tuple : Nat) (offsets : List Nat) : Option ArgumentFault :=
  if offsets.isEmpty then some (.noOccurrences tuple)
  else if isIncreasing offsets then none
  else some (.unorderedOffsets tuple)

/-- Cuts the values of all tuples, one after the other, at the width of a tuple. -/
def cutTuples (width : Nat) : List Cell → List (List Nat) → List TupleOffsets
  | _, [] => []
  | values, offsets :: rest =>
    ⟨values.take width, offsets⟩ :: cutTuples width (values.drop width) rest

/-- Why a number of values is refused that does not fill the tuples. The number that would may be
out of range itself. -/
def countFault (values tuples width : Nat) : PlanError :=
  if maxSize < width * tuples then .overflow
  else .invalidArgument (.valueCount values tuples width)

/-- A bitmap from the values of its tuples in a row and the offsets of each. -/
def ofParts (width : Nat) (values : List Cell) (offsets : List (List Nat)) :
    Except PlanError Bitmap :=
  if values.length ≠ width * offsets.length then
    .error (countFault values.length offsets.length width)
  else
    match offsets.zipIdx.findSome? fun (list, i) => offsetFault? i list with
    | some fault => .error (.invalidArgument fault)
    | none => .ok ⟨width, cutTuples width values offsets⟩

/-- The number of tuples, as a 32-bit count. -/
def count (b : Bitmap) : Nat := low32 b.tuples.length

/-- The tuples that the count numbers: all of them, if it can hold their number. -/
def numbered (b : Bitmap) : Bitmap := { b with tuples := b.tuples.take b.count }

/-- The rows that hold a tuple, tuple by tuple. -/
def occurrences (b : Bitmap) : Nat := total (b.tuples.map (·.offsets.length))

/-- Each offset of a tuple with the one before it. -/
def steps (offsets : List Nat) : List (Option Nat × Nat) :=
  (none :: offsets.map some).zip offsets

theorem numbered_eq_self {b : Bitmap} (few : b.tuples.length ≤ maxCount) : b.numbered = b := by
  rw [numbered, count, low32_of_le few, List.take_length]

end Bitmap

end Columnar
