import Columnar.Factors

/-!
# Statistics of a sampled bitmap

A bitmap over a row sample holds positions in the sample, and the sample holds the row ids. The
statistics count both ways. Breaks are seen in sample order: an occurrence that does not directly
follow the tuple's previous one. Segments and empty strides are measured in row ids. Adjacent
pairs are sampled rows that are neighbours in the table, the first of them with a tuple; the pair
continues if the second row has the same tuple. A position that several tuples list belongs to the
last of them.
-/

namespace Columnar

/-- The counts of a bitmap over a row sample. -/
structure SampleStats where
  distinct : Nat
  /-- Tuples that were sampled once. -/
  singletons : Nat
  /-- Sampled rows with a tuple. -/
  occurrences : Nat
  /-- Segments up to the row of each tuple's last occurrence. -/
  segments : Nat
  /-- Occurrences that do not directly follow the tuple's previous one. -/
  breaks : Nat
  /-- Sampled neighbours of which the first has a tuple. -/
  adjacentPairs : Nat
  /-- Sampled neighbours with the same tuple. -/
  continuations : Nat
  /-- Whole blocks between occurrences that do not directly follow each other. -/
  emptyRuns : Nat
deriving DecidableEq, Repr

namespace SampleStats

/-- The row id at a position of the sample. -/
def rowAt (sample : Array Nat) (position : Nat) : Nat := sample.getD position 0

def segmentsOf (sample : Array Nat) (block : Nat) (offsets : List Nat) : Nat :=
  match offsets.getLast? with
  | none => 0
  | some last => rowAt sample last / block + 1

/-- Whether an occurrence does not directly follow the previous one of its tuple. -/
def isBreak : Option Nat × Nat → Bool
  | (none, _) => false
  | (some before, position) => position != before + 1

/-- The whole blocks in front of an occurrence that does not directly follow the previous one of
its tuple. In front of the first occurrence they are counted from two rows before the table. -/
def emptyRunsAt (sample : Array Nat) (block : Nat) : Option Nat × Nat → Nat
  | (none, position) => (rowAt sample position + 2) / block
  | (some before, position) =>
    if position = before + 1 then 0
    else (rowAt sample position - rowAt sample before) / block

/-- The tuple that each position of the sample belongs to. -/
def owners (tuples : List (List Nat)) (size : Nat) : Array (Option Nat) :=
  tuples.zipIdx.foldl
    (fun (owner : Array (Option Nat)) (offsets, tuple) =>
      offsets.foldl (fun owner position => owner.setIfInBounds position (some tuple)) owner)
    (Array.replicate size none)

/-- The positions of the sample whose row directly follows the row before them in the table, when
that one has a tuple; with the two owners. -/
def adjacent (sample : Array Nat) (owner : Array (Option Nat)) : List (Nat × Option Nat) :=
  (List.range (sample.size - 1)).filterMap fun i =>
    if rowAt sample (i + 1) = rowAt sample i + 1 then
      (owner.getD i none).map fun first => (first, owner.getD (i + 1) none)
    else none

/-- The statistics of tuples that occur at such positions of a sample. A block size of zero counts
as one. -/
def ofLists (lists : List (List Nat)) (sample : Array Nat) (blockSize : Nat) : SampleStats :=
  let block := max blockSize 1
  let pairs := adjacent sample (owners lists sample.size)
  { distinct := lists.length
    singletons := lists.countP (·.length == 1)
    occurrences := total (lists.map (·.length))
    segments := total (lists.map (segmentsOf sample block))
    breaks := total (lists.map fun offsets => (Bitmap.steps offsets).countP isBreak)
    adjacentPairs := pairs.length
    continuations := pairs.countP fun (first, second) => second == some first
    emptyRuns := total (lists.map fun offsets =>
      total ((Bitmap.steps offsets).map (emptyRunsAt sample block))) }

/-- The statistics of the numbered tuples of a bitmap over a sample. -/
def collect (b : Bitmap) (sample : Array Nat) (blockSize : Nat) : SampleStats :=
  ofLists (b.numbered.tuples.map (·.offsets)) sample blockSize

theorem collect_of_few {b : Bitmap} (few : b.tuples.length ≤ maxCount) (sample : Array Nat)
    (blockSize : Nat) :
    collect b sample blockSize = ofLists (b.tuples.map (·.offsets)) sample blockSize := by
  rw [collect, Bitmap.numbered_eq_self few]

end SampleStats

end Columnar
