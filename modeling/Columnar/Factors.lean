import Columnar.Bitmap
import Columnar.Counter

/-!
# Size factors

The size of a column group under every encoding depends on eight counts only. `Factors.compute`
reduces a bitmap to them: each count is a checked sum over the tuples, and a tuple is looked at
through the list of its offsets.

A tuple takes one segment for each block of rows up to its last occurrence. A run starts at every
offset that does not directly follow the one before it, and the gap in front of a run adds an
empty run for each whole block that it spans; in front of the first offset the gap is counted
from two rows before the table.
-/

namespace Columnar

/-- The counts from which a column group is priced. -/
structure Factors where
  /-- Different tuples. -/
  vals : Nat
  /-- Rows that hold a tuple. -/
  offs : Nat
  /-- Segments of the offset lists. -/
  segs : Nat
  /-- Runs, empty ones included, or 0 if they were not asked for. -/
  runs : Nat
  /-- Tuples that occur once. -/
  singles : Nat
  rows : Nat
  cols : Nat
  groupCols : Nat
deriving DecidableEq, Repr

namespace Factors

def segmentsOf (block : Nat) (offsets : List Nat) : Nat :=
  match offsets.getLast? with
  | none => 0
  | some last => low32 (last / block + 1)

/-- The runs that begin at an offset, the empty ones in front of it included. -/
def runsAt (block : Nat) : Option Nat × Nat → Nat
  | (none, offset) => 1 + low32 ((offset + 2) / block)
  | (some before, offset) =>
    if offset = before + 1 then 0 else 1 + low32 ((offset - before) / block)

def runsOf (block : Nat) (offsets : List Nat) : Nat :=
  total ((Bitmap.steps offsets).map (runsAt block))

/-- The counts of a bitmap. A block size of zero counts as one. -/
def compute (b : Bitmap) (includeRuns : Bool) (rows cols blockSize : Nat) :
    Except PlanError Factors := do
  let block := max blockSize 1
  let tuples := b.numbered.tuples
  let offs ← addUp maxSize (tuples.map (·.offsets.length))
  let segs ← addUp maxCount (tuples.map fun t => segmentsOf block t.offsets)
  let runs ← addUp maxCount <|
    if includeRuns then tuples.flatMap fun t => (Bitmap.steps t.offsets).map (runsAt block) else []
  return {
    vals := b.count
    offs := offs
    segs := segs
    runs := runs
    singles := tuples.countP fun t => t.offsets.length == 1
    rows := rows
    cols := cols
    groupCols := low32 b.width }

/-- The share of the group's cells that are listed, at most one. -/
def density (f : Factors) : Float :=
  let cells := f.rows * f.groupCols
  if cells = 0 then 0
  else
    let share := asFloat f.offs / asFloat cells
    if share < 1 then share else 1

def describe (f : Factors) : String :=
  s!"rows:{f.rows} cols:{f.cols} group cols:{f.groupCols} offsets:{f.offs} " ++
  s!"segments:{f.segs} singles:{f.singles} runs:{f.runs} unique vals:{f.vals}"

end Factors

end Columnar
