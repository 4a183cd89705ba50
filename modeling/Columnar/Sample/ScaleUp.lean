import Columnar.Error
import Columnar.FloatValue
import Columnar.Sample.Stats

/-!
# From a sample to the table

Sampled counts are scaled up to a table of `rows` rows. Occurrences scale linearly. Different
tuples do not: many tuples that were seen once mean that many were not seen, so their number is
divided by the share of occurrences that are not new. Every estimate is held between what the
sample shows and what the table can hold.

Runs come from sampled neighbours: the share of them that repeat their tuple is taken as the share
of occurrences that continue a run. Without such pairs the share of breaks in sample order stands
in.
-/

namespace Columnar

/-- A number held between two bounds. -/
def clampCount (low high n : Nat) : Nat := max low (min n high)

namespace SampleStats

/-- The rows with a tuple in the whole table. -/
def estimatedOffsets (s : SampleStats) (sampleSize rows : Nat) : Nat :=
  let share := asFloat sampleSize / asFloat rows
  clampCount s.occurrences rows (roundToCount (asFloat s.occurrences / share))

/-- The different tuples in the whole table, from the estimated rows with a tuple. -/
def estimatedValues (s : SampleStats) (offsets rows : Nat) : Nat :=
  let sampled := asFloat s.occurrences
  let seen := sampled / asFloat offsets
  let known := 1 - (1 - seen) * asFloat s.singletons / sampled
  let values := if 0 < known then asFloat s.distinct / known else asFloat offsets
  clampCount s.distinct (max (min offsets rows) s.distinct) (roundToCount values)

/-- The tuples that occur once in the whole table, which grow as the different tuples do. -/
def estimatedSingles (s : SampleStats) (values : Nat) : Nat :=
  min (roundToCount (asFloat s.singletons * asFloat values / asFloat s.distinct)) values

/-- The runs in the whole table without the empty ones. -/
def estimatedRuns (s : SampleStats) (offsets values : Nat) : Nat :=
  if 0 < s.adjacentPairs then
    let share := asFloat s.continuations / asFloat s.adjacentPairs
    max (offsets - roundToCount (share * asFloat offsets)) values
  else
    let mostBreaks := s.occurrences - s.distinct
    let breaks :=
      if mostBreaks = 0 then 0
      else roundToCount (asFloat s.breaks / asFloat mostBreaks * asFloat (offsets - values))
    values + breaks

/-- The factors of the whole table, for a sample of fewer rows that shows at least one tuple. -/
def scaleUp (s : SampleStats) (sampleSize rows cols groupCols : Nat) : Factors :=
  let offsets := s.estimatedOffsets sampleSize rows
  let values := s.estimatedValues offsets rows
  { vals := capCount values
    offs := offsets
    segs := capCount (s.segments + (values - s.distinct))
    runs := capCount (s.estimatedRuns offsets values + s.emptyRuns)
    singles := capCount (s.estimatedSingles values)
    rows := rows
    cols := cols
    groupCols := groupCols }

end SampleStats

/-- The factors of a table, from a bitmap over a row sample. A sample of all rows is counted
exactly. A bitmap that lists more occurrences than the table has rows breaks the caller's
promise. -/
def extrapolate (b : Bitmap) (sample : Array Nat) (rows cols blockSize : Nat) :
    Except PlanError Factors :=
  if rows ≤ sample.size then Factors.compute b true rows cols blockSize
  else
    let stats := SampleStats.collect b sample blockSize
    let groupCols := low32 b.width
    if stats.distinct = 0 ∨ sample.size = 0 then
      .ok { vals := 0, offs := 0, segs := 0, runs := 0, singles := 0, rows, cols, groupCols }
    else if rows < stats.occurrences then .error (.crowded stats.occurrences rows)
    else .ok (stats.scaleUp sample.size rows cols groupCols)

end Columnar
