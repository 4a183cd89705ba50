import Columnar.Decimal.Notation
import Columnar.Encoding

/-!
# Statistics of a classification

What a classification counts besides its outcome, and the milliseconds that its phases took. The
text gives times with three places.
-/

namespace Columnar

/-- The statistics of one classification. -/
structure Statistics where
  /-- Milliseconds of estimating all columns. -/
  estimationTime : Float := 0
  /-- Milliseconds of weighing against the baseline. -/
  classificationTime : Float := 0
  /-- Milliseconds of the correction. -/
  correctionTime : Float := 0
  /-- Listed rows of the columns left uncompressed, before the correction. -/
  nonzerosBefore : Nat := 0
  /-- Listed rows of the columns left uncompressed, after the correction. -/
  nonzerosAfter : Nat := 0
  /-- Columns that the correction moved. -/
  corrected : List Nat := []
  /-- The columns whose cheapest encoding each one is. -/
  bestCounts : PerEncoding Nat := ⟨0, 0, 0, 0, 0⟩
  /-- The sum of the baseline sizes of all columns. -/
  sizeUncompressed : Nat := 0
  /-- The sum of the least sizes of the compressible columns. -/
  sizeCompressed : Nat := 0
deriving Repr

namespace Statistics

def totalTime (s : Statistics) : Float :=
  s.estimationTime + s.classificationTime + s.correctionTime

def bestText (s : Statistics) : String :=
  " ".intercalate (s.bestCounts.entries.map fun (e, count) => s!"{e.name}:{count}")

def timesText (s : Statistics) : String :=
  s!"estimate {fixedText 3 s.estimationTime}, classify {fixedText 3 s.classificationTime}, " ++
  s!"correct {fixedText 3 s.correctionTime}, total {fixedText 3 s.totalTime}"

/-- The statistics as text, one line for each subject. -/
def describe (s : Statistics) : String :=
  "Classification Statistics:\n" ++
  s!"\tphases (ms): {s.timesText}\n" ++
  s!"\tbest types: {s.bestText}\n" ++
  s!"\tnnz uncompressed: {s.nonzerosBefore} -> {s.nonzerosAfter} " ++
  s!"({s.corrected.length} corrected)\n"

end Statistics

end Columnar
