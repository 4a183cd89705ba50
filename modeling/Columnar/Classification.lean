import Columnar.Classification.Statistics
import Columnar.Counter
import Columnar.Estimator.Basic
import Columnar.Score
import Columnar.WorkerPool
import Std.Data.TreeMap

/-!
# Classifying columns

Every column is estimated as a subset of its own and weighed against the baseline. Where its
cheapest encoding pays, it is compressible. The columns that are left may be stored together, and
if they would then be stored dense, they are weighed once more against a dense column; those
that pay now are moved. Both rounds go over the columns once and keep the outcome so far in a
`Tally`. A sum of listed rows that 64 bits cannot hold stops the classification, and so does a
baseline without an answer.
-/

namespace Columnar

/-- The outcome of a classification. -/
structure Classification where
  /-- Columns worth compressing: those of the first round, then those of the second. -/
  compressible : List Nat
  notCompressible : List Nat
  /-- The compression ratio of every compressible column. -/
  ratios : Std.TreeMap Nat Float
  pricings : List Pricing
  /-- Listed rows of the columns left uncompressed. -/
  nonzerosUncompressed : Nat
  statistics : Statistics

namespace Classification

def isCompressible (c : Classification) (column : Nat) : Bool := c.ratios.contains column

/-- The compression ratio of a column that is worth compressing. -/
def ratio? (c : Classification) (column : Nat) : Option Float := c.ratios[column]?

end Classification

/-- The outcome over the columns seen so far. Columns are held latest first. -/
structure Tally where
  compressible : List Nat := []
  rest : List Nat := []
  corrected : List Nat := []
  ratios : Std.TreeMap Nat Float := ∅
  nonzeros : Nat := 0
  bestCounts : PerEncoding Nat := ⟨0, 0, 0, 0, 0⟩
  sizeUncompressed : Nat := 0
  sizeCompressed : Nat := 0

namespace Tally

def accept (t : Tally) (column : Nat) (score : Score) : Tally :=
  { t with
    compressible := column :: t.compressible
    ratios := t.ratios.insert column score.ratio
    sizeCompressed := satAdd t.sizeCompressed score.compressed }

/-- Weighs a column against its baseline size. -/
def place (t : Tally) (column : Nat) (pricing : Pricing) (uncompressed : Nat) :
    Except PlanError Tally := do
  let score : Score := ⟨uncompressed, pricing.minSize⟩
  let t := { t with
    bestCounts := t.bestCounts.modify pricing.bestEncoding (· + 1)
    sizeUncompressed := satAdd t.sizeUncompressed uncompressed }
  if score.isBeneficial then return t.accept column score
  let nonzeros ← plus maxSize t.nonzeros pricing.nonzeros
  return { t with rest := column :: t.rest, nonzeros := nonzeros }

/-- Weighs a column that was left once more, against the size of a dense column. -/
def reconsider (t : Tally) (column : Nat) (pricing : Pricing) (dense : Nat) :
    Except PlanError Tally := do
  let score : Score := ⟨dense, pricing.minSize⟩
  if score.isBeneficial then
    let nonzeros ← minus t.nonzeros pricing.nonzeros
    return { t.accept column score with corrected := column :: t.corrected, nonzeros := nonzeros }
  return { t with rest := column :: t.rest }

/-- Weighs columns of a priced table once more, one after the other. -/
def reconsiderAll (t : Tally) (pricings : Array Pricing) (dense : Nat) (columns : List Nat) :
    Except PlanError Tally :=
  columns.foldlM
    (fun (t : Tally) column =>
      match pricings[column]? with
      | some pricing => t.reconsider column pricing dense
      | none => pure t)
    t

end Tally

/-- Classifies columns with a pool of workers against a baseline. -/
structure Classifier where
  pool : WorkerPool
  baseline : Baseline := Footprint.baseline

namespace Classifier

/-- A classifier on the given number of workers. -/
def ofWorkers (count : Nat) : Except PlanError Classifier :=
  (WorkerPool.ofWorkers count).map fun pool => { pool }

/-- The classifier that a configuration asks for. -/
def ofConfig (config : Config) : Except PlanError Classifier := do
  config.validate
  ofWorkers config.threads

/-- The share of the rows of a table that a column lists. -/
def shareOf (rows : Nat) (pricing : Pricing) : Float :=
  if rows = 0 then 0 else asFloat pricing.nonzeros / asFloat rows

/-- The first round: every column against its baseline size. -/
def firstRound (baseline : Baseline) (rows : Nat) (pricings : List Pricing) :
    Except PlanError Tally :=
  pricings.zipIdx.foldlM
    (fun (t : Tally) (pricing, column) => do
      let uncompressed ← baseline.uncompressedSize rows 1 (shareOf rows pricing)
      t.place column pricing uncompressed)
    {}

/-- The second round: the columns that are left against the size of a dense column, unless the
baseline would store them sparse together. -/
def secondRound (baseline : Baseline) (rows : Nat) (pricings : Array Pricing) (t : Tally) :
    Except PlanError Tally := do
  if t.rest.isEmpty then return t
  if ← baseline.prefersSparse rows t.rest.length t.nonzeros then return t
  let dense ← baseline.uncompressedSize rows 1 1
  { t with rest := [] }.reconsiderAll pricings dense t.rest.reverse

def partition (baseline : Baseline) (rows : Nat) (pricings : List Pricing) :
    Except PlanError Classification := do
  let first ← firstRound baseline rows pricings
  let final ← secondRound baseline rows pricings.toArray first
  return {
    compressible := final.compressible.reverse
    notCompressible := final.rest.reverse
    ratios := final.ratios
    pricings := pricings
    nonzerosUncompressed := final.nonzeros
    statistics :=
      { nonzerosBefore := first.nonzeros
        nonzerosAfter := final.nonzeros
        corrected := final.corrected.reverse
        bestCounts := final.bestCounts
        sizeUncompressed := final.sizeUncompressed
        sizeCompressed := final.sizeCompressed } }

/-- Classifies every column of an estimator's table. If a column cannot be estimated, the whole
classification fails. -/
def classify (c : Classifier) (e : Estimator) : Except PlanError Classification := do
  let pricings ← c.pool.map e.cols fun column => e.estimate [column]
  partition c.baseline e.rows pricings

end Classifier

end Columnar
