import Columnar.Estimator.Basic
import Columnar.Sample.ScaleUp

/-!
# Estimating from a row sample

A sample estimator reads a row sample, either one that serves all column subsets or one of its
own for each subset, drawn with a seed that depends on the subset's first column. The statistics
of the sample are scaled up to the table. A bitmap with an offset outside the sample is refused.
-/

namespace Columnar

/-- An estimator that reads a row sample. -/
structure SampleEstimator where
  binding : Binding
  size : Nat
  seed : UInt64
  /-- The sorted row ids of the shared sample. -/
  sample : List Nat
  /-- Whether each column subset has a sample of its own. -/
  perColumn : Bool

namespace SampleEstimator

/-- Draws the shared sample. A size above the row count reads every row. -/
def ofSize (binding : Binding) (size : Nat) (seed : UInt64) : SampleEstimator :=
  let size := min size binding.view.rows
  let sample := binding.select.draw binding.view.rows size seed
  { binding, size, seed, sample, perColumn := false }

def withPerColumnSamples (s : SampleEstimator) : SampleEstimator := { s with perColumn := true }

/-- The rows that are read for a column subset. -/
def sampleFor (s : SampleEstimator) (columns : List Nat) : List Nat :=
  match s.perColumn, columns with
  | true, first :: _ =>
    s.binding.select.draw s.binding.view.rows s.size (s.seed + UInt64.ofNat first)
  | _, _ => s.sample

/-- The last offset of the first tuple that reaches beyond the sample. -/
def outsideSample? (b : Bitmap) (sampleSize : Nat) : Option Nat :=
  (b.numbered.tuples.filterMap (·.offsets.getLast?)).find? (sampleSize ≤ ·)

def priceOver (s : SampleEstimator) (sample : List Nat) (b : Bitmap) : Except PlanError Pricing :=
  let ids := sample.toArray
  match outsideSample? b ids.size with
  | some offset => .error (.bitmap (.outsideSample offset ids.size))
  | none => do
    let factors ← extrapolate b ids s.binding.view.rows s.binding.view.cols s.binding.blockSize
    Pricing.ofFactors factors s.binding.model s.binding.blockSize

def toEstimator (s : SampleEstimator) : Estimator where
  name := "sample"
  rows := s.binding.view.rows
  cols := s.binding.view.cols
  estimate columns := do
    let sample := s.sampleFor columns
    let bitmap ← s.binding.extractor columns s.binding.view (some sample)
    s.priceOver sample bitmap
  estimateBitmap := s.priceOver s.sample

end SampleEstimator

end Columnar
