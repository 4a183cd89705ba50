import Columnar.Estimator.Sampled

/-!
# Choosing the rows to read

A sampling ratio of one reads every row, and a smaller one reads a sample of the share's ceiling.
`RowPlan.ofRatio` checks the ratio and the block size, in this order; `RowPlan.ofConfig` checks a
whole configuration and binds it to a table.
-/

namespace Columnar

/-- The rows that an estimator is to read. -/
inductive RowPlan where
  | everyRow (binding : Binding)
  | sampled (sample : SampleEstimator)

namespace RowPlan

def estimator : RowPlan → Estimator
  | .everyRow binding => binding.exact
  | .sampled sample => sample.toEstimator

/-- The number of rows that make up a share of the rows. -/
def sampleSize (rows : Nat) (ratio : Float) : Nat := ceilToCount (asFloat rows * ratio)

/-- Plans to read a share of the rows, drawn once. -/
def ofRatio (binding : Binding) (rows : Nat) (seed : UInt64) (ratio : Float) :
    Except PlanError RowPlan :=
  if !isSamplingRatio ratio then .error (.invalidConfig (.samplingRatio ratio))
  else if binding.blockSize = 0 then .error (.invalidConfig .zeroBlockSize)
  else if ratio == 1 then .ok (.everyRow binding)
  else .ok (.sampled (.ofSize binding (sampleSize rows ratio) seed))

/-- Plans what a configuration asks for. The fresh seed serves a configuration without one. -/
def ofConfig (matrix : Matrix) (config : Config) (fresh : UInt64)
    (select : Selector := Selection.seeded) : Except PlanError RowPlan := do
  config.validate
  let view : View := ⟨matrix, config.transposeInput⟩
  let binding : Binding := { view, select, blockSize := config.blockSize }
  let seed := config.resolveSeed fresh
  if config.samplingRatio == 1 || config.sampleOnce then
    ofRatio binding view.rows seed config.samplingRatio
  else
    let size := sampleSize view.rows config.samplingRatio
    return .sampled (SampleEstimator.ofSize binding size seed).withPerColumnSamples

end RowPlan

end Columnar
