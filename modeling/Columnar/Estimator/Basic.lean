import Columnar.Bitmap.Extract
import Columnar.Config
import Columnar.Pricing
import Columnar.Sample.Draw

/-!
# Estimators

An estimator is bound to a table and prices any subset of its columns. A `Binding` holds what an
estimator is bound to: the table in its orientation, the extractor that turns columns into
bitmaps, the model that prices them, the selector of row samples, and the block size. The exact
estimator reads every row.
-/

namespace Columnar

/-- Turns a column subset into a bitmap, over the selected rows or over all of them. -/
abbrev Extractor := List Nat → View → Option (List Nat) → Except PlanError Bitmap

/-- Prices column subsets of the table that it is bound to. -/
structure Estimator where
  name : String
  rows : Nat
  cols : Nat
  estimate : List Nat → Except PlanError Pricing
  /-- Prices a bitmap whose offsets are positions among the rows that are read. -/
  estimateBitmap : Bitmap → Except PlanError Pricing

namespace Estimator

/-- Prices every column as a subset of its own. -/
def estimateAll (e : Estimator) : Except PlanError (List Pricing) :=
  (List.range e.cols).mapM fun column => e.estimate [column]

end Estimator

/-- What an estimator is bound to. -/
structure Binding where
  view : View
  extractor : Extractor := Bitmap.extract
  model : SizeModel := SizeModel.footprint
  select : Selector := Selection.seeded
  blockSize : Nat := defaultBlockSize

namespace Binding

def exact (binding : Binding) : Estimator :=
  let priceBitmap (b : Bitmap) : Except PlanError Pricing := do
    let factors ←
      Factors.compute b true binding.view.rows binding.view.cols binding.blockSize
    Pricing.ofFactors factors binding.model binding.blockSize
  { name := "exact"
    rows := binding.view.rows
    cols := binding.view.cols
    estimate := fun columns => binding.extractor columns binding.view none >>= priceBitmap
    estimateBitmap := priceBitmap }

end Binding

end Columnar
