import Columnar.Estimator.Sampled
import Columnar.Proofs.Bitmap.Extraction
import Columnar.Proofs.Bitmap.Parts

/-!
# Samples of all rows

A sample estimator whose size reaches the row count reads every row in order, in either mode
(`ReadsAll`). It then answers as the exact estimator does (`ReadsAll.agree`), although it selects
the rows one by one, looks for offsets outside its sample, and goes through the extrapolation.
-/

namespace Columnar

/-- Estimators that answer alike. Bitmaps are compared on positions below the row count. -/
structure Estimator.Agree (e e' : Estimator) : Prop where
  rows : e.rows = e'.rows
  cols : e.cols = e'.cols
  /-- The same prices, or the same failure, for every column list. -/
  estimate : ∀ columns, e.estimate columns = e'.estimate columns
  /-- The same for every bitmap. -/
  estimateBitmap : ∀ b : Bitmap, (∀ t ∈ b.tuples, ∀ p ∈ t.offsets, p < e'.rows) →
    e.estimateBitmap b = e'.estimateBitmap b

theorem Selector.draw_of_le (select : Selector) {rows size : Nat} (full : rows ≤ size)
    (seed : UInt64) : select.draw rows size seed = List.range rows := if_pos full

theorem extrapolate_of_le {b : Bitmap} {sample : Array Nat} {rows : Nat} (full : rows ≤ sample.size)
    (cols blockSize : Nat) : extrapolate b sample rows cols blockSize =
      Factors.compute b true rows cols blockSize := if_pos full

namespace SampleEstimator

variable {s : SampleEstimator} {b : Bitmap}

theorem outsideSample?_eq_none {size : Nat} (within : b.numbered.IsWithin size) :
    outsideSample? b size = none := by
  rw [outsideSample?, List.find?_eq_none]
  intro last mem
  obtain ⟨t, ht, isLast⟩ := List.mem_filterMap.mp mem
  have bound := within t ht last (List.mem_of_getLast? isLast)
  simpa using bound

/-- A bitmap over a sample is extrapolated and priced by what comes of that. -/
theorem priceOver_eq_bind {sample : List Nat} (within : b.numbered.IsWithin sample.length) :
    s.priceOver sample b = (do
      let factors ← extrapolate b sample.toArray s.binding.view.rows s.binding.view.cols
        s.binding.blockSize
      Pricing.ofFactors factors s.binding.model s.binding.blockSize) := by
  have inside : outsideSample? b sample.toArray.size = none :=
    outsideSample?_eq_none (List.size_toArray ▸ within)
  simp only [priceOver, inside]

theorem priceOver_eq {sample : List Nat} {f : Factors} (within : b.numbered.IsWithin sample.length)
    (scaled : extrapolate b sample.toArray s.binding.view.rows s.binding.view.cols
      s.binding.blockSize = .ok f) :
    s.priceOver sample b = Pricing.ofFactors f s.binding.model s.binding.blockSize := by
  rw [priceOver_eq_bind within, scaled]
  rfl

/-- Over a sample of all rows, a bitmap is priced as the exact estimator prices it. -/
theorem priceOver_range (within : b.IsWithin s.binding.view.rows) :
    s.priceOver (List.range s.binding.view.rows) b = s.binding.exact.estimateBitmap b := by
  have full : s.binding.view.rows ≤ (List.range s.binding.view.rows).toArray.size := by simp
  rw [priceOver_eq_bind (by simpa using within.numbered), extrapolate_of_le full]
  rfl

/-- A sample estimator that reads every row, in either mode. -/
structure ReadsAll (s : SampleEstimator) : Prop where
  size : s.binding.view.rows ≤ s.size
  sample : s.sample = List.range s.binding.view.rows

theorem readsAll_ofSize {binding : Binding} {size : Nat} (full : binding.view.rows ≤ size)
    (seed : UInt64) : ReadsAll (ofSize binding size seed) where
  size := Nat.le_min.mpr ⟨full, Nat.le_refl _⟩
  sample := binding.select.draw_of_le (Nat.le_min.mpr ⟨full, Nat.le_refl _⟩) seed

namespace ReadsAll

theorem withPerColumnSamples (all : ReadsAll s) : ReadsAll s.withPerColumnSamples :=
  ⟨all.size, all.sample⟩

/-- Every column subset is read on all rows, also with a sample of its own. -/
theorem sampleFor (all : ReadsAll s) (columns : List Nat) :
    s.sampleFor columns = List.range s.binding.view.rows := by
  unfold SampleEstimator.sampleFor
  split
  · exact s.binding.select.draw_of_le all.size _
  · exact all.sample

theorem agree (all : ReadsAll s) (extracts : s.binding.extractor = Bitmap.extract) :
    s.toEstimator.Agree s.binding.exact where
  rows := rfl
  cols := rfl
  estimate columns := by
    simp only [toEstimator, Binding.exact, extracts, all.sampleFor, Bitmap.extract_range]
    cases read : Bitmap.extract columns s.binding.view none with
    | error failure => rfl
    | ok b => exact priceOver_range (by simpa using Bitmap.isWithin_of_extract read)
  estimateBitmap b below := by
    simp only [toEstimator, all.sample]
    exact priceOver_range below

end ReadsAll

end SampleEstimator

/-- **A sample of all rows is exact**, for every table, orientation, size model, selector, block
size and seed, whether one sample serves all column subsets or each has its own. -/
theorem agree_of_full_sample (view : View) (model : SizeModel) (select : Selector)
    (blockSize : Nat) {size : Nat} (seed : UInt64) (full : view.rows ≤ size) :
    let binding : Binding := { view, model, select, blockSize }
    let sampled := SampleEstimator.ofSize binding size seed
    sampled.toEstimator.Agree binding.exact ∧
      sampled.withPerColumnSamples.toEstimator.Agree binding.exact := by
  intro binding sampled
  have all : SampleEstimator.ReadsAll sampled := SampleEstimator.readsAll_ofSize full seed
  exact ⟨all.agree rfl, all.withPerColumnSamples.agree rfl⟩

/-- A size model that cannot price runs. -/
def withoutRuns : SizeModel := fun e f =>
  if e = .runLength then .error (.sizeModel "no runs") else SizeModel.footprint e f

theorem agree_of_full_sample_without_runs :
    Bitmap.mixedZeros.rows ≤ 9 ∧
      let binding : Binding :=
        { view := Bitmap.mixedZeros, model := withoutRuns, blockSize := 2 }
      let sampled := SampleEstimator.ofSize binding 9 7
      sampled.toEstimator.Agree binding.exact ∧
        sampled.withPerColumnSamples.toEstimator.Agree binding.exact := by
  have full : Bitmap.mixedZeros.rows ≤ 9 := by decide
  exact ⟨full, agree_of_full_sample Bitmap.mixedZeros withoutRuns Selection.seeded 2 7 full⟩

end Columnar
