import Columnar.Proofs.Estimator.ExactCounts
import Columnar.Proofs.Estimator.FullSample
import Columnar.Proofs.Sample.ScaleUpBounds
import Columnar.Proofs.Sample.Selection

/-!
# Prices of single columns

Whatever the exact estimator and the sample estimators answer for one column, with the default
extractor and the footprint model, is the price of factors with no more listed rows than the table
has (`isColumnPrice_of_exact`, `SampleEstimator.ReadsTable.isColumnPrice`). An estimator that counts
all rows stops where its sums leave 32 bits, and else it answers; one that reads fewer rows scales
up and always answers (`SampleEstimator.ReadsTable.exists_scaled`), because its samples are rows of
the table, its bitmaps stay in the sample, and the extrapolation holds the listed rows within the
table.
-/

namespace Columnar

/-- Factors of one column of a table. -/
structure Factors.OfColumn (tableRows : ℕ) (f : Factors) : Prop where
  fits : f.Fits
  rows : f.rows = tableRows
  groupCols : f.groupCols = 1
  offs : f.offs ≤ tableRows

/-- The price of one column of a table, by the footprint model. -/
structure IsColumnPrice (tableRows blockSize : ℕ) (p : Pricing) : Prop where
  column : p.factors.OfColumn tableRows
  sizes : p.sizes = Footprint.sizes p.factors blockSize

/-- A column is far from the number of cells for which there are no footprints. -/
theorem Factors.OfColumn.priced {tableRows : ℕ} {f : Factors} (column : f.OfColumn tableRows)
    (blockSize : ℕ) :
    Pricing.ofFactors f SizeModel.footprint blockSize = .ok (Footprint.price f blockSize) := by
  have cells : f.rows * f.groupCols ≤ 2 ^ 60 := by
    rw [column.groupCols, Nat.mul_one]
    exact column.fits.rows.trans (by decide)
  exact Pricing.ofFactors_footprint column.fits
    (Footprint.within_table column.fits (column.rows ▸ column.offs) cells) blockSize

theorem Factors.OfColumn.isColumnPrice {tableRows blockSize : ℕ} {f : Factors} {p : Pricing}
    (column : f.OfColumn tableRows)
    (answer : Pricing.ofFactors f SizeModel.footprint blockSize = .ok p) :
    IsColumnPrice tableRows blockSize p := by
  rw [column.priced] at answer
  cases answer
  exact ⟨column, rfl⟩

variable {view : View} {blockSize column : ℕ} {columns : List ℕ} {p : Pricing}

/-- An extraction lists no more rows than it reads. -/
theorem Bitmap.occurrences_le {rows : Option (List ℕ)} {b : Bitmap}
    (success : extract columns view rows = .ok b) :
    b.occurrences ≤ (rows.getD (List.range view.rows)).length := by
  have grouping := isGrouping_of_extract success
  have count : (positions b.tuples).length = b.occurrences := List.length_flatMap ..
  have within : positions b.tuples ⊆ List.range (rows.getD (List.range view.rows)).length := by
    intro p mem
    obtain ⟨t, ht, listed⟩ := List.mem_flatMap.mp mem
    exact List.mem_range.mpr (lt_of_extract success ht listed)
  have fits := (grouping.once.subperm within).length_le
  rwa [count, List.length_range] at fits

/-! ### All rows -/

theorem View.ExactAnswer.ofColumn {f : Factors} (answer : view.ExactAnswer blockSize [column] f) :
    f.OfColumn view.rows :=
  ⟨answer.fits, answer.rows_eq, answer.groupCols_eq, answer.offs_le⟩

/-- What the exact estimator answers for a column is a price of it. -/
theorem isColumnPrice_of_exact
    (success : ({ view, blockSize } : Binding).exact.estimate [column] = .ok p) :
    IsColumnPrice view.rows blockSize p := by
  obtain ⟨b, read, counted⟩ := exists_of_bind_eq_ok success
  obtain ⟨f, computed, priced⟩ := exists_of_bind_eq_ok counted
  have answer : view.ExactAnswer blockSize [column] f := exactAnswer_iff.mpr ⟨b, read, computed⟩
  exact answer.ofColumn.isColumnPrice priced

/-- The exact estimator prices every column whose sums fit. -/
theorem View.SumsFit.exists_exact (fit : view.SumsFit [column] (max blockSize 1))
    (inRange : column < view.cols) :
    ∃ p, ({ view, blockSize } : Binding).exact.estimate [column] = .ok p := by
  have answer := fit.exactAnswer (List.cons_ne_nil _ _) (by simpa using inRange)
  exact ⟨_, (answer SizeModel.footprint).trans (answer.ofColumn.priced blockSize)⟩

/-! ### Extrapolated factors -/

section Extrapolate

variable {b : Bitmap} {sample : Array ℕ} {rows cols : ℕ} {f : Factors}

/-- Estimates list no more rows than the bitmap or the table. -/
theorem offs_le_of_extrapolate (scaled : extrapolate b sample rows cols blockSize = .ok f) :
    f.offs ≤ max b.numbered.occurrences rows := by
  unfold extrapolate at scaled
  split at scaled
  · obtain ⟨-, rfl⟩ := Factors.compute_eq_ok_iff.mp scaled
    exact Nat.le_max_left ..
  · simp only at scaled
    split at scaled
    · cases scaled
      exact Nat.zero_le _
    · split at scaled
      · cases scaled
      · rename_i fits
        cases scaled
        have within := (SampleStats.estimatedOffsets_bounds (Nat.le_of_not_lt fits) sample.size).2
        exact within.trans (Nat.le_max_right ..)

/-- Estimates fit their counters, and the table and the width stay. -/
theorem fits_of_extrapolate (scaled : extrapolate b sample rows cols blockSize = .ok f)
    (rowsFit : rows ≤ maxCount) (colsFit : cols ≤ maxCount) :
    f.Fits ∧ f.rows = rows ∧ f.groupCols = low32 b.width := by
  have width : low32 b.width ≤ maxCount := Nat.le_of_lt_succ (Nat.mod_lt _ (Nat.succ_pos maxCount))
  unfold extrapolate at scaled
  split at scaled
  · have counted := Factors.fits_of_compute scaled rowsFit colsFit
    obtain ⟨-, rfl⟩ := Factors.compute_eq_ok_iff.mp scaled
    exact ⟨counted, rfl, rfl⟩
  · simp only at scaled
    split at scaled
    · cases scaled
      exact ⟨⟨Nat.zero_le _, Nat.zero_le _, Nat.zero_le _, Nat.zero_le _, Nat.zero_le _, rowsFit,
        colsFit, width⟩, rfl, rfl⟩
    · split at scaled
      · cases scaled
      · rename_i fits
        cases scaled
        have offs := (SampleStats.estimatedOffsets_bounds (Nat.le_of_not_lt fits) sample.size).2
        exact ⟨⟨Nat.min_le_right .., offs.trans (rowsFit.trans (by decide)), Nat.min_le_right ..,
          Nat.min_le_right .., Nat.min_le_right .., rowsFit, colsFit, width⟩, rfl, rfl⟩

/-- A bitmap over fewer rows that lists no more than the rows of the table is scaled up. -/
theorem exists_extrapolate (smaller : sample.size < rows) (fits : b.numbered.occurrences ≤ rows)
    (cols blockSize : ℕ) : ∃ f, extrapolate b sample rows cols blockSize = .ok f := by
  have listed : (SampleStats.collect b sample blockSize).occurrences = b.numbered.occurrences :=
    congrArg total List.map_map
  unfold extrapolate
  rw [if_neg (Nat.not_le.mpr smaller)]
  simp only
  split
  · exact ⟨_, rfl⟩
  · exact ⟨_, if_neg (Nat.not_lt.mpr (listed ▸ fits))⟩

end Extrapolate

/-! ### Samples -/

namespace SampleEstimator

variable {s : SampleEstimator}

/-- A sample estimator whose samples are rows of the table: fewer than it has, or all in order. -/
structure ReadsTable (s : SampleEstimator) : Prop where
  inTable : ∀ columns, ∀ row ∈ s.sampleFor columns, row < s.binding.view.rows
  smaller_or_all : ∀ columns, (s.sampleFor columns).length < s.binding.view.rows ∨
    s.sampleFor columns = List.range s.binding.view.rows

theorem ReadsTable.fits (reads : ReadsTable s) (columns : List ℕ) :
    (s.sampleFor columns).length ≤ s.binding.view.rows := by
  rcases reads.smaller_or_all columns with smaller | all
  · exact smaller.le
  · rw [all, List.length_range]

theorem readsTable_ofSize {binding : Binding} (selects : binding.select.Selects) (size : ℕ)
    (seed : UInt64) : ReadsTable (ofSize binding size seed) where
  inTable _ := Selector.lt_of_mem_draw selects
  smaller_or_all _ := Selector.smaller_or_all_draw selects _ _ seed

theorem sampleFor_nil (s : SampleEstimator) : s.sampleFor [] = s.sample := by
  unfold sampleFor
  split
  · rename_i subset
    cases subset
  · rfl

theorem ReadsTable.withPerColumnSamples (reads : ReadsTable s)
    (selects : s.binding.select.Selects) : ReadsTable s.withPerColumnSamples where
  inTable columns := by
    cases columns with
    | nil =>
      rw [sampleFor_nil]
      exact s.sampleFor_nil ▸ reads.inTable []
    | cons first rest => exact Selector.lt_of_mem_draw selects
  smaller_or_all columns := by
    cases columns with
    | nil =>
      rw [sampleFor_nil]
      exact s.sampleFor_nil ▸ reads.smaller_or_all []
    | cons first rest => exact Selector.smaller_or_all_draw selects _ _ _

/-- The shared sample has the size that was asked for, cut to the table, and so has each sample of a
column subset. -/
theorem length_sampleFor_ofSize {binding : Binding} (selects : binding.select.Selects) (size : ℕ)
    (seed : UInt64) (columns : List ℕ) :
    ((ofSize binding size seed).sampleFor columns).length = min size binding.view.rows ∧
      ((ofSize binding size seed).withPerColumnSamples.sampleFor columns).length =
        min size binding.view.rows := by
  have drawn : ∀ seed, (binding.select.draw binding.view.rows (min size binding.view.rows)
      seed).length = min size binding.view.rows := by
    intro seed
    rw [Selector.length_draw selects, Nat.min_assoc, Nat.min_self]
  refine ⟨drawn seed, ?_⟩
  cases columns with
  | nil => exact drawn seed
  | cons first rest => exact drawn _

/-- What is read over a sample of fewer rows is scaled up, and so is what is read over all of them
if it can be counted. -/
theorem ReadsTable.exists_scaled (reads : ReadsTable s) (subset : columns ≠ [])
    (inRange : ∀ column ∈ columns, column < s.binding.view.cols)
    (counted : (s.sampleFor columns).length < s.binding.view.rows ∨
      s.binding.view.SumsFit columns (max s.binding.blockSize 1)) :
    ∃ b f, Bitmap.extract columns s.binding.view (some (s.sampleFor columns)) = .ok b ∧
      b.width = columns.length ∧
      extrapolate b (s.sampleFor columns).toArray s.binding.view.rows s.binding.view.cols
        s.binding.blockSize = .ok f := by
  rcases reads.smaller_or_all columns with smaller | all
  · have read := Bitmap.extract_eq_ok subset inRange
      (show ∀ selected, some (s.sampleFor columns) = some selected → _ by
        rintro _ ⟨⟩
        exact reads.inTable columns)
    have listed := (Bitmap.occurrences_numbered_le _).trans (Bitmap.occurrences_le read)
    have sampled : (s.sampleFor columns).toArray.size < s.binding.view.rows := by
      rwa [List.size_toArray]
    obtain ⟨f, scaled⟩ := exists_extrapolate sampled
      (listed.trans (reads.fits columns)) s.binding.view.cols s.binding.blockSize
    exact ⟨_, f, read, rfl, scaled⟩
  · rw [all, List.length_range] at counted
    have answer := (counted.resolve_left (lt_irrefl _)).exactAnswer subset inRange
    obtain ⟨b, read, computed⟩ := exactAnswer_iff.mp answer
    have width : b.width = columns.length := by rw [Bitmap.eq_ofTuples_of_extract read]; rfl
    rw [all, Bitmap.extract_range]
    exact ⟨b, _, read, width, (extrapolate_of_le (by simp) _ _).trans computed⟩

theorem estimate_eq (extracts : s.binding.extractor = Bitmap.extract) (columns : List ℕ) :
    s.toEstimator.estimate columns =
      Bitmap.extract columns s.binding.view (some (s.sampleFor columns)) >>=
        s.priceOver (s.sampleFor columns) := by
  rw [← extracts]
  rfl

/-- What is priced over a sample has been scaled up. -/
theorem exists_of_priceOver {sample : List ℕ} {b : Bitmap} (priced : s.priceOver sample b = .ok p) :
    ∃ f, extrapolate b sample.toArray s.binding.view.rows s.binding.view.cols
        s.binding.blockSize = .ok f ∧
      Pricing.ofFactors f s.binding.model s.binding.blockSize = .ok p := by
  unfold priceOver at priced
  simp only at priced
  split at priced
  · cases priced
  · exact exists_of_bind_eq_ok priced

namespace ReadsTable

variable (reads : ReadsTable s)
include reads

theorem ofColumn_of_scaled {b : Bitmap} {f : Factors}
    (read : Bitmap.extract [column] s.binding.view (some (s.sampleFor [column])) = .ok b)
    (scaled : extrapolate b (s.sampleFor [column]).toArray s.binding.view.rows s.binding.view.cols
      s.binding.blockSize = .ok f) : f.OfColumn s.binding.view.rows := by
  obtain ⟨fits, rows, groupCols⟩ :=
    fits_of_extrapolate scaled s.binding.view.rows_le s.binding.view.cols_le
  have listed :=
    b.occurrences_numbered_le.trans ((Bitmap.occurrences_le read).trans (reads.fits [column]))
  have width : b.width = 1 := by rw [Bitmap.eq_ofTuples_of_extract read]; rfl
  rw [width] at groupCols
  exact ⟨fits, rows, groupCols,
    (offs_le_of_extrapolate scaled).trans (Nat.max_le.mpr ⟨listed, le_rfl⟩)⟩

variable (extracts : s.binding.extractor = Bitmap.extract)
  (prices : s.binding.model = SizeModel.footprint)
include extracts prices

/-- What a sample estimator answers for a column is a price of it. -/
theorem isColumnPrice (success : s.toEstimator.estimate [column] = .ok p) :
    IsColumnPrice s.binding.view.rows s.binding.blockSize p := by
  rw [estimate_eq extracts] at success
  obtain ⟨b, read, estimated⟩ := exists_of_bind_eq_ok success
  obtain ⟨f, scaled, priced⟩ := exists_of_priceOver estimated
  rw [prices] at priced
  exact (reads.ofColumn_of_scaled read scaled).isColumnPrice priced

/-- A sample estimator prices every column that it samples, or whose sums fit. -/
theorem exists_estimate (inRange : column < s.binding.view.cols)
    (counted : (s.sampleFor [column]).length < s.binding.view.rows ∨
      s.binding.view.SumsFit [column] (max s.binding.blockSize 1)) :
    ∃ p, s.toEstimator.estimate [column] = .ok p := by
  obtain ⟨b, f, read, -, scaled⟩ :=
    reads.exists_scaled (List.cons_ne_nil _ _) (by simpa using inRange) counted
  have priced := priceOver_eq (Bitmap.isWithin_of_extract read).numbered scaled
  rw [prices, (reads.ofColumn_of_scaled read scaled).priced] at priced
  rw [estimate_eq extracts, read]
  exact ⟨_, priced⟩

end ReadsTable

end SampleEstimator

end Columnar
