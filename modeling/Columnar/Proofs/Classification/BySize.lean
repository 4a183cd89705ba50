import Columnar.Proofs.Classification.Accounts
import Columnar.Proofs.Estimator.ColumnPrices
import Columnar.Proofs.Score

/-!
# Footprints are classified by their sizes

With the footprint model and the footprint baseline, classification compares whole numbers. The
price of a column holds the very size that the baseline answers for it (`baseline_eq`), although
the two take its density from different places; and as all sizes are positive and fit 53 bits, a
column pays exactly if its least size is smaller (`pays_iff`, `paysDense_iff`). A column that is
kept uncompressed then has nothing cheaper than the size it was last weighed against, and as that
size is one of its own or bounds one, its least size is equal to it (`classify_by_size`).

The baseline answers for every table of fewer than `2 ^ 60` cells (`allAnswered_footprint`), and the
listed rows of all columns of a table fit 64 bits, so a classification succeeds if every column is
priced. Every column is priced that a sample of fewer rows is drawn for, and in any case if its
sums fit 32 bits.
-/

namespace Columnar

open Classifier

/-- A classification of columns with the given prices that goes by their sizes. -/
structure DecidedBySize (rows count : ℕ) (priced : ℕ → Pricing) (r : Classification) : Prop where
  pricings : r.pricings = (List.range count).map priced
  /-- The uncompressed size in a price is the size that the baseline answers. -/
  entry : ∀ k < count, Footprint.uncompressedSize rows 1 (shareOf rows (priced k)) =
    .ok (priced k).sizes.uncompressed
  atMost : ∀ k < count, (priced k).minSize ≤ (priced k).sizes.uncompressed
  /-- The first round takes the columns with an encoding that is smaller. -/
  initially : ∀ k < count, (k ∈ r.compressible ∧ k ∉ r.statistics.corrected) ↔
    (priced k).minSize < (priced k).sizes.uncompressed
  /-- After a second round, what is left has the least size of a dense column. -/
  keptDense : storedDense Footprint.baseline rows count priced = true → ∀ k ∈ r.notCompressible,
    Footprint.uncompressedSize rows 1 1 = .ok (priced k).minSize
  /-- Without one, what is left has the least size of its own uncompressed storage. -/
  kept : storedDense Footprint.baseline rows count priced = false → ∀ k ∈ r.notCompressible,
    (priced k).minSize = (priced k).sizes.uncompressed

namespace IsColumnPrice

variable {rows blockSize : ℕ} {p : Pricing} (h : IsColumnPrice rows blockSize p)
  (countable : rows ≤ maxCount)
include h countable

/-- The uncompressed size in a price, by the share of the rows that the column lists. -/
theorem uncompressed_eq :
    p.sizes.uncompressed = Footprint.exactUncompressed rows 1 (shareOf rows p) := by
  obtain ⟨fits, inTable, single, offs⟩ := h.column
  have small : p.factors.rows < 2 ^ 53 := (inTable ▸ countable).trans_lt (by decide)
  have density : p.factors.density = shareOf rows p := by
    rw [Footprint.density_of_column single (inTable ▸ offs) small, inTable]
    rfl
  have cells : p.factors.rows * p.factors.groupCols ≤ 2 ^ 60 := by
    rw [single, Nat.mul_one]
    exact small.le.trans (by decide)
  have entry := Footprint.get_uncompressed fits.groupCols cells blockSize
  rw [← h.sizes, density, inTable, single] at entry
  exact entry

/-- The price holds the size that the baseline answers. -/
theorem baseline_eq : Footprint.uncompressedSize rows 1 (shareOf rows p) =
    .ok p.sizes.uncompressed := by
  rw [Footprint.uncompressedSize_column countable, h.uncompressed_eq countable]

omit countable in
theorem minSize_pos : 0 < p.minSize := by
  rw [Pricing.minSize, EncodingSizes.cheapest_eq_get, h.sizes]
  exact Footprint.sizes_pos p.factors blockSize _

theorem minSize_lt : p.minSize < 2 ^ 53 := by
  refine (p.minSize_le .uncompressed).trans_lt ?_
  show p.sizes.uncompressed < _
  rw [h.uncompressed_eq countable]
  exact Footprint.exactUncompressed_column_lt countable _

/-- A column pays in the first round if some encoding is smaller than uncompressed storage. -/
theorem pays_iff : (ownScore Footprint.baseline rows p).isBeneficial = true ↔
    p.minSize < p.sizes.uncompressed := by
  have own : ownScore Footprint.baseline rows p = ⟨p.sizes.uncompressed, p.minSize⟩ :=
    congrArg (Score.mk · _) (congrArg answered (h.baseline_eq countable))
  have small : p.sizes.uncompressed < 2 ^ 53 :=
    h.uncompressed_eq countable ▸ Footprint.exactUncompressed_column_lt countable _
  rw [own, Score.isBeneficial_iff small (h.minSize_lt countable)]
  exact and_iff_right h.minSize_pos

/-- A column pays in the second round if some encoding is smaller than a dense column. -/
theorem paysDense_iff : (denseScore Footprint.baseline rows p).isBeneficial = true ↔
    p.minSize < Footprint.exactUncompressed rows 1 1 := by
  have dense : denseScore Footprint.baseline rows p =
      ⟨Footprint.exactUncompressed rows 1 1, p.minSize⟩ :=
    congrArg (Score.mk · _) (congrArg answered (Footprint.uncompressedSize_column countable 1))
  have small := Footprint.exactUncompressed_column_lt countable 1
  rw [dense, Score.isBeneficial_iff small (h.minSize_lt countable)]
  exact and_iff_right h.minSize_pos

end IsColumnPrice

section Prices

variable {rows count blockSize : ℕ} {priced : ℕ → Pricing}
  (prices : ∀ k < count, IsColumnPrice rows blockSize (priced k)) (countable : rows ≤ maxCount)
include prices countable

/-- Prices of columns are classified by their sizes. -/
theorem decidedBySize_of_partition {r : Classification}
    (success : partition Footprint.baseline rows ((List.range count).map priced) = .ok r) :
    DecidedBySize rows count priced r := by
  have answers := answers_of_partition success
  refine ⟨answers.pricings, fun k hk => (prices k hk).baseline_eq countable,
    fun k _ => (priced k).minSize_le .uncompressed, ?_, ?_, ?_⟩
  · intro k hk
    rw [answers.own_decision k hk]
    exact (prices k hk).pays_iff countable
  · intro dense k mem
    rw [answers.notCompressible, kept_eq_filter dense, List.mem_filter] at mem
    obtain ⟨left, unpaid⟩ := mem
    have hk := (mem_leftOver.mp left).1
    -- nothing is smaller than a dense column, and the column's own storage is no larger
    have notSmaller : ¬ (priced k).minSize < Footprint.exactUncompressed rows 1 1 := by
      rw [← (prices k hk).paysDense_iff countable]
      exact Bool.eq_false_iff.mp (Bool.not_eq_true' _ ▸ unpaid)
    have own : (priced k).minSize ≤ Footprint.exactUncompressed rows 1 1 := by
      refine ((priced k).minSize_le .uncompressed).trans ?_
      show (priced k).sizes.uncompressed ≤ _
      rw [(prices k hk).uncompressed_eq countable]
      exact Footprint.exactUncompressed_le_full (countable.trans_lt (by decide)) _
    rw [Footprint.uncompressedSize_column countable,
      Nat.le_antisymm own (Nat.le_of_not_lt notSmaller)]
  · intro sparse k mem
    rw [answers.notCompressible, kept_eq_leftOver sparse] at mem
    obtain ⟨hk, unpaid⟩ := mem_leftOver.mp mem
    have notSmaller : ¬ (priced k).minSize < (priced k).sizes.uncompressed := by
      rw [← (prices k hk).pays_iff countable]
      exact Bool.eq_false_iff.mp unpaid
    exact Nat.le_antisymm ((priced k).minSize_le .uncompressed) (Nat.le_of_not_lt notSmaller)

/-- Priced columns list no more than fits 64 bits. -/
theorem listed_leftOver_le_of_prices (colsFit : count ≤ maxCount) (b : Baseline) :
    listed priced (leftOver b rows count priced) ≤ maxSize :=
  listed_leftOver_le (fun k hk => (prices k hk).column.offs) countable colsFit

/-- The footprint baseline answers all that it is asked about a table of columns. -/
theorem allAnswered_footprint (colsFit : count ≤ maxCount) (cells : rows * count < 2 ^ 60) :
    AllAnswered Footprint.baseline rows count priced where
  own _ _ := ⟨_, Footprint.uncompressedSize_column countable _⟩
  layout _ :=
    have block := Nat.mul_le_mul_left rows (length_leftOver_le Footprint.baseline rows count priced)
    Footprint.exists_prefersSparse (block.trans_lt cells)
      (listed_leftOver_le_of_prices prices countable colsFit _)
  dense _ := ⟨_, Footprint.uncompressedSize_column countable 1⟩

end Prices

/-- How an estimator of a table is classified with footprints. -/
structure ClassifiedBySize (view : View) (pool : WorkerPool) (e : Estimator) : Prop where
  /-- What is answered goes by the sizes of the priced columns. -/
  decided : ∀ r, ({ pool } : Classifier).classify e = .ok r →
    ∃ priced, (∀ column < view.cols, e.estimate [column] = .ok (priced column)) ∧
      DecidedBySize view.rows view.cols priced r
  /-- A table with fewer than `2 ^ 60` cells is classified if its columns are priced. -/
  succeeds : (∀ column < view.cols, ∃ p, e.estimate [column] = .ok p) →
    view.rows * view.cols < 2 ^ 60 → ∃ r, ({ pool } : Classifier).classify e = .ok r

theorem classifiedBySize {view : View} {blockSize : ℕ} {pool : WorkerPool} (starts : pool.Starts)
    {e : Estimator} (rows : e.rows = view.rows) (cols : e.cols = view.cols)
    (prices : ∀ column p, e.estimate [column] = .ok p → IsColumnPrice view.rows blockSize p) :
    ClassifiedBySize view pool e where
  decided r success := by
    obtain ⟨priced, succeeds, parted⟩ := exists_priced_of_classify success
    rw [rows, cols] at parted
    rw [cols] at succeeds
    exact ⟨priced, succeeds,
      decidedBySize_of_partition (fun k hk => prices k _ (succeeds k hk)) view.rows_le parted⟩
  succeeds estimates cells := by
    have : Nonempty Pricing := ⟨sizedColumn 0⟩
    choose! priced succeeds using estimates
    have columns : ∀ k < view.cols, IsColumnPrice view.rows blockSize (priced k) :=
      fun k hk => prices k _ (succeeds k hk)
    have same := classify_eq_partition (c := { pool }) starts (e := e) (cols ▸ succeeds)
    rw [same, rows, cols]
    exact exists_partition (allAnswered_footprint columns view.rows_le view.cols_le cells)
      (listed_leftOver_le_of_prices columns view.rows_le view.cols_le _)

/-- **Footprints are classified by their sizes.** The exact estimator and the sample estimators,
with one sample or one for each column, of any size and seed and with any selector of different
rows, are classified against the footprint baseline by the sizes in their prices, with any number of
workers that start and in any order. Every column is priced whose sums fit, and by a sample of
fewer rows every column. -/
theorem classify_by_size (view : View) (blockSize size : ℕ) (seed : UInt64) (select : Selector)
    (selects : select.Selects) (pool : WorkerPool) (starts : pool.Starts) :
    let binding : Binding := { view, select, blockSize }
    let sampled := SampleEstimator.ofSize binding size seed
    (∀ e ∈ [binding.exact, sampled.toEstimator, sampled.withPerColumnSamples.toEstimator],
      ClassifiedBySize view pool e ∧
        ∀ column < view.cols, view.SumsFit [column] (max blockSize 1) →
          ∃ p, e.estimate [column] = .ok p) ∧
    (size < view.rows →
      ∀ e ∈ [sampled.toEstimator, sampled.withPerColumnSamples.toEstimator],
        ∀ column < view.cols, ∃ p, e.estimate [column] = .ok p) := by
  intro binding sampled
  have selects : binding.select.Selects := selects
  have shared : SampleEstimator.ReadsTable sampled :=
    SampleEstimator.readsTable_ofSize selects size seed
  have own : SampleEstimator.ReadsTable sampled.withPerColumnSamples :=
    shared.withPerColumnSamples selects
  have exact : ∀ column p, binding.exact.estimate [column] = .ok p →
      IsColumnPrice view.rows blockSize p := fun _ _ => isColumnPrice_of_exact
  refine ⟨fun e mem => ?_, fun smaller e mem column inRange => ?_⟩
  · rcases List.mem_cons.mp mem with rfl | mem
    · exact ⟨classifiedBySize starts rfl rfl exact, fun _ inRange fit => fit.exists_exact inRange⟩
    rcases List.mem_cons.mp mem with rfl | mem
    · exact ⟨classifiedBySize starts rfl rfl fun _ _ => shared.isColumnPrice rfl rfl,
        fun _ inRange fit => shared.exists_estimate rfl rfl inRange (.inr fit)⟩
    obtain rfl := List.mem_singleton.mp mem
    exact ⟨classifiedBySize starts rfl rfl fun _ _ => own.isColumnPrice rfl rfl,
      fun _ inRange fit => own.exists_estimate rfl rfl inRange (.inr fit)⟩
  · obtain ⟨length, length'⟩ :=
      SampleEstimator.length_sampleFor_ofSize selects size seed [column]
    have fewer : min size view.rows < view.rows := (Nat.min_le_left ..).trans_lt smaller
    rcases List.mem_cons.mp mem with rfl | mem
    · exact shared.exists_estimate rfl rfl inRange (.inl (length.trans_lt fewer))
    obtain rfl := List.mem_singleton.mp mem
    exact own.exists_estimate rfl rfl inRange (.inl (length'.trans_lt fewer))

theorem classify_by_size_mixed_zeros :
    let binding : Binding := { view := Bitmap.mixedZeros, blockSize := 2 }
    let sampled := SampleEstimator.ofSize binding 3 7
    let e := sampled.withPerColumnSamples.toEstimator
    Selector.Selects Selection.seeded ∧ WorkerPool.single.Starts ∧
      e ∈ [binding.exact, sampled.toEstimator, e] ∧ 3 < Bitmap.mixedZeros.rows ∧
      ∃ r, ({ pool := .single } : Classifier).classify e = .ok r ∧
        ∃ priced, (∀ column < Bitmap.mixedZeros.cols, e.estimate [column] = .ok (priced column)) ∧
          DecidedBySize Bitmap.mixedZeros.rows Bitmap.mixedZeros.cols priced r := by
  intro binding sampled e
  have selects := Selection.selects_seeded
  have starts : WorkerPool.single.Starts := rfl
  have mem : e ∈ [binding.exact, sampled.toEstimator, e] :=
    List.mem_cons_of_mem _ (List.mem_cons_of_mem _ List.mem_cons_self)
  have smaller : 3 < Bitmap.mixedZeros.rows := by decide
  obtain ⟨bySize, priced⟩ := classify_by_size Bitmap.mixedZeros 2 3 7 _ selects .single starts
  obtain ⟨classified, -⟩ := bySize e mem
  obtain ⟨r, success⟩ := classified.succeeds
    (priced smaller e (List.mem_cons_of_mem _ List.mem_cons_self)) (by decide)
  exact ⟨selects, starts, mem, smaller, r, success, classified.decided r success⟩

end Columnar
