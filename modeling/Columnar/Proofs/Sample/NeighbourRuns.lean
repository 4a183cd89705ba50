import Columnar.Proofs.Estimator.SampleOutcomes
import Columnar.Proofs.Footprint.Listed
import Columnar.Proofs.Sample.SampledRows

/-!
# Runs from sampled neighbours

The runs of a table are estimated from the pairs of neighbouring rows that were sampled: as many
occurrences continue a run as pairs repeat their tuple. At both ends the estimate is exact, through
the share, its rounding and the bound from below. If no pair repeats its tuple the share is zero,
and every occurrence begins a run (`estimatedRuns_of_no_repeat`). If all pairs do it is one, no
occurrence is left, and there are as many runs as tuples (`estimatedRuns_of_all_repeat`). The pairs
are those of the table (`RowSample.pairs`), not of the bitmap, so this is what a sample estimator
answers for such rows (`runs_of_sampled_pairs`).
-/

namespace Columnar

namespace SampleStats

variable {s : SampleStats} {offsets values : ℕ}

theorem estimatedRuns_of_no_repeat (pairs : 0 < s.adjacentPairs) (few : s.adjacentPairs < 2 ^ 53)
    (none : s.continuations = 0) (small : offsets < 2 ^ 53) (le : values ≤ offsets) :
    s.estimatedRuns offsets values = offsets := by
  have share : Denotes (asFloat s.continuations / asFloat s.adjacentPairs) 0 :=
    denotes_zero_div (none ▸ denotes_asFloat_zero) (denotes_asFloat few)
      (by exact_mod_cast pairs.ne')
  have continued := roundToCount_of_zero (denotes_zero_mul share (denotes_asFloat small))
  simp only [estimatedRuns]
  rw [if_pos pairs, continued, Nat.sub_zero, Nat.max_eq_left le]

theorem estimatedRuns_of_all_repeat (pairs : 0 < s.adjacentPairs) (few : s.adjacentPairs < 2 ^ 53)
    (all : s.continuations = s.adjacentPairs) (small : offsets < 2 ^ 53) (values : ℕ) :
    s.estimatedRuns offsets values = values := by
  simp only [estimatedRuns]
  rw [if_pos pairs, all, share_self pairs few, roundToCount_one_mul small, Nat.sub_self,
    Nat.zero_max]

section ScaleUp

variable {rows : ℕ} (consistent : s.Consistent) (fits : s.occurrences ≤ rows)
  (countable : rows ≤ maxCount) (sampleSize : ℕ)
include consistent fits countable

/-- The occurrences of the table are a counter, and no fewer than its tuples. -/
theorem estimates_countable :
    let offsets := s.estimatedOffsets sampleSize rows
    offsets ≤ maxCount ∧ s.estimatedValues offsets rows ≤ offsets := by
  obtain ⟨sampled, offs⟩ := estimatedOffsets_bounds fits sampleSize
  obtain ⟨-, vals⟩ := estimatedValues_bounds (consistent.occurrences.trans sampled) rows
  exact ⟨offs.trans countable, vals⟩

variable (pairs : 0 < s.adjacentPairs) (few : s.adjacentPairs ≤ maxCount) (cols groupCols : ℕ)
include pairs few

theorem scaleUp_runs_of_no_repeat (none : s.continuations = 0) :
    let f := s.scaleUp sampleSize rows cols groupCols
    f.runs = min maxCount (f.offs + s.emptyRuns) := by
  have exact53 : maxCount < 2 ^ 53 := by decide
  obtain ⟨offs, vals⟩ := estimates_countable consistent fits countable sampleSize
  have runs := estimatedRuns_of_no_repeat pairs (few.trans_lt exact53) none
    (offs.trans_lt exact53) vals
  simp only [scaleUp]
  rw [runs, capCount, Nat.min_comm]

theorem scaleUp_runs_of_all_repeat (all : s.continuations = s.adjacentPairs) :
    let f := s.scaleUp sampleSize rows cols groupCols
    f.runs = min maxCount (f.vals + s.emptyRuns) := by
  have exact53 : maxCount < 2 ^ 53 := by decide
  obtain ⟨offs, vals⟩ := estimates_countable consistent fits countable sampleSize
  have runs := estimatedRuns_of_all_repeat pairs (few.trans_lt exact53) all
    (offs.trans_lt exact53)
  simp only [scaleUp]
  rw [runs, capCount, capCount, Nat.min_eq_left (vals.trans offs), Nat.min_comm]

end ScaleUp

end SampleStats

/-- **Runs are exact where the sampled neighbours agree.** A sample estimator that extracts bitmaps
reads fewer rows than the table has for a column subset in range, and they include some listed row
with the row below it. Then the subset is priced by the factors that the sample is extrapolated to.
If no such pair has one tuple, all occurrences begin a run, and if every such pair has one, all
tuples do; the empty strides of the sample are added, and the sum is cut to 32 bits. -/
theorem runs_of_sampled_pairs {s : SampleEstimator}
    (extracts : s.binding.extractor = Bitmap.extract) (sample : RowSample s.binding.view)
    {columns : List ℕ} (reads : s.sampleFor columns = sample.rows) (subset : columns ≠ [])
    (inRange : ∀ column ∈ columns, column < s.binding.view.cols)
    (smaller : sample.rows.length < s.binding.view.rows) (pair : (sample.pairs columns).Nonempty) :
    let view := s.binding.view
    let e := sample.emptyStrides columns (max s.binding.blockSize 1)
    ∃ b f, Bitmap.extract columns view (some sample.rows) = .ok b ∧
      extrapolate b sample.rows.toArray view.rows view.cols s.binding.blockSize = .ok f ∧
      s.toEstimator.estimate columns = Pricing.ofFactors f s.binding.model s.binding.blockSize ∧
      ((∀ r ∈ sample.pairs columns, view.content columns (r + 1) ≠ view.content columns r) →
        f.runs = min maxCount (f.offs + e)) ∧
      ((∀ r ∈ sample.pairs columns, view.content columns (r + 1) = view.content columns r) →
        f.runs = min maxCount (f.vals + e)) := by
  intro view e
  have rowsInRange : ∀ selected, some sample.rows = some selected →
      ∀ row ∈ selected, row < view.rows := by
    rintro _ ⟨⟩
    exact sample.inTable
  have read := Bitmap.extract_eq_ok subset inRange rowsInRange
  generalize Bitmap.ofTuples columns.length _ = b at read
  have grouping := Bitmap.isGrouping_of_extract read
  have inSample : b.numbered.IsWithin sample.rows.length :=
    (Bitmap.isWithin_of_extract read).numbered
  have numbered : b.tuples.length ≤ maxCount :=
    View.length_groups_le (RowSample.grouping_table inRange grouping)
  have fits : b.occurrences ≤ view.rows := (Bitmap.occurrences_le read).trans smaller.le
  have sampled : b.tuples ≠ [] := RowSample.groups_ne_nil inRange grouping pair
  have positive : 0 < sample.rows.length := RowSample.length_pos pair
  let stats := SampleStats.collect b sample.rows.toArray s.binding.blockSize
  have counted : stats.occurrences ≤ view.rows :=
    (SampleStats.collect_counts numbered _ _).2.trans_le fits
  have consistent : stats.Consistent :=
    SampleStats.consistent_collect (Bitmap.wellFormed_of_extract read) _ _
  have pairs : stats.adjacentPairs = (sample.pairs columns).card :=
    RowSample.adjacentPairs_eq inRange grouping b.width s.binding.blockSize
  have continuations : stats.continuations = _ :=
    RowSample.continuations_eq inRange grouping b.width s.binding.blockSize
  have emptyRuns : stats.emptyRuns = e :=
    RowSample.emptyRuns_eq inRange grouping b.width s.binding.blockSize
  have anyPair : 0 < stats.adjacentPairs := pairs ▸ Finset.card_pos.mpr pair
  have few : stats.adjacentPairs ≤ maxCount := pairs ▸ RowSample.card_pairs_le
  have scaled := extrapolate_eq_scaleUp sampled numbered (List.size_toArray ▸ positive)
    (List.size_toArray ▸ smaller) fits view.cols s.binding.blockSize
  refine ⟨b, _, read, scaled, ?_, fun differ => ?_, fun alike => ?_⟩
  · rw [SampleEstimator.estimate_eq extracts, reads, read]
    exact SampleEstimator.priceOver_eq inSample scaled
  · have none : stats.continuations = 0 := by
      rw [continuations, Finset.card_eq_zero, Finset.filter_eq_empty_iff]
      exact differ
    rw [← emptyRuns]
    exact SampleStats.scaleUp_runs_of_no_repeat consistent counted view.rows_le _ anyPair few
      _ _ none
  · have all : stats.continuations = stats.adjacentPairs := by
      rw [continuations, pairs, Finset.filter_true_of_mem alike]
    rw [← emptyRuns]
    exact SampleStats.scaleUp_runs_of_all_repeat consistent counted view.rows_le _ anyPair few
      _ _ all

/-- The last two of three sampled rows repeat one tuple. -/
theorem runs_of_sampled_pairs_last_two :
    let s : SampleEstimator :=
      { binding := { view := Bitmap.mixedZeros, blockSize := 2 }, size := 3, seed := 0
        sample := [0, 3, 4], perColumn := false }
    let view := s.binding.view
    ∃ sample : RowSample view, sample.rows = [0, 3, 4] ∧
      s.binding.extractor = Bitmap.extract ∧ s.sampleFor [1, 0] = sample.rows ∧
      (∀ column ∈ [1, 0], column < view.cols) ∧ sample.rows.length < view.rows ∧
      (sample.pairs [1, 0]).Nonempty ∧
      ∃ b f, Bitmap.extract [1, 0] view (some sample.rows) = .ok b ∧
        extrapolate b sample.rows.toArray view.rows view.cols 2 = .ok f ∧
        s.toEstimator.estimate [1, 0] = Pricing.ofFactors f s.binding.model 2 ∧
        f.runs = min maxCount (f.vals + sample.emptyStrides [1, 0] 2) := by
  intro s view
  let sample : RowSample view := ⟨[0, 3, 4], by decide, by decide⟩
  have inRange : ∀ column ∈ [1, 0], column < view.cols := by decide
  have smaller : sample.rows.length < view.rows := by decide
  have pairs : sample.pairs [1, 0] = {3} := by decide +kernel
  have pair : (sample.pairs [1, 0]).Nonempty := pairs ▸ Finset.singleton_nonempty 3
  obtain ⟨b, f, read, scaled, priced, -, repeated⟩ := runs_of_sampled_pairs (s := s) rfl sample rfl
    (List.cons_ne_nil _ _) inRange smaller pair
  refine ⟨sample, rfl, rfl, rfl, inRange, smaller, pair, b, f, read, scaled, priced, ?_⟩
  refine repeated fun r mem => ?_
  rw [pairs, Finset.mem_singleton] at mem
  rw [mem]
  decide +kernel

end Columnar
