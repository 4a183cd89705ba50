import Columnar.Proofs.Sample.Selection

/-!
# Drawn rows

A sample is made from a selection of row ids: they are cut to 32 bits and sorted. All that this
takes from the selection is that its numbers are different, below the row count, and as many as
were asked for (`Selection.Selects`). Then the cut changes none of them, sorting makes their order
strict, and the sample has all rows where it has as many as the table
(`IsRowSample.eq_range_of_le`). Each of the three ways to select meets that for every seed, so a
drawn sample is such a sample (`draws_different_rows`).
-/

namespace Columnar

/-- Different rows of a table in order, as many as were asked for or as the table has. -/
structure IsRowSample (rows size : ℕ) (sample : List ℕ) : Prop where
  increasing : sample.Pairwise (· < ·)
  length : sample.length = min size rows
  inTable : ∀ row ∈ sample, row < rows

/-- The sample of a selection, with row ids of 32 bits. A size that reaches the row count takes all
rows and no selection. -/
def sampleOf (rows size : ℕ) (selected : List ℕ) : List ℕ :=
  if rows ≤ size then List.range (low32 rows) else (selected.map low32).mergeSort

variable {rows size : ℕ} {sample selected : List ℕ}

/-- There is one increasing list of as many numbers below a bound as there are. -/
theorem IsRowSample.eq_range_of_le (drawn : IsRowSample rows size sample) (all : rows ≤ size) :
    sample = List.range rows := by
  have within : sample ⊆ List.range rows :=
    fun row mem => List.mem_range.mpr (drawn.inTable row mem)
  have contained := List.subperm_of_subset (drawn.increasing.imp Nat.ne_of_lt) within
  have many : (List.range rows).length ≤ sample.length := by
    rw [List.length_range, drawn.length, Nat.min_eq_right all]
  exact (contained.perm_of_length_le many).eq_of_pairwise' drawn.increasing List.pairwise_lt_range

/-- Row ids fit 32 bits. -/
theorem map_low32 (countable : rows ≤ maxCount) (below : ∀ number ∈ selected, number < rows) :
    selected.map low32 = selected :=
  (List.map_congr_left fun number mem => low32_of_le ((below number mem).le.trans countable)).trans
    (List.map_id _)

theorem drawSample_eq_sampleOf (countable : rows ≤ maxCount) (size : ℕ) (seed : UInt64) :
    drawSample rows size seed =
      sampleOf rows size (Selection.select rows size (.ofSeed seed)) := by
  unfold drawSample Selector.draw sampleOf
  split
  · rw [low32_of_le countable]
  · rename_i fewer
    have below := Selection.lt_of_mem_select (Nat.lt_of_not_le fewer) (.ofSeed seed)
    rw [map_low32 countable below]
    rfl

/-- A sample needs nothing of a selection but different numbers below the row count. -/
theorem isRowSample_sampleOf (countable : rows ≤ maxCount)
    (selects : size < rows → Selection.Selects rows size selected) :
    IsRowSample rows size (sampleOf rows size selected) := by
  unfold sampleOf
  split
  · rename_i all
    rw [low32_of_le countable]
    exact ⟨List.pairwise_lt_range, by rw [List.length_range, Nat.min_eq_right all],
      fun row => List.mem_range.mp⟩
  · rename_i fewer
    obtain ⟨length, distinct, below⟩ := selects (Nat.lt_of_not_le fewer)
    rw [map_low32 countable below]
    have sorted : selected.mergeSort.Pairwise (· ≤ ·) := List.pairwise_mergeSort' (· ≤ ·) _
    have different : selected.mergeSort.Nodup := (List.mergeSort_perm _ _).nodup_iff.mpr distinct
    refine ⟨(sorted.and different).imp fun both => lt_of_le_of_ne both.1 both.2, ?_, ?_⟩
    · rw [List.length_mergeSort, length, Nat.min_eq_left (Nat.le_of_not_le fewer)]
    · exact fun row mem => below row (List.mem_mergeSort.mp mem)

/-- **A sample has different rows of the table in order**, as many as were asked for or as the table
has, and all of them if that many were asked for. This is so for every seed, and for every other
selection of different numbers below the row count. -/
theorem draws_different_rows {rows : ℕ} (countable : rows ≤ maxCount) (size : ℕ) (seed : UInt64) :
    IsRowSample rows size (drawSample rows size seed) ∧
      (rows ≤ size → drawSample rows size seed = List.range rows) ∧
      drawSample rows size seed =
        sampleOf rows size (Selection.select rows size (.ofSeed seed)) ∧
      ∀ selected, (size < rows → Selection.Selects rows size selected) →
        IsRowSample rows size (sampleOf rows size selected) := by
  have drawn : IsRowSample rows size (drawSample rows size seed) := by
    rw [drawSample_eq_sampleOf countable]
    exact isRowSample_sampleOf countable fun smaller => Selection.selects_select smaller _
  exact ⟨drawn, drawn.eq_range_of_le, drawSample_eq_sampleOf countable size seed,
    fun _ => isRowSample_sampleOf countable⟩

/-- Six rows of a hundred, more than all of ten, and three numbers that come out of order. -/
theorem draws_different_rows_six_of_hundred :
    100 ≤ maxCount ∧ IsRowSample 100 6 (drawSample 100 6 7) ∧
      10 ≤ maxCount ∧ drawSample 10 12 7 = List.range 10 ∧
      Selection.Selects 10 3 [8, 0, 5] ∧ sampleOf 10 3 [8, 0, 5] = [0, 5, 8] ∧
      IsRowSample 10 3 (sampleOf 10 3 [8, 0, 5]) := by
  have hundred : 100 ≤ maxCount := by decide
  have ten : 10 ≤ maxCount := by decide
  have selects : Selection.Selects 10 3 [8, 0, 5] := ⟨rfl, by decide, by decide⟩
  obtain ⟨drawn, -⟩ := draws_different_rows hundred 6 7
  obtain ⟨-, all, -⟩ := draws_different_rows ten 12 7
  obtain ⟨-, -, -, others⟩ := draws_different_rows ten 3 7
  exact ⟨hundred, drawn, ten, all (by decide), selects, by cbv, others [8, 0, 5] fun _ => selects⟩

end Columnar
