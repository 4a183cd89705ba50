import Columnar.Classification
import Columnar.Proofs.Footprint.Blocks

/-!
# Growth of blocks

A block of a higher density is not smaller (`blocks_grow_with_density`), as it lists no fewer cells.
With more rows at one density a block lists more cells as well, but their number is rounded before
it is compared with the turning point. Where it is rounded down past it, a dense block becomes a
sparse one and shrinks (`uncompressedSize_falls`), though not below half, and not when the rows are
doubled (`uncompressedSize_by_rows`).
-/

namespace Columnar

namespace Footprint

variable {rows rows' cols : ℕ} {density : Float}

/-! ### Growth with the density -/

/-- The bytes of blocks of so many rows and columns, over all densities. -/
structure GrowsWithDensity (rows cols : ℕ) (bytes : Float → ℕ) : Prop where
  found : ∀ density, blockSize rows cols density = .ok (bytes density)
  mono : ∀ {density density' : Float}, density ≤ density' → bytes density ≤ bytes density'
  empty_le : ∀ density, bytes 0 ≤ bytes density
  le_dense : ∀ density, bytes density ≤ denseSize rows cols
  le_full : ∀ density, bytes density ≤ bytes 1
  answered : ∀ n ≤ maxSize, ∃ sparse, prefersSparse rows cols n = .ok sparse
  /-- Blocks are sparse up to some number of listed cells. -/
  sparse_of_le : ∀ {m n}, 0 < m → m ≤ n → n ≤ maxSize →
    prefersSparse rows cols n = .ok true → prefersSparse rows cols m = .ok true

theorem growsWithDensity (cells : rows * cols < 2 ^ 60) :
    GrowsWithDensity rows cols (exactBlock rows cols) where
  found := blockSize_of_cells cells.le
  mono le := exactBlock_le_of_listedCells cells (listedCells_le_listedCells le le_rfl cells.le)
  empty_le density := by
    have nothing := listedCells_zero cells.le
    exact exactBlock_le_of_listedCells cells (nothing ▸ Nat.zero_le _)
  le_dense density := by
    have dense : 44 + 8 * (rows * cols) ≤ maxSize := by
      simp only [maxSize]
      omega
    rw [denseSize_eq_min, Nat.min_eq_left dense]
    exact exactBlock_le rows cols density
  le_full density := exactBlock_le_of_listedCells cells (listedCells_le_full cells.le density)
  answered _ fits := exists_prefersSparse cells fits
  sparse_of_le _ le fits sparse := prefersSparse_of_le cells le fits sparse

/-- **A higher density does not make a block smaller.** Up to `2 ^ 60` cells every block has a size,
and it grows with the density from that of an empty block to that of a dense one at most; and so the
size against which the second round weighs a column is not below that of the first. -/
theorem blocks_grow_with_density :
    (∀ rows cols, rows * cols < 2 ^ 60 → ∃ bytes, GrowsWithDensity rows cols bytes) ∧
      ∀ rows ≤ maxCount, ∀ p : Pricing, ∃ own dense,
        baseline.uncompressedSize rows 1 (Classifier.shareOf rows p) = .ok own ∧
          baseline.uncompressedSize rows 1 1 = .ok dense ∧ own ≤ dense := by
  refine ⟨fun rows cols cells => ⟨_, growsWithDensity cells⟩, fun rows countable p => ?_⟩
  have small : rows < 2 ^ 53 := countable.trans_lt (by decide)
  exact ⟨_, _, uncompressedSize_column countable _, uncompressedSize_column countable 1,
    exactUncompressed_le_full small _⟩

theorem blocks_grow_with_density_ten_rows :
    (10 * 1 < 2 ^ 60 ∧ (0.3 : Float) ≤ 0.4 ∧ ∃ bytes : Float → ℕ,
      blockSize 10 1 0 = .ok (bytes 0) ∧ blockSize 10 1 0.3 = .ok (bytes 0.3) ∧
      bytes 0 < bytes 0.3 ∧ bytes 0.3 ≤ bytes 0.4 ∧ bytes 0.4 ≤ denseSize 10 1) ∧
    (10 ≤ maxCount ∧ ∀ p : Pricing, ∃ own dense,
      baseline.uncompressedSize 10 1 (Classifier.shareOf 10 p) = .ok own ∧
        baseline.uncompressedSize 10 1 1 = .ok dense ∧ own ≤ dense) := by
  obtain ⟨bytes, block⟩ := blocks_grow_with_density.1 10 1 (by decide)
  have empty : bytes 0 = 44 := Except.ok.inj ((block.found 0).symm.trans (by decide))
  have listed : bytes 0.3 = 96 := Except.ok.inj ((block.found 0.3).symm.trans (by decide))
  exact ⟨⟨by decide, by decide, bytes, block.found 0, block.found 0.3, by omega,
    block.mono (by decide), block.le_dense _⟩,
    by decide, blocks_grow_with_density.2 10 (by decide)⟩

/-! ### Growth with the rows -/

namespace Stored

variable {cells cells' listed listed' bytes bytes' : ℕ} {kind kind' : Layout}

/-- A dense block lists three cells of eight or is no larger than a sparse one. -/
theorem many_of_dense (stored : Stored cells listed .dense bytes) (few : cells ≤ 2 ^ 60) :
    3 * cells ≤ 8 * listed ∨ 44 + 8 * cells ≤ 60 + 12 * listed := by
  cases stored with
  | dense some larger =>
    rcases cells.eq_zero_or_pos with none | positive
    · omega
    · by_cases below : 8 * listed ≤ 3 * cells
      · exact .inr (larger (belowTurn_of_eighths positive few below))
      · omega

/-- A block that is no longer dense takes at least half of what it took. -/
theorem le_double (stored : Stored cells listed kind bytes)
    (stored' : Stored cells' listed' kind' bytes') (few : cells ≤ 2 ^ 60) (more : cells ≤ cells')
    (moreListed : listed ≤ listed') : bytes ≤ 2 * bytes' := by
  by_contra half
  obtain ⟨rfl, rfl, fewer⟩ := (stored.lt_iff stored' more moreListed).mp (by omega)
  have many := stored.many_of_dense few
  cases stored with
  | dense =>
    cases stored' with
    | sparse => omega

/-- A block of twice the cells is not smaller: the few listed cells that rounding takes away weigh
less than the dense block that was there. -/
theorem le_of_twice (stored : Stored cells listed kind bytes)
    (stored' : Stored cells' listed' kind' bytes') (few : cells ≤ 2 ^ 60)
    (twice : 2 * cells ≤ cells') (moreListed : listed ≤ listed')
    (nearlyTwice : 30 * listed ≤ 16 * listed' + 23) : bytes ≤ bytes' := by
  by_contra smaller
  obtain ⟨rfl, -, fewer⟩ := (stored.lt_iff stored' (by omega) moreListed).mp (not_le.mp smaller)
  have many := stored.many_of_dense few
  omega

/-- A block of more cells that takes fewer bytes has come below the turning point. -/
theorem turned_of_lt (stored : Stored cells listed kind bytes)
    (stored' : Stored cells' listed' kind' bytes') (more : cells ≤ cells')
    (moreListed : listed ≤ listed') (smaller : bytes' < bytes) :
    ¬ asFloat listed / asFloat cells < sparseShare ∧
      asFloat listed' / asFloat cells' < sparseShare := by
  have turned : ¬ (asFloat listed' / asFloat cells' < sparseShare →
      asFloat listed / asFloat cells < sparseShare) :=
    fun turn => absurd (stored.le stored' more moreListed turn) (not_le_of_gt smaller)
  rw [Classical.not_imp] at turned
  exact turned.symm

end Stored

/-- Of twice the cells, nearly twice as many are listed. -/
theorem listedCells_double (twice : 2 * (rows * cols) ≤ rows' * cols)
    (small : rows' * cols ≤ 2 ^ 60) (density : Float) :
    30 * listedCells rows cols density ≤ 16 * listedCells rows' cols density + 23 := by
  rcases exists_clampShare density with nan | ⟨p, denotes, nonneg, atMostOne⟩
  · rw [listedCells, roundToCount_nan_mul nan]
    omega
  · exact roundToCount_mul_double denotes nonneg atMostOne twice small

/-- What becomes of the size of an uncompressed group of columns with more rows. -/
structure ChangesByRows (rows rows' cols : ℕ) (density : Float) (bytes bytes' : ℕ) : Prop where
  found : uncompressedSize rows cols density = .ok bytes
  found' : uncompressedSize rows' cols density = .ok bytes'
  /-- It falls where a dense block becomes sparse with few enough listed cells. -/
  lt_iff : bytes' < bytes ↔
    layout rows cols density = .dense ∧ layout rows' cols density = .sparse ∧
      16 + 12 * listedCells rows' cols density < 8 * (rows * cols)
  /-- The rounded number of listed cells has then come below the turning point. -/
  turned : bytes' < bytes →
    ¬ asFloat (listedCells rows cols density) / asFloat (rows * cols) < sparseShare ∧
      asFloat (listedCells rows' cols density) / asFloat (rows' * cols) < sparseShare ∧
      rows' < 2 * rows
  le_double : bytes ≤ 2 * bytes'

/-- **More rows make an uncompressed group smaller only at the turning point.** At one density, a
group of more rows takes fewer bytes exactly where its block was dense and is sparse, with few
enough listed cells. The rounded number of listed cells has then come below the turning point, the
rows are fewer than twice as many, and the bytes at least half of what they were. -/
theorem uncompressedSize_by_rows (density : Float) (le : rows ≤ rows') (countable : cols ≤ maxCount)
    (cells : rows' * cols < 2 ^ 60) :
    ∃ bytes bytes', ChangesByRows rows rows' cols density bytes bytes' := by
  have more : rows * cols ≤ rows' * cols := Nat.mul_le_mul_right cols le
  have few : rows * cols ≤ 2 ^ 60 := more.trans cells.le
  have stored := stored_block few density
  have stored' := stored_block cells.le density
  have listed := listedCells_le_of_cells more cells.le density
  have smaller_iff : exactUncompressed rows' cols density < exactUncompressed rows cols density ↔
      exactBlock rows' cols density < exactBlock rows cols density := Nat.add_lt_add_iff_left
  refine ⟨_, _, uncompressedSize_of_cells countable few density,
    uncompressedSize_of_cells countable cells.le density, ?_, fun smaller => ?_, ?_⟩
  · rw [← stored.lt_iff stored' more listed]
    exact smaller_iff
  · have blocks := smaller_iff.mp smaller
    obtain ⟨above, below⟩ := stored.turned_of_lt stored' more listed blocks
    refine ⟨above, below, ?_⟩
    by_contra double
    have twice : 2 * (rows * cols) ≤ rows' * cols := by
      rw [← Nat.mul_assoc]
      exact Nat.mul_le_mul_right cols (le_of_not_gt double)
    have nearlyTwice := listedCells_double twice cells.le density
    exact absurd (stored.le_of_twice stored' few twice listed nearlyTwice) (not_le_of_gt blocks)
  · have blocks := stored.le_double stored' few more listed
    simp only [exactUncompressed]
    omega

theorem uncompressedSize_by_rows_seven_to_eight :
    (7 ≤ 8 ∧ 1 ≤ maxCount ∧ 8 * 1 < 2 ^ 60) ∧ ∃ bytes bytes',
      uncompressedSize 7 1 0.4 = .ok bytes ∧ uncompressedSize 8 1 0.4 = .ok bytes' ∧
      bytes' < bytes ∧ layout 7 1 0.4 = .dense ∧ layout 8 1 0.4 = .sparse ∧ 8 < 2 * 7 := by
  obtain ⟨bytes, bytes', changes⟩ := uncompressedSize_by_rows 0.4 (show 7 ≤ 8 by decide)
    (show 1 ≤ maxCount by decide) (by decide)
  have before : bytes = 164 := Except.ok.inj (changes.found.symm.trans (by decide))
  have after : bytes' = 160 := Except.ok.inj (changes.found'.symm.trans (by decide))
  have smaller : bytes' < bytes := by omega
  obtain ⟨dense, sparse, -⟩ := changes.lt_iff.mp smaller
  exact ⟨⟨by decide, by decide, by decide⟩, bytes, bytes', changes.found, changes.found', smaller,
    dense, sparse, (changes.turned smaller).2.2⟩

/-- A column of two listed cells in five loses four bytes with its eighth row. -/
theorem uncompressedSize_falls :
    (0 : Float) ≤ 0.4 ∧ (0.4 : Float) ≤ 1 ∧ 7 ≤ 8 ∧ 8 * 1 < 2 ^ 60 ∧
      uncompressedSize 7 1 0.4 = .ok 164 ∧ uncompressedSize 8 1 0.4 = .ok 160 := by
  decide

end Footprint

end Columnar
