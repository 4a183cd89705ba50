import Columnar.Proofs.Footprint.Sizes

/-!
# Footprints in 64 bits

Most sums of a footprint stop at `maxSize`, and a size that does means that the encoding is
infeasible. The padding of an array and the headers of a block are checked sums instead.
`footprints_in_words` says for every group and every block where they hold, with the exact size as
the price, cut at `maxSize`, and where the pricing stops without a size. It only stops where the
exact size is too large, so no infeasible group is ever priced like a small one; but it does stop
(`plain_sums_exceed`).
-/

namespace Columnar

namespace Footprint

variable {rows cols : ℕ} {f : Factors} {e : Encoding}

/-- The price of a group under an encoding, in 64 bits. -/
structure PricedInWords (e : Encoding) (f : Factors) : Prop where
  /-- With room for every sum the price is the exact size, cut at `maxSize`. -/
  held : ¬ Beyond e f →
    ∃ size, sizeOf e f = .ok size ∧ (size : ℕ∞) = min (exactSize e f) maxSize
  /-- A sum only exceeds 64 bits where the exact size does. -/
  stops : Beyond e f → sizeOf e f = .error .overflow ∧ (maxSize : ℕ∞) < exactSize e f

/-- The sizes of blocks and uncompressed groups of so many rows and columns, in 64 bits. -/
structure BlocksInWords (rows cols : ℕ) : Prop where
  sparse : ∀ n,
    sparseSize n = if 60 + 12 * n ≤ maxSize then .ok (60 + 12 * n) else .error .overflow
  prefers : 0 < rows * cols → ∀ n, prefersSparse rows cols n =
    if asFloat n / asFloat (rows * cols) < sparseShare then
      if 60 + 12 * n ≤ maxSize then .ok (decide (60 + 12 * n < 44 + 8 * (rows * cols)))
      else .error .overflow
    else .ok false
  block : ∀ density, ¬ SparseTooLarge rows cols density →
    blockSize rows cols density = .ok (min (exactBlock rows cols density) maxSize)
  block_stops : ∀ density, SparseTooLarge rows cols density →
    blockSize rows cols density = .error .overflow ∧ maxSize < exactBlock rows cols density
  uncompressed : ∀ density, uncompressedSize rows cols density =
    if exactUncompressed rows cols density ≤ maxSize
    then .ok (exactUncompressed rows cols density) else .error .overflow

theorem pricedInWords (fits : f.Fits) (e : Encoding) : PricedInWords e f where
  held within := ⟨cut (exactSize e f), sizeOf_eq fits within, coe_cut _⟩
  stops beyond := ⟨sizeOf_of_beyond fits beyond, lt_exactSize_of_beyond beyond⟩

theorem blocksInWords (rowsFit : rows ≤ maxCount) (colsFit : cols ≤ maxCount) :
    BlocksInWords rows cols where
  sparse := sparseSize_eq
  prefers := prefersSparse_eq
  block _ held := blockSize_eq held
  block_stops _ large := ⟨blockSize_of_large large, large.lt_exactBlock rowsFit colsFit⟩
  uncompressed := uncompressedSize_eq rowsFit colsFit

/-- **Footprints in 64 bits.** Sums that stop at `maxSize` price every dictionary and every list of
runs. A checked sum exceeds 64 bits exactly for offset lists that come within three bytes of
`maxSize`, for sparse blocks with too many listed cells and for uncompressed groups whose exact size
is too large, and there is no price then. -/
theorem footprints_in_words (fits : f.Fits) (e : Encoding) (rowsFit : rows ≤ maxCount)
    (colsFit : cols ≤ maxCount) : PricedInWords e f ∧ BlocksInWords rows cols :=
  ⟨pricedInWords fits e, blocksInWords rowsFit colsFit⟩

/-- One tuple in a column of one row that is counted as often as a counter can. -/
def mostListed : Factors := ⟨1, maxSize, 1, 1, 0, 1, 1, 1⟩

theorem mostListed_fits : mostListed.Fits :=
  ⟨by decide, by decide, by decide, by decide, by decide, by decide, by decide, by decide⟩

theorem footprints_in_words_largest :
    (mostListed.Fits ∧ maxCount ≤ maxCount ∧ Beyond .offsetList mostListed ∧
      ¬ SparseTooLarge maxCount maxCount 1) ∧
      sizeOf .offsetList mostListed = .error .overflow ∧
      blockSize maxCount maxCount 1 = .ok maxSize := by
  have beyond : Beyond .offsetList mostListed := by
    show maxSize < _
    decide
  have dense : ¬ SparseTooLarge maxCount maxCount 1 := fun large =>
    absurd large.1 (by decide +kernel)
  obtain ⟨priced, blocks⟩ := footprints_in_words mostListed_fits .offsetList
    (show maxCount ≤ maxCount from le_rfl) (show maxCount ≤ maxCount from le_rfl)
  exact ⟨⟨mostListed_fits, le_rfl, beyond, dense⟩, (priced.stops beyond).1,
    (blocks.block 1 dense).trans (by decide +kernel)⟩

/-- Checked sums do exceed 64 bits, for the offset lists of `mostListed`, for the largest dense
group and for the sparse block with the most listed cells: their sizes do not stop at `maxSize`. -/
theorem plain_sums_exceed :
    mostListed.Fits ∧ sizeOf .offsetList mostListed = .error .overflow ∧
      uncompressedSize maxCount maxCount 1 = .error .overflow ∧
      sparseSize maxSize = .error .overflow :=
  ⟨mostListed_fits, by decide +kernel⟩

end Footprint

end Columnar
