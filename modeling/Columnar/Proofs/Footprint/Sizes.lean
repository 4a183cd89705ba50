import Columnar.Proofs.Footprint.Blocks
import Columnar.Proofs.Pricing

/-!
# Sizes of groups

`exactSize` is the size of a column group under an encoding, in numbers without a bound. The size
of a group is the exact one, cut at `maxSize` (`sizeOf_eq`), except where a sum has no room
(`Beyond`): for offset lists that come within three bytes of `maxSize`, and for uncompressed groups
whose exact size is larger. There the group has no size (`sizeOf_of_beyond`). The groups of a table
with up to `2 ^ 60` cells are far from that (`within_table`), so each of them is priced
(`ofFactors_footprint`), with sizes of which none is zero (`sizes_pos`).
-/

namespace Columnar

namespace Footprint

variable {f : Factors} {e : Encoding} {blockSize : ℕ}

/-- The size of a group under an encoding, without a bound. -/
def exactSize (e : Encoding) (f : Factors) : ℕ∞ :=
  match e with
  | .dict1 => exactDict maxDict1 1 f
  | .dict2 => exactDict maxDict2 2 f
  | .runLength => exactLists (2 * f.runs) f
  | .offsetList => exactLists (f.offs + f.segs) f
  | .uncompressed => exactUncompressed f.rows f.groupCols f.density

/-- Where a sum has no room in 64 bits. -/
def Beyond (e : Encoding) (f : Factors) : Prop :=
  match e with
  | .dict1 | .dict2 | .runLength => False
  | .offsetList => maxSize < (f.offs + f.segs) * 2 + 3
  | .uncompressed => maxSize < exactUncompressed f.rows f.groupCols f.density

/-- **A group has its exact size**, cut at `maxSize`, where the sums have room. -/
theorem sizeOf_eq (fits : f.Fits) (within : ¬ Beyond e f) :
    sizeOf e f = .ok (cut (exactSize e f)) := by
  cases e with
  | dict1 => exact dictSize_eq fits (by decide)
  | dict2 => exact dictSize_eq fits (by decide)
  | runLength => exact listsSize_eq fits (runNumbers_fit fits)
  | offsetList =>
    have room : (f.offs + f.segs) * 2 + 3 ≤ maxSize := le_of_not_gt within
    have numbers : satAdd f.offs f.segs = f.offs + f.segs := Nat.min_eq_left (by omega)
    rw [sizeOf, numbers]
    exact listsSize_eq fits room
  | uncompressed =>
    have small : exactUncompressed f.rows f.groupCols f.density ≤ maxSize := le_of_not_gt within
    rw [exactSize, cut_coe, Nat.min_eq_left small, sizeOf,
      uncompressedSize_eq fits.rows fits.groupCols, if_pos small]

theorem sizeOf_of_beyond (fits : f.Fits) (beyond : Beyond e f) :
    sizeOf e f = .error .overflow := by
  cases e with
  | dict1 => exact beyond.elim
  | dict2 => exact beyond.elim
  | runLength => exact beyond.elim
  | offsetList => exact listsSize_of_long fits beyond
  | uncompressed =>
    rw [sizeOf, uncompressedSize_eq fits.rows fits.groupCols, if_neg (Nat.not_le_of_lt beyond)]

/-- Where a sum has no room, the exact size is too large as well. -/
theorem lt_exactSize_of_beyond (beyond : Beyond e f) : (maxSize : ℕ∞) < exactSize e f := by
  cases e with
  | dict1 => exact beyond.elim
  | dict2 => exact beyond.elim
  | runLength => exact beyond.elim
  | offsetList =>
    have long : maxSize < (f.offs + f.segs) * 2 + 3 := beyond
    rw [exactSize, Nat.cast_lt]
    simp only [exactLists, exactArray]
    omega
  | uncompressed => exact Nat.cast_lt.mpr beyond

/-- Encoded groups have room as long as two bytes for each occurrence and segment fit. -/
theorem within_of_encoded (encoded : e ≠ .uncompressed)
    (listed : (f.offs + f.segs) * 2 + 3 ≤ maxSize) : ¬ Beyond e f := by
  cases e with
  | dict1 => exact not_false
  | dict2 => exact not_false
  | runLength => exact not_false
  | offsetList => exact Nat.not_lt_of_ge listed
  | uncompressed => exact absurd rfl encoded

theorem within_of_cells (columns : f.groupCols ≤ maxCount) (cells : f.rows * f.groupCols ≤ 2 ^ 60) :
    ¬ Beyond .uncompressed f :=
  Nat.not_lt_of_ge (exactUncompressed_lt columns cells f.density).le

/-- The groups of a table with up to `2 ^ 60` cells have room. -/
theorem within_table (fits : f.Fits) (offs : f.offs ≤ f.rows)
    (cells : f.rows * f.groupCols ≤ 2 ^ 60) (e : Encoding) : ¬ Beyond e f := by
  by_cases encoded : e = .uncompressed
  · rw [encoded]
    exact within_of_cells fits.groupCols cells
  · have segs := fits.segs
    have rows := fits.rows
    exact within_of_encoded encoded (by simp only [maxCount, maxSize] at *; omega)

/-! ### Pricings -/

/-- The sizes of a group under every encoding. -/
noncomputable def sizes (f : Factors) (blockSize : ℕ) : EncodingSizes :=
  Pricing.sizesOf (fun e => cut (exactSize e f)) f.vals blockSize

theorem get_sizes (f : Factors) (blockSize : ℕ) (e : Encoding) : (sizes f blockSize).get e =
    if e = .offsetList ∧ Pricing.skipsOffsetList f.vals blockSize then maxSize
    else cut (exactSize e f) :=
  Pricing.get_sizesOf ..

noncomputable def price (f : Factors) (blockSize : ℕ) : Pricing := ⟨f, sizes f blockSize⟩

/-- No group takes no space. -/
theorem exactSize_pos (e : Encoding) (f : Factors) : 0 < exactSize e f := by
  have dict : ∀ most codeBytes, 0 < exactDict most codeBytes f := by
    intro most codeBytes
    unfold exactDict
    split
    · exact ENat.top_pos
    · rw [Nat.cast_pos]
      simp only [exactValues, exactOverhead]
      omega
  have lists : ∀ numbers, 0 < exactLists numbers f := by
    intro numbers
    simp only [exactLists, exactArray]
    omega
  cases e with
  | dict1 => exact dict ..
  | dict2 => exact dict ..
  | runLength => exact Nat.cast_pos.mpr (lists _)
  | offsetList => exact Nat.cast_pos.mpr (lists _)
  | uncompressed =>
    rw [exactSize, Nat.cast_pos, exactUncompressed]
    omega

theorem cut_pos {size : ℕ∞} (positive : 0 < size) : 0 < cut size := by
  have least : (0 : ℕ∞) < cut size := by
    rw [coe_cut]
    exact lt_min positive (Nat.cast_pos.mpr (by decide))
  exact_mod_cast least

theorem sizes_pos (f : Factors) (blockSize : ℕ) (e : Encoding) : 0 < (sizes f blockSize).get e := by
  rw [get_sizes]
  split
  · decide
  · exact cut_pos (exactSize_pos e f)

/-- An uncompressed group of a table with up to `2 ^ 60` cells has a size. -/
theorem get_uncompressed (columns : f.groupCols ≤ maxCount)
    (cells : f.rows * f.groupCols ≤ 2 ^ 60) (blockSize : ℕ) :
    (sizes f blockSize).get .uncompressed = exactUncompressed f.rows f.groupCols f.density := by
  have answered : (sizes f blockSize).get .uncompressed = cut (exactSize .uncompressed f) := rfl
  rw [answered, exactSize, cut_coe,
    Nat.min_eq_left (exactUncompressed_lt columns cells f.density).le]

end Footprint

/-- **The footprint model prices every group that has room.** -/
theorem Pricing.ofFactors_footprint {f : Factors} (fits : f.Fits)
    (within : ∀ e, ¬ Footprint.Beyond e f) (blockSize : ℕ) :
    ofFactors f SizeModel.footprint blockSize = .ok (Footprint.price f blockSize) :=
  ofFactors_of_answers fun e _ => Footprint.sizeOf_eq fits (within e)

end Columnar
