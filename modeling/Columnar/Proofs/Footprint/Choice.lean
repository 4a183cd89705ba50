import Columnar.Proofs.Footprint.Growth

/-!
# The choice of an encoding

An encoding that cannot hold a group has no size below `maxSize` (`canHold_of_feasible`), and an
uncompressed group always has one, so the cheapest encoding can hold the group
(`wellChosen_price`). Of two dictionaries that can, the one with codes of one byte is not larger
(`dict1_le_dict2`) and comes first, so the other is not chosen.
-/

namespace Columnar

namespace Footprint

variable {f : Factors} {blockSize : ℕ}

/-- Whether an encoding can hold a number of different tuples. Offset lists are not used up to twice
the block size. -/
def CanHold (vals blockSize : ℕ) : Encoding → Prop
  | .dict1 => vals ≤ maxDict1
  | .dict2 => vals ≤ maxDict2
  | .offsetList => 2 * blockSize < vals
  | .runLength | .uncompressed => True

/-- What has a size can hold the group. -/
theorem canHold_of_feasible {e : Encoding} (feasible : (sizes f blockSize).get e < maxSize) :
    CanHold f.vals blockSize e := by
  by_contra cannot
  rw [get_sizes] at feasible
  cases e with
  | dict1 =>
    have none : exactSize .dict1 f = ⊤ := if_pos (Nat.lt_of_not_le cannot)
    simp [none] at feasible
  | dict2 =>
    have none : exactSize .dict2 f = ⊤ := if_pos (Nat.lt_of_not_le cannot)
    simp [none] at feasible
  | offsetList =>
    exact feasible.ne (if_pos ⟨rfl, decide_eq_true (Nat.le_of_not_lt cannot)⟩)
  | runLength => exact cannot trivial
  | uncompressed => exact cannot trivial

/-- Where codes of one byte are enough, codes of two bytes are not cheaper. -/
theorem dict1_le_dict2 (few : f.vals ≤ maxDict1) :
    (sizes f blockSize).get .dict1 ≤ (sizes f blockSize).get .dict2 := by
  have least : f.vals ≤ maxDict2 := few.trans (by decide)
  have codes : exactArray f.rows 1 ≤ exactArray f.rows 2 :=
    exactArray_le_exactArray le_rfl (by decide)
  have le : exactDict maxDict1 1 f ≤ exactDict maxDict2 2 f := by
    rw [exactDict, exactDict, if_neg (Nat.not_lt.mpr few), if_neg (Nat.not_lt.mpr least),
      Nat.cast_le]
    gcongr
  exact cut_le_cut le

/-- An uncompressed group of a table always has a size, and so has the cheapest. -/
theorem cheapest_lt_maxSize (columns : f.groupCols ≤ maxCount)
    (cells : f.rows * f.groupCols ≤ 2 ^ 60) : (sizes f blockSize).cheapest.2 < maxSize :=
  calc (sizes f blockSize).cheapest.2
      ≤ (sizes f blockSize).get .uncompressed := (sizes f blockSize).cheapest_le_get .uncompressed
    _ = exactUncompressed f.rows f.groupCols f.density := get_uncompressed columns cells blockSize
    _ < maxSize := exactUncompressed_lt columns cells f.density

/-- A pricing whose cheapest encoding can hold the group. -/
structure WellChosen (p : Pricing) (blockSize : ℕ) : Prop where
  positive : 0 < p.minSize
  finite : p.minSize < maxSize
  uncompressed : p.minSize ≤ p.sizes.get .uncompressed
  feasible : p.sizes.isFeasible p.bestEncoding
  dict1 : p.bestEncoding = .dict1 → p.factors.vals ≤ 255
  dict2 : p.bestEncoding = .dict2 → 255 < p.factors.vals ∧ p.factors.vals ≤ 65534
  offsetList : p.bestEncoding = .offsetList → 2 * blockSize < p.factors.vals

theorem wellChosen_price (fits : f.Fits) (cells : f.rows * f.groupCols ≤ 2 ^ 60)
    (blockSize : ℕ) : WellChosen (price f blockSize) blockSize := by
  have least := (sizes f blockSize).cheapest_eq_get
  have finite : (sizes f blockSize).cheapest.2 < maxSize := cheapest_lt_maxSize fits.groupCols cells
  have positive : 0 < (sizes f blockSize).cheapest.2 := least ▸ sizes_pos f blockSize _
  have feasible := least ▸ finite
  have holds : ∀ e, (sizes f blockSize).cheapest.1 = e → CanHold f.vals blockSize e :=
    fun e best => best ▸ canHold_of_feasible feasible
  constructor
  · exact positive
  · exact finite
  · exact (price f blockSize).minSize_le .uncompressed
  · exact bne_iff_ne.mpr feasible.ne
  · exact holds .dict1
  · intro best
    refine ⟨?_, holds .dict2 best⟩
    have chosen : (sizes f blockSize).cheapest.1 = .dict2 := best
    by_contra few
    -- codes of one byte are looked at first, and are not more expensive
    have earlier : Encoding.dict1.index < (sizes f blockSize).cheapest.1.index := by
      rw [chosen]
      decide
    have larger := (sizes f blockSize).cheapest_lt_get earlier
    have shorter : (sizes f blockSize).get .dict1 ≤ (sizes f blockSize).get .dict2 :=
      dict1_le_dict2 (Nat.le_of_not_lt few)
    rw [least, chosen] at larger
    omega
  · exact holds .offsetList

end Footprint

/-- **The chosen encoding can hold the group.** For factors of fewer than `2 ^ 60` cells and
`2 ^ 62` occurrences the footprints are found in 64 bits, whatever the block size, and the cheapest
encoding is one that can hold the group, with a size that is not zero and not `maxSize`. Codes of
two bytes are chosen only for more tuples than codes of one byte tell apart. -/
theorem Footprint.wellChosen_of_fits {f : Factors} (fits : f.Fits)
    (cells : f.rows * f.groupCols < 2 ^ 60) (listed : f.offs < 2 ^ 62) (blockSize : ℕ) :
    (∀ e, ∃ size, sizeOf e f = .ok size) ∧
      ∃ p, Pricing.ofFactors f SizeModel.footprint blockSize = .ok p ∧ p.factors = f ∧
        WellChosen p blockSize := by
  have within : ∀ e, ¬ Beyond e f := by
    intro e
    by_cases encoded : e = .uncompressed
    · exact encoded ▸ within_of_cells fits.groupCols cells.le
    · have segs := fits.segs
      exact within_of_encoded encoded (by simp only [maxCount, maxSize] at *; omega)
  exact ⟨fun e => ⟨_, sizeOf_eq fits (within e)⟩, _,
    Pricing.ofFactors_footprint fits within blockSize, rfl,
    wellChosen_price fits cells.le blockSize⟩

/-- More different values than codes of one byte tell apart. -/
theorem Footprint.wellChosen_of_fits_long_codes :
    let f : Factors := ⟨256, 100000, 256, 100000, 0, 100000, 1, 1⟩
    f.Fits ∧ f.rows * f.groupCols < 2 ^ 60 ∧ f.offs < 2 ^ 62 ∧
      (∀ e, ∃ size, sizeOf e f = .ok size) ∧
      ∃ p, Pricing.ofFactors f SizeModel.footprint 65536 = .ok p ∧ p.factors = f ∧
        WellChosen p 65536 := by
  intro f
  have fits : f.Fits := by constructor <;> decide
  exact ⟨fits, by decide, by decide, wellChosen_of_fits fits (by decide) (by decide) 65536⟩

end Columnar
