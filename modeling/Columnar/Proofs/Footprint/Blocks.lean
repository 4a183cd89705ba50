import Columnar.Proofs.Footprint
import Columnar.Proofs.Footprint.Listed

/-!
# Sizes of blocks

A block is stored empty, sparse or dense (`layout`). `exactBlock` is its size without a bound, and
`exactUncompressed` that of the group around it. The size of a block is the exact one, cut at
`maxSize` (`blockSize_eq`), unless it is stored sparse with more listed cells than 64 bits have room
for (`SparseTooLarge`). An uncompressed group has its exact size where that fits and none elsewhere
(`uncompressedSize_eq`), and up to `2 ^ 60` cells it does fit.

A larger block takes no fewer bytes, unless a dense block becomes a sparse one (`Stored.lt_iff`). A
higher density alone does not do that (`exactBlock_le_of_listedCells`), as a block is sparse up to
some number of listed cells and dense above (`prefersSparse_of_le`).
-/

namespace Columnar

namespace Footprint

variable {rows rows' cols cols' m n : ℕ} {density density' : Float}

/-- A block, stored sparse where that is considered and smaller. -/
def exactBlock (rows cols : ℕ) (density : Float) : ℕ :=
  let listed := listedCells rows cols density
  if listed = 0 then 44
  else if asFloat listed / asFloat (rows * cols) < sparseShare ∧
      60 + 12 * listed < 44 + 8 * (rows * cols) then 60 + 12 * listed
  else 44 + 8 * (rows * cols)

def exactUncompressed (rows cols : ℕ) (density : Float) : ℕ :=
  exactOverhead cols + 8 + exactBlock rows cols density

theorem exactBlock_le (rows cols : ℕ) (density : Float) :
    exactBlock rows cols density ≤ 44 + 8 * (rows * cols) := by
  unfold exactBlock
  simp only
  split
  · exact Nat.le_add_right ..
  · split
    · rename_i sparse
      exact sparse.2.le
    · exact le_rfl

/-! ### Sparse and dense -/

theorem denseSize_eq_min (rows cols : ℕ) :
    denseSize rows cols = min (44 + 8 * (rows * cols)) maxSize := by
  simp only [denseSize, satAdd, satMul, blockHeader, maxSize]
  omega

theorem sparseSize_eq (n : ℕ) :
    sparseSize n = if 60 + 12 * n ≤ maxSize then .ok (60 + 12 * n) else .error .overflow := by
  unfold sparseSize
  split
  · rename_i fits
    have product : satMul n sparseEntry = 12 * n := by
      simp only [satMul, sparseEntry, maxSize] at *
      omega
    rw [product]
    exact plus_of_le fits
  · rename_i large
    refine plus_of_lt ?_
    simp only [satMul, sparseEntry, blockHeader, sparseHeader, maxSize] at *
    omega

theorem prefersSparse_of_none (none : rows * cols = 0) (n : ℕ) :
    prefersSparse rows cols n = .ok true := by
  simp only [prefersSparse, if_pos none]
  rfl

/-- A block is better stored sparse below the turning point where that is smaller. Only there its
sparse size is asked for. -/
theorem prefersSparse_eq (some : 0 < rows * cols) (n : ℕ) :
    prefersSparse rows cols n =
      if asFloat n / asFloat (rows * cols) < sparseShare then
        if 60 + 12 * n ≤ maxSize then .ok (decide (60 + 12 * n < 44 + 8 * (rows * cols)))
        else .error .overflow
      else .ok false := by
  simp only [prefersSparse, if_neg some.ne', sparseSize_eq]
  by_cases below : asFloat n / asFloat (rows * cols) < sparseShare
  · rw [if_pos below, if_pos below]
    by_cases fits : 60 + 12 * n ≤ maxSize
    · have smaller : 60 + 12 * n < denseSize rows cols ↔
          60 + 12 * n < 44 + 8 * (rows * cols) := by
        rw [denseSize_eq_min]
        simp only [maxSize] at *
        omega
      rw [if_pos fits, if_pos fits, ← decide_eq_decide.mpr smaller]
      rfl
    · rw [if_neg fits, if_neg fits]
      rfl
  · rw [if_neg below, if_neg below]
    rfl

theorem prefersSparse_eq_true_iff (some : 0 < rows * cols) :
    prefersSparse rows cols n = .ok true ↔ asFloat n / asFloat (rows * cols) < sparseShare ∧
      60 + 12 * n ≤ maxSize ∧ 60 + 12 * n < 44 + 8 * (rows * cols) := by
  rw [prefersSparse_eq some]
  split
  · rename_i below
    split
    · rename_i fits
      simp [below, fits]
    · rename_i large
      simp [large]
  · rename_i above
    simp [above]

/-- Up to `2 ^ 60` cells there is an answer for every number of listed cells. -/
theorem exists_prefersSparse (cells : rows * cols < 2 ^ 60) (fits : n ≤ maxSize) :
    ∃ sparse, prefersSparse rows cols n = .ok sparse := by
  rcases (rows * cols).eq_zero_or_pos with none | some
  · exact ⟨true, prefersSparse_of_none none n⟩
  · rw [prefersSparse_eq some]
    split
    · rename_i below
      have few : 2 * n < rows * cols := by
        by_contra half
        exact not_belowTurn_of_half some (by omega) (le_of_not_gt half) (Nat.lt_succ_of_le fits)
          below
      have room : 60 + 12 * n ≤ maxSize := by
        simp only [maxSize]
        omega
      exact ⟨_, if_pos room⟩
    · exact ⟨_, rfl⟩

/-- Where a block is better stored sparse, it is with fewer listed cells as well. -/
theorem prefersSparse_of_le (cells : rows * cols < 2 ^ 60) (le : m ≤ n) (fits : n ≤ maxSize)
    (sparse : prefersSparse rows cols n = .ok true) : prefersSparse rows cols m = .ok true := by
  have small : n < 2 ^ 64 := Nat.lt_succ_of_le fits
  rcases (rows * cols).eq_zero_or_pos with none | some
  · exact prefersSparse_of_none none m
  · obtain ⟨below, room, smaller⟩ := (prefersSparse_eq_true_iff some).mp sparse
    exact (prefersSparse_eq_true_iff some).mpr
      ⟨belowTurn_of_le le small some (by omega) below, by omega, by omega⟩

/-! ### Blocks -/

/-- A block below the turning point with more listed cells than a sparse block has room for. -/
def SparseTooLarge (rows cols : ℕ) (density : Float) : Prop :=
  asFloat (listedCells rows cols density) / asFloat (rows * cols) < sparseShare ∧
    maxSize < 60 + 12 * listedCells rows cols density

theorem SparseTooLarge.listed (large : SparseTooLarge rows cols density) :
    listedCells rows cols density ≠ 0 := by
  intro none
  have long := large.2
  rw [none] at long
  exact absurd long (by decide)

theorem SparseTooLarge.cells (large : SparseTooLarge rows cols density) : 0 < rows * cols :=
  Nat.pos_of_ne_zero fun none => large.listed (listedCells_of_none none density)

/-- Such a block is no smaller dense. -/
theorem SparseTooLarge.lt_exactBlock (large : SparseTooLarge rows cols density)
    (rowsFit : rows ≤ maxCount) (colsFit : cols ≤ maxCount) :
    maxSize < exactBlock rows cols density := by
  have few : rows * cols < 2 ^ 64 :=
    (Nat.mul_le_mul rowsFit colsFit).trans_lt (by decide)
  have counted : listedCells rows cols density < 2 ^ 64 :=
    Nat.lt_succ_of_le (FloatValue.toCount_le _ _)
  have half : 2 * listedCells rows cols density < rows * cols := by
    by_contra most
    exact not_belowTurn_of_half large.cells few (le_of_not_gt most) counted large.1
  have long := large.2
  simp only [exactBlock, if_neg large.listed, maxSize] at *
  split <;> omega

theorem blockSize_of_large (large : SparseTooLarge rows cols density) :
    blockSize rows cols density = .error .overflow := by
  have stops : prefersSparse rows cols (listedCells rows cols density) = .error .overflow := by
    rw [prefersSparse_eq large.cells, if_pos large.1, if_neg (Nat.not_le_of_lt large.2)]
  simp only [blockSize, if_neg large.listed, stops]
  rfl

/-- **Every other block has its exact size**, cut at `maxSize`. -/
theorem blockSize_eq (fits : ¬ SparseTooLarge rows cols density) :
    blockSize rows cols density = .ok (min (exactBlock rows cols density) maxSize) := by
  simp only [blockSize, exactBlock]
  by_cases none : listedCells rows cols density = 0
  · rw [if_pos none, if_pos none]
    rfl
  have some : 0 < rows * cols :=
    Nat.pos_of_ne_zero fun empty => none (listedCells_of_none empty density)
  rw [if_neg none, if_neg none, prefersSparse_eq some]
  by_cases below : asFloat (listedCells rows cols density) / asFloat (rows * cols) < sparseShare
  · have room : 60 + 12 * listedCells rows cols density ≤ maxSize :=
      le_of_not_gt fun large => fits ⟨below, large⟩
    rw [if_pos below, if_pos room]
    by_cases smaller : 60 + 12 * listedCells rows cols density < 44 + 8 * (rows * cols)
    · rw [decide_eq_true smaller, if_pos ⟨below, smaller⟩, Nat.min_eq_left room]
      exact (sparseSize_eq _).trans (if_pos room)
    · rw [decide_eq_false smaller, if_neg fun sparse => smaller sparse.2, ← denseSize_eq_min]
      rfl
  · rw [if_neg below, if_neg fun sparse => below sparse.1, ← denseSize_eq_min]
    rfl

/-- What is in front of a block always fits. -/
theorem uncompressedSize_eq_bind (colsFit : cols ≤ maxCount) (rows : ℕ) (density : Float) :
    uncompressedSize rows cols density =
      blockSize rows cols density >>= plus maxSize (exactOverhead cols + 8) := by
  have small := exactOverhead_lt colsFit
  have headers : plus maxSize (exactOverhead cols) 8 = .ok (exactOverhead cols + 8) :=
    plus_of_le (by simp only [maxSize]; omega)
  rw [uncompressedSize, groupOverhead_eq colsFit]
  show (plus maxSize (exactOverhead cols) 8 >>= _) = _
  rw [headers]
  rfl

/-- **An uncompressed group has its exact size where that fits**, and none elsewhere. -/
theorem uncompressedSize_eq (rowsFit : rows ≤ maxCount) (colsFit : cols ≤ maxCount)
    (density : Float) :
    uncompressedSize rows cols density =
      if exactUncompressed rows cols density ≤ maxSize
      then .ok (exactUncompressed rows cols density) else .error .overflow := by
  rw [uncompressedSize_eq_bind colsFit, exactUncompressed]
  by_cases large : SparseTooLarge rows cols density
  · have exact := large.lt_exactBlock rowsFit colsFit
    rw [blockSize_of_large large, if_neg (by omega)]
    rfl
  · rw [blockSize_eq large]
    show plus maxSize _ _ = _
    split
    · rename_i fits
      have held : exactBlock rows cols density ≤ maxSize := by omega
      rw [Nat.min_eq_left held, plus_of_le fits]
    · rename_i exceeds
      exact plus_of_lt (by omega)

/-! ### Up to `2 ^ 60` cells -/

theorem blockSize_of_cells (cells : rows * cols ≤ 2 ^ 60) (density : Float) :
    blockSize rows cols density = .ok (exactBlock rows cols density) := by
  have few := listedCells_le cells density
  have block := exactBlock_le rows cols density
  have held : min (exactBlock rows cols density) maxSize = exactBlock rows cols density := by
    simp only [maxSize]
    omega
  rw [blockSize_eq fun large => ?_, held]
  have long := large.2
  simp only [maxSize] at long
  omega

theorem exactUncompressed_lt (colsFit : cols ≤ maxCount) (cells : rows * cols ≤ 2 ^ 60)
    (density : Float) : exactUncompressed rows cols density < maxSize := by
  have small := exactOverhead_lt colsFit
  have block := exactBlock_le rows cols density
  simp only [exactUncompressed, maxSize]
  omega

theorem uncompressedSize_of_cells (colsFit : cols ≤ maxCount) (cells : rows * cols ≤ 2 ^ 60)
    (density : Float) :
    uncompressedSize rows cols density = .ok (exactUncompressed rows cols density) := by
  rw [uncompressedSize_eq_bind colsFit, blockSize_of_cells cells]
  exact plus_of_le (exactUncompressed_lt colsFit cells density).le

/-! ### Columns -/

/-- A column of a table is far from that many cells. -/
theorem uncompressedSize_column (countable : rows ≤ maxCount) (density : Float) :
    uncompressedSize rows 1 density = .ok (exactUncompressed rows 1 density) :=
  uncompressedSize_of_cells (by decide) (by simp only [maxCount] at countable; omega) density

/-- A full column is dense. -/
theorem exactBlock_full (small : rows < 2 ^ 53) : exactBlock rows 1 1 = 44 + 8 * rows := by
  have clamped : clampShare 1 = 1 := by decide
  have listed : listedCells rows 1 1 = rows := by
    rw [listedCells, clamped, Nat.mul_one, roundToCount_one_mul small]
  rcases rows.eq_zero_or_pos with rfl | positive
  · rw [exactBlock, listed]
    rfl
  · have full : ¬ asFloat rows / asFloat rows < sparseShare := by
      rw [share_self positive small]
      decide
    simp only [exactBlock, listed, Nat.mul_one, if_neg positive.ne']
    exact if_neg fun sparse => full sparse.1

/-- No column is larger than a dense one. -/
theorem exactUncompressed_le_full (small : rows < 2 ^ 53) (density : Float) :
    exactUncompressed rows 1 density ≤ exactUncompressed rows 1 1 := by
  have block := exactBlock_le rows 1 density
  rw [exactUncompressed, exactUncompressed, exactBlock_full small]
  omega

theorem exactUncompressed_column_lt (countable : rows ≤ maxCount) (density : Float) :
    exactUncompressed rows 1 density < 2 ^ 53 := by
  have block := exactBlock_le rows 1 density
  simp only [exactUncompressed, exactOverhead, exactArray, maxCount] at *
  omega

/-! ### Layouts -/

/-- How a block is stored. -/
inductive Layout where
  | empty
  | sparse
  | dense
deriving DecidableEq, Repr

/-- How a block of a density is stored. -/
def layout (rows cols : ℕ) (density : Float) : Layout :=
  let listed := listedCells rows cols density
  if listed = 0 then .empty
  else if prefersSparse rows cols listed = .ok true then .sparse
  else .dense

/-- A layout for so many cells, some of them listed, with the bytes that it takes. -/
inductive Stored (cells listed : ℕ) : Layout → ℕ → Prop
  | empty (none : listed = 0) : Stored cells listed .empty 44
  | sparse (some : 0 < listed) (below : asFloat listed / asFloat cells < sparseShare)
      (smaller : 60 + 12 * listed < 44 + 8 * cells) :
      Stored cells listed .sparse (60 + 12 * listed)
  | dense (some : 0 < listed) (larger : asFloat listed / asFloat cells < sparseShare →
      44 + 8 * cells ≤ 60 + 12 * listed) : Stored cells listed .dense (44 + 8 * cells)

/-- Up to `2 ^ 60` cells a block is stored as its layout says. -/
theorem stored_block (cells : rows * cols ≤ 2 ^ 60) (density : Float) :
    Stored (rows * cols) (listedCells rows cols density) (layout rows cols density)
      (exactBlock rows cols density) := by
  have few := listedCells_le cells density
  have room : 60 + 12 * listedCells rows cols density ≤ maxSize := by
    simp only [maxSize]
    omega
  unfold layout exactBlock
  simp only
  split
  · rename_i none
    exact .empty none
  · rename_i listed
    have some : 0 < rows * cols :=
      Nat.pos_of_ne_zero fun none => listed (listedCells_of_none none _)
    have positive := Nat.pos_of_ne_zero listed
    split
    · rename_i sparse
      obtain ⟨below, -, smaller⟩ := (prefersSparse_eq_true_iff some).mp sparse
      rw [if_pos ⟨below, smaller⟩]
      exact .sparse positive below smaller
    · rename_i dense
      have larger : ¬ (asFloat (listedCells rows cols density) / asFloat (rows * cols) <
          sparseShare ∧ 60 + 12 * listedCells rows cols density < 44 + 8 * (rows * cols)) :=
        fun sparse => dense ((prefersSparse_eq_true_iff some).mpr ⟨sparse.1, room, sparse.2⟩)
      rw [if_neg larger]
      exact .dense positive fun below => le_of_not_gt fun smaller => larger ⟨below, smaller⟩

namespace Stored

variable {cells cells' listed listed' bytes bytes' : ℕ} {kind kind' : Layout}

theorem header_le (stored : Stored cells listed kind bytes) : 44 ≤ bytes := by
  cases stored <;> omega

/-- A block of no fewer cells, with no fewer of them listed, takes fewer bytes where a dense block
has become sparse, with few enough listed cells, and only there. -/
theorem lt_iff (stored : Stored cells listed kind bytes)
    (stored' : Stored cells' listed' kind' bytes') (more : cells ≤ cells')
    (moreListed : listed ≤ listed') :
    bytes' < bytes ↔ kind = .dense ∧ kind' = .sparse ∧ 16 + 12 * listed' < 8 * cells := by
  cases stored with
  | empty =>
    have header := stored'.header_le
    simp [header]
  | sparse some below smaller =>
    cases stored' with
    | empty none => omega
    | sparse => simp [moreListed]
    | dense =>
      have notFewer : ¬ 44 + 8 * cells' < 60 + 12 * listed := by omega
      simp [notFewer]
  | dense some larger =>
    cases stored' with
    | empty none => omega
    | sparse =>
      simp only [true_and]
      omega
    | dense => simp [more]

/-- So it takes no fewer bytes unless it has come below the turning point. -/
theorem le (stored : Stored cells listed kind bytes) (stored' : Stored cells' listed' kind' bytes')
    (more : cells ≤ cells') (moreListed : listed ≤ listed')
    (turn : asFloat listed' / asFloat cells' < sparseShare →
      asFloat listed / asFloat cells < sparseShare) : bytes ≤ bytes' := by
  by_contra smaller
  obtain ⟨rfl, rfl, few⟩ := (stored.lt_iff stored' more moreListed).mp (not_le.mp smaller)
  cases stored with
  | dense some larger =>
    cases stored' with
    | sparse some' below' smaller' =>
      have notSmaller := larger (turn below')
      omega

end Stored

/-- More listed cells do not make a block smaller. -/
theorem exactBlock_le_of_listedCells (cells : rows * cols < 2 ^ 60)
    (listed : listedCells rows cols density ≤ listedCells rows cols density') :
    exactBlock rows cols density ≤ exactBlock rows cols density' := by
  have few := listedCells_le cells.le density'
  refine (stored_block cells.le density).le (stored_block cells.le density') le_rfl listed ?_
  rcases (rows * cols).eq_zero_or_pos with none | some
  · rw [listedCells_of_none none, listedCells_of_none none]
    exact id
  · exact belowTurn_of_le listed (by omega) some (by omega)

end Footprint

end Columnar
