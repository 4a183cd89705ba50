import Columnar.Footprint
import Columnar.Proofs.Float.Order

/-!
# Listed cells

A block lists the cells that are not zero, by its density. Their number does not fall when the
density or the number of cells grows (`listedCells_le_listedCells`, `listedCells_le_of_cells`). A
block is only considered sparse with a share of listed cells below a turning point: with fewer of
them it stays below (`belowTurn_of_le`), and with half of the cells it is above
(`not_belowTurn_of_half`). A part of some listed cells has a share of at most one (`share_eq_one`),
as the density of a column has (`density_of_column`).
-/

namespace Columnar

/-! ### Shares -/

section Shares

variable {part whole n : ℕ}

/-- A share of listed cells that is not below one is one. -/
theorem share_eq_one (positive : 0 < whole) (le : part ≤ whole) (small : whole < 2 ^ 53)
    (full : ¬ asFloat part / asFloat whole < 1) : asFloat part / asFloat whole = 1 := by
  obtain ⟨q, denotes, -, -, atMostOne⟩ := exists_share positive le small
  rw [denotes.lt_iff denotes_one, not_lt] at full
  obtain rfl : q = 1 := le_antisymm atMostOne full
  exact denotes.unique denotes_one one_ne_zero

theorem share_self (positive : 0 < n) (small : n < 2 ^ 53) : asFloat n / asFloat n = 1 := by
  obtain ⟨q, denotes, nearest, -⟩ := exists_share positive (le_refl n) small
  have whole : (n : ℚ) / n = 1 := div_self (by exact_mod_cast positive.ne')
  rw [whole] at nearest
  rw [nearest.eq isRepresentable_one] at denotes
  exact denotes.unique denotes_one one_ne_zero

/-- All of a count is the count. -/
theorem roundToCount_one_mul (small : n < 2 ^ 53) : roundToCount (1 * asFloat n) = n := by
  have exact : (1 : ℚ) * n = n := one_mul _
  obtain ⟨r, denotes, nearest⟩ := exists_mul denotes_one (denotes_asFloat small)
    (by rw [exact, abs_of_nonneg n.cast_nonneg]; exact natCast_le_far small)
  rw [exact] at nearest
  rw [nearest.eq (isRepresentable_natCast small)] at denotes
  exact roundToCount_of_denotes denotes (small.le.trans (by decide))

/-- No share of nothing rounds to a count. -/
theorem roundToCount_mul_zero (x : Float) : roundToCount (x * asFloat 0) = 0 := by
  show (FloatValue.ofFloat (Float.ofModel (Float.Model.pack (Float.Model.UnpackedFloat.mul
    Float.Model.Format.binary64 x.toModel.unpack (.zero .positive))))).toCount Binary.round = 0
  generalize x.toModel.unpack = u
  cases u with
  | notANumber => rfl
  | infinity s => cases s <;> rfl
  | zero s => cases s <;> rfl
  | finite s m e hm =>
    simp only [Float.Model.UnpackedFloat.mul]
    cases s <;> rfl

end Shares

namespace Footprint

variable {rows rows' cols cols' m n : ℕ} {density density' : Float}

/-- A group of one column is as dense as its share of listed rows. -/
theorem density_of_column {f : Factors} (single : f.groupCols = 1) (fits : f.offs ≤ f.rows)
    (small : f.rows < 2 ^ 53) :
    f.density = if f.rows = 0 then 0 else asFloat f.offs / asFloat f.rows := by
  rw [Factors.density, single, Nat.mul_one]
  simp only
  split
  · rfl
  · rename_i rows
    split
    · rfl
    · rename_i full
      exact (share_eq_one (Nat.pos_of_ne_zero rows) fits small full).symm

/-! ### Listed cells -/

/-- A density is held between the two ends of the shares, wherever it lies. -/
theorem lies_clampShare {a : Extended} (lies : Lies density a) :
    Lies (clampShare density) (max (.of 0) (min a (.of 1))) := by
  have zero : Lies 0 (.of 0) := .number denotes_zero
  have one : Lies 1 (.of 1) := .number denotes_one
  unfold clampShare
  split
  · rename_i negative
    rw [lies.lt_iff zero] at negative
    rwa [max_eq_left ((min_le_left a _).trans negative.le)]
  · rename_i notNegative
    rw [lies.lt_iff zero, not_lt] at notNegative
    split
    · rename_i above
      rw [one.lt_iff lies] at above
      rwa [min_eq_right above.le, max_eq_right (Extended.of_le_of.mpr zero_le_one)]
    · rename_i notAbove
      rw [one.lt_iff lies, not_lt] at notAbove
      rwa [min_eq_left notAbove, max_eq_right notNegative]

theorem clampShare_of_nan (nan : density.toModel.unpack = .notANumber) :
    clampShare density = density := by
  have notBelow : ¬ density < 0 := fun less => (number_of_lt less).1 nan
  have notAbove : ¬ 1 < density := fun less => (number_of_lt less).2 nan
  rw [clampShare, if_neg notBelow, if_neg notAbove]

/-- The larger of two densities is held at no smaller share. -/
theorem exists_clampShare_le (le : density ≤ density') :
    ∃ p p', Denotes (clampShare density) p ∧ Denotes (clampShare density') p' ∧
      0 ≤ p ∧ p ≤ p' ∧ p' ≤ 1 := by
  have unit : Extended.of 0 ≤ .of 1 := Extended.of_le_of.mpr zero_le_one
  obtain ⟨a, lies⟩ := exists_lies (number_of_le le).1
  obtain ⟨a', lies'⟩ := exists_lies (number_of_le le).2
  rw [lies.le_iff lies'] at le
  have low : .of 0 ≤ max (.of 0) (min a (.of 1)) := le_max_left _ _
  have order := max_le_max_left (.of 0) (min_le_min_right (.of 1) le)
  have high : max (.of 0) (min a' (.of 1)) ≤ .of 1 := max_le unit (min_le_right _ _)
  obtain ⟨p, held, denotes⟩ := (lies_clampShare lies).exists_denotes low (order.trans high)
  obtain ⟨p', held', denotes'⟩ := (lies_clampShare lies').exists_denotes (low.trans order) high
  rw [held] at low order
  rw [held'] at order high
  exact ⟨p, p', denotes, denotes', Extended.of_le_of.mp low, Extended.of_le_of.mp order,
    Extended.of_le_of.mp high⟩

/-- Held between zero and one, a float is NaN or denotes a share. -/
theorem exists_clampShare (density : Float) :
    (clampShare density).toModel.unpack = .notANumber ∨
      ∃ q, Denotes (clampShare density) q ∧ 0 ≤ q ∧ q ≤ 1 := by
  by_cases nan : density.toModel.unpack = .notANumber
  · rw [clampShare_of_nan nan]
    exact .inl nan
  · obtain ⟨p, p', denotes, -, nonneg, le, atMostOne⟩ :=
      exists_clampShare_le (le_self_of_number nan)
    exact .inr ⟨p, denotes, nonneg, le.trans atMostOne⟩

theorem listedCells_of_nan (nan : density.toModel.unpack = .notANumber) :
    listedCells rows cols density = 0 := by
  rw [listedCells, clampShare_of_nan nan, roundToCount_nan_mul nan]

theorem listedCells_of_none (none : rows * cols = 0) (density : Float) :
    listedCells rows cols density = 0 := by
  rw [listedCells, none, roundToCount_mul_zero]

/-- A denser block of no fewer cells lists no fewer of them. -/
theorem listedCells_le_listedCells (le : density ≤ density') (cells : rows * cols ≤ rows' * cols')
    (small : rows' * cols' ≤ 2 ^ 60) :
    listedCells rows cols density ≤ listedCells rows' cols' density' := by
  obtain ⟨p, p', denotes, denotes', nonneg, order, atMostOne⟩ := exists_clampShare_le le
  exact roundToCount_mul_le_roundToCount_mul denotes denotes' nonneg order atMostOne cells small

/-- A block of no fewer cells lists no fewer of them, at any density. -/
theorem listedCells_le_of_cells (cells : rows * cols ≤ rows' * cols')
    (small : rows' * cols' ≤ 2 ^ 60) (density : Float) :
    listedCells rows cols density ≤ listedCells rows' cols' density := by
  by_cases nan : density.toModel.unpack = .notANumber
  · rw [listedCells_of_nan nan]
    exact Nat.zero_le _
  · exact listedCells_le_listedCells (le_self_of_number nan) cells small

/-- A full block lists no fewer cells than any. -/
theorem listedCells_le_full (cells : rows * cols ≤ 2 ^ 60) (density : Float) :
    listedCells rows cols density ≤ listedCells rows cols 1 := by
  have clamped : clampShare 1 = 1 := by decide
  rcases exists_clampShare density with nan | ⟨p, denotes, nonneg, atMostOne⟩
  · rw [listedCells, roundToCount_nan_mul nan]
    exact Nat.zero_le _
  · rw [listedCells, listedCells, clamped]
    exact roundToCount_mul_le_roundToCount_mul denotes denotes_one nonneg atMostOne le_rfl le_rfl
      cells

/-- A block of density zero lists nothing. -/
theorem listedCells_zero (cells : rows * cols ≤ 2 ^ 60) : listedCells rows cols 0 = 0 := by
  have clamped : clampShare 0 = 0 := by decide
  obtain ⟨r, s, -, -, nearest, rounded⟩ :=
    exists_roundToCount_mul denotes_zero le_rfl zero_le_one cells
  rw [zero_mul] at nearest
  rw [listedCells, clamped, rounded, nearest.eq isNearest_zero.1]
  norm_num

/-- No block has more listed cells than cells, up to a power of two. -/
theorem listedCells_le (cells : rows * cols ≤ 2 ^ 60) (density : Float) :
    listedCells rows cols density ≤ 2 ^ 60 := by
  rcases exists_clampShare density with nan | ⟨q, share, nonneg, atMostOne⟩
  · rw [listedCells, roundToCount_nan_mul nan]
    exact Nat.zero_le _
  · exact roundToCount_mul_le share nonneg atMostOne cells (by decide)

/-! ### The turning point -/

theorem denotes_sparseShare : Denotes sparseShare (7205759403792794 * 2 ^ (-54 : ℤ)) := rfl

section Turn

variable {cells : ℕ}

/-- With fewer listed cells a block stays below the turning point. -/
theorem belowTurn_of_le (le : m ≤ n) (small : n < 2 ^ 64) (some : 0 < cells) (few : cells < 2 ^ 64)
    (below : asFloat n / asFloat cells < sparseShare) :
    asFloat m / asFloat cells < sparseShare := by
  obtain ⟨s, s', share, share', shares⟩ := exists_share_le_share le small some few
  rw [share'.lt_iff denotes_sparseShare] at below
  rw [share.lt_iff denotes_sparseShare]
  exact shares.trans_lt below

/-- A block that lists half of its cells is not below the turning point. -/
theorem not_belowTurn_of_half (some : 0 < cells) (few : cells < 2 ^ 64) (half : cells ≤ 2 * n)
    (small : n < 2 ^ 64) : ¬ asFloat n / asFloat cells < sparseShare := by
  obtain ⟨r, d, s, ⟨-, nearest⟩, ⟨-, nearestD⟩, atLeastOne, share, nearestS⟩ :=
    exists_share_of_pos some few small
  have part := abs_le.mp nearest.count_error
  have whole := abs_le.mp nearestD.count_error
  have halves : (cells : ℚ) ≤ 2 * n := by exact_mod_cast half
  have ratio : 7 / 16 ≤ r / d := by
    rw [le_div_iff₀ (by linarith)]
    linarith
  have bound : IsRepresentable (7 / 16) :=
    ⟨7, -4, by decide, by decide, by norm_num [abs_of_pos]⟩
  rw [share.lt_iff denotes_sparseShare, not_lt]
  exact le_trans (by norm_num) (nearestS.ge bound ratio)

/-- Three cells of eight are below the turning point, with room for every rounding. -/
theorem belowTurn_of_eighths (some : 0 < cells) (small : cells ≤ 2 ^ 60) (few : 8 * n ≤ 3 * cells) :
    asFloat n / asFloat cells < sparseShare := by
  obtain ⟨r, d, s, ⟨-, nearest⟩, ⟨-, nearestD⟩, atLeastOne, share, nearestS⟩ :=
    exists_share_of_pos some (by omega) (show n < 2 ^ 64 by omega)
  have part := abs_le.mp nearest.count_error
  have whole := abs_le.mp nearestD.count_error
  have eighths : 8 * (n : ℚ) ≤ 3 * cells := by exact_mod_cast few
  have ratio : r / d ≤ 25 / 64 := by
    rw [div_le_iff₀ (by linarith)]
    linarith
  have bound : IsRepresentable (25 / 64) :=
    ⟨25, -6, by decide, by decide, by norm_num [abs_of_pos]⟩
  rw [share.lt_iff denotes_sparseShare]
  exact (nearestS.le bound ratio).trans_lt (by norm_num)

end Turn

end Footprint

end Columnar
