import Columnar.Proofs.Estimator.ExactCounts

/-!
# Listed rows and cells that are not zero

A row is listed once, however many of its cells are not zero. So what the exact estimator counts as
occurrences of a column subset are the rows with such a cell (`View.ExactAnswer.offs_eq`): no more
than the cells (`card_listedRows_le`), and no fewer than one for each `columns.length` of them
(`card_nonzeroCells_le`). The two counts agree if no row has two such cells, and only then
(`card_listedRows_eq_iff`).
-/

namespace Columnar

variable {view : View} {columns : List ℕ}

namespace View

variable (view columns) in
/-- The cells of a column subset that are not zero, by row and column. -/
def nonzeroCells : Finset (ℕ × ℕ) :=
  (Finset.range view.rows ×ˢ columns.toFinset).filter fun cell =>
    Cell.isDefault (view.get cell.1 cell.2) = false

variable (view columns) in
/-- No row of a column subset has two cells that are not zero. -/
def SingleCells : Prop :=
  ∀ row < view.rows, ∀ a ∈ columns, ∀ b ∈ columns, Cell.isDefault (view.get row a) = false →
    Cell.isDefault (view.get row b) = false → a = b

theorem mem_nonzeroCells {row column : ℕ} : (row, column) ∈ view.nonzeroCells columns ↔
    row < view.rows ∧ column ∈ columns ∧ Cell.isDefault (view.get row column) = false := by
  simp [nonzeroCells, and_assoc]

/-- The listed rows are those of the cells that are not zero. -/
theorem listedRows_eq_image :
    view.listedRows columns = (view.nonzeroCells columns).image Prod.fst := by
  ext row
  rw [mem_listedRows, isListed_tuple_iff, Finset.mem_image]
  constructor
  · rintro ⟨inTable, column, hc, listed⟩
    exact ⟨(row, column), mem_nonzeroCells.mpr ⟨inTable, hc, listed⟩, rfl⟩
  · rintro ⟨⟨_, column⟩, mem, rfl⟩
    obtain ⟨inTable, hc, listed⟩ := mem_nonzeroCells.mp mem
    exact ⟨inTable, column, hc, listed⟩

theorem card_listedRows_le :
    (view.listedRows columns).card ≤ (view.nonzeroCells columns).card := by
  rw [listedRows_eq_image]
  exact Finset.card_image_le

/-- A listed row has at most one cell for each column of the subset. -/
theorem card_nonzeroCells_le :
    (view.nonzeroCells columns).card ≤ columns.length * (view.listedRows columns).card := by
  rw [listedRows_eq_image]
  refine Finset.card_le_mul_card_image _ _ fun row _ => ?_
  have columnsOf : ∀ cell ∈ (view.nonzeroCells columns).filter (·.1 = row),
      cell.2 ∈ columns.toFinset :=
    fun cell mem => List.mem_toFinset.mpr (mem_nonzeroCells.mp (Finset.mem_filter.mp mem).1).2.1
  calc ((view.nonzeroCells columns).filter (·.1 = row)).card ≤ columns.toFinset.card := by
        refine Finset.card_le_card_of_injOn Prod.snd columnsOf fun a ha b hb same => ?_
        exact Prod.ext ((Finset.mem_filter.mp ha).2.trans (Finset.mem_filter.mp hb).2.symm) same
    _ ≤ columns.length := List.toFinset_card_le columns

theorem card_listedRows_eq_iff :
    (view.listedRows columns).card = (view.nonzeroCells columns).card ↔
      view.SingleCells columns := by
  rw [listedRows_eq_image, Finset.card_image_iff]
  constructor
  · intro injective row inTable a ha b hb listedA listedB
    have same := injective (mem_nonzeroCells.mpr ⟨inTable, ha, listedA⟩)
      (mem_nonzeroCells.mpr ⟨inTable, hb, listedB⟩) rfl
    exact congrArg Prod.snd same
  · rintro single ⟨row, a⟩ memA ⟨_, b⟩ memB rfl
    obtain ⟨inTable, ha, listedA⟩ := mem_nonzeroCells.mp memA
    obtain ⟨-, hb, listedB⟩ := mem_nonzeroCells.mp memB
    rw [single row inTable a ha b hb listedA listedB]

end View

/-! ### The exact estimator -/

/-- A share of cells as the factors hold it: at most one, and nothing of no cells. -/
def shareOfCells (part cells : ℕ) : Float :=
  if cells = 0 then 0
  else if asFloat part / asFloat cells < 1 then asFloat part / asFloat cells else 1

theorem View.ExactAnswer.density_eq {blockSize : ℕ} {f : Factors}
    (answer : view.ExactAnswer blockSize columns f) (countable : columns.length ≤ maxCount) :
    f.density = shareOfCells f.offs (view.rows * columns.length) := by
  rw [Factors.density, answer.rows_eq, answer.groupCols_eq, low32_of_le countable]
  rfl

/-- **The exact estimator counts listed rows.** For different columns in range, the occurrences are
the rows that are not zero in all of them, and the density is their share of the cells of the group.
They are the cells that are not zero if no row has two of them, and else fewer. Where the segments
and the runs fit 32 bits, the estimator does answer. -/
theorem exact_counts_listedRows (view : View) (blockSize : ℕ) {columns : List ℕ}
    (subset : columns ≠ []) (distinct : columns.Nodup)
    (inRange : ∀ column ∈ columns, column < view.cols) :
    (∀ f, view.ExactAnswer blockSize columns f →
      f.offs = (view.listedRows columns).card ∧
      f.density = shareOfCells f.offs (view.rows * columns.length) ∧
      f.offs ≤ (view.nonzeroCells columns).card ∧
      (view.nonzeroCells columns).card ≤ columns.length * f.offs ∧
      (f.offs = (view.nonzeroCells columns).card ↔ view.SingleCells columns)) ∧
    (view.SumsFit columns (max blockSize 1) → ∃ f, view.ExactAnswer blockSize columns f) := by
  have within : columns ⊆ List.range view.cols :=
    fun column mem => List.mem_range.mpr (inRange column mem)
  have countable : columns.length ≤ maxCount := by
    have fits := (distinct.subperm within).length_le
    rw [List.length_range] at fits
    exact fits.trans view.cols_le
  constructor
  · intro f answer
    rw [answer.density_eq countable, answer.offs_eq]
    exact ⟨rfl, rfl, View.card_listedRows_le, View.card_nonzeroCells_le,
      View.card_listedRows_eq_iff⟩
  · exact fun fit => ⟨_, fit.exactAnswer subset inRange⟩

theorem exact_counts_listedRows_mixed_zeros :
    ([1, 0] : List ℕ) ≠ [] ∧ ([1, 0] : List ℕ).Nodup ∧
      (∀ column ∈ [1, 0], column < Bitmap.mixedZeros.cols) ∧
      Bitmap.mixedZeros.SumsFit [1, 0] (max 7 1) ∧
      ∃ f, Bitmap.mixedZeros.ExactAnswer 7 [1, 0] f ∧
        f.offs = (Bitmap.mixedZeros.listedRows [1, 0]).card ∧
        (Bitmap.mixedZeros.nonzeroCells [1, 0]).card ≤ 2 * f.offs := by
  have subset : ([1, 0] : List ℕ) ≠ [] := List.cons_ne_nil _ _
  have inRange : ∀ column ∈ [1, 0], column < Bitmap.mixedZeros.cols := by decide
  have fit : Bitmap.mixedZeros.SumsFit [1, 0] (max 7 1) := by constructor <;> decide +kernel
  obtain ⟨counts, answers⟩ :=
    exact_counts_listedRows Bitmap.mixedZeros 7 subset (by decide) inRange
  obtain ⟨f, answer⟩ := answers fit
  obtain ⟨listed, -, -, width, -⟩ := counts f answer
  exact ⟨subset, by decide, inRange, fit, f, answer, listed, width⟩

/-- A row is listed once: in a table of two rows and three columns without a zero, two occurrences
stand for the six cells, so that the group does not count as full, and its block is priced as a
sparse one. -/
theorem fullTable_listed_twice :
    let table : View := ⟨⟨2, 3, #[1, 1, 1, 1, 1, 1], rfl, by decide, by decide⟩, false⟩
    let columns := [0, 1, 2]
    columns.Nodup ∧ (∀ column ∈ columns, column < table.cols) ∧
      (table.nonzeroCells columns).card = 6 ∧
      (∃ priced, ({ view := table } : Binding).exact.estimate columns = .ok priced ∧
        priced.nonzeros = 2 ∧ priced.factors.density = shareOfCells 2 6) ∧
      Footprint.uncompressedSize 2 3 (shareOfCells 2 6) = .ok 156 ∧
      Footprint.uncompressedSize 2 3 (shareOfCells 6 6) = .ok 164 := by
  intro table columns
  have inRange : ∀ column ∈ columns, column < table.cols := by decide
  have fit : table.SumsFit columns (max defaultBlockSize 1) := by
    constructor <;> decide +kernel
  have answer := fit.exactAnswer (List.cons_ne_nil _ _) inRange
  have twice : (table.listedRows columns).card = 2 := by decide
  have listed := answer.offs_eq.trans twice
  have density := answer.density_eq (show columns.length ≤ maxCount by decide)
  rw [listed] at density
  exact ⟨by decide, inRange, by decide, ⟨_, answer.footprints (by decide), listed, density⟩,
    by decide +kernel⟩

end Columnar
