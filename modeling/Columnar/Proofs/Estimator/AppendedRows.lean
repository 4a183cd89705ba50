import Columnar.Proofs.Estimator.CounterLimit
import Columnar.Proofs.Factors.Bounds
import Columnar.Proofs.Footprint.Growth

/-!
# Appended rows

A table to which rows are appended keeps its rows at their places, so the rows in front of a row and
the row above it stay what they are: no listed row, no content and no head is lost
(`View.Extends.listedRows_subset`, `contents_subset`, `heads_subset`), the gap in front of an old
row is the same (`gap_eq`), and the last row of a content moves down at most (`lastRow_le`). So no
count of the rows falls (`atMost_rowCounts`), and with it no price that is built on counts
(`exact_of_appended_rows`).

Read transposed, the appended rows are columns to the right of the others, and the old column
subsets do not see them.
-/

namespace Columnar

/-- A table with the rows of another one, in their places, and any rows after them. -/
structure Matrix.AppendsRows (m m' : Matrix) : Prop where
  rows : m.rows ≤ m'.rows
  cols : m'.cols = m.cols
  get : ∀ row < m.rows, ∀ col < m.cols, m'.get row col = m.get row col

/-- A view with the cells of another one in their places. -/
structure View.Extends (v v' : View) : Prop where
  rows : v.rows ≤ v'.rows
  cols : v.cols ≤ v'.cols
  get : ∀ row < v.rows, ∀ col < v.cols, v'.get row col = v.get row col

namespace Matrix

/-- The table with so many rows more, of the given cells. -/
def appendRows (m : Matrix) (count : ℕ) (countable : m.rows + count ≤ maxCount)
    (cell : ℕ → ℕ → Cell) : Matrix :=
  .tabulate countable m.cols_le fun row col =>
    if row < m.rows then m.get row col else cell (row - m.rows) col

theorem appendsRows_appendRows (m : Matrix) {count : ℕ} (countable : m.rows + count ≤ maxCount)
    (cell : ℕ → ℕ → Cell) : m.AppendsRows (m.appendRows count countable cell) where
  rows := Nat.le_add_right m.rows count
  cols := rfl
  get _ inRows _ inCols :=
    (get_tabulate _ (inRows.trans_le (Nat.le_add_right _ _)) inCols).trans (if_pos inRows)

/-- In either orientation, a table with appended rows extends the table. -/
theorem AppendsRows.extends {m m' : Matrix} (appends : m.AppendsRows m') (transposed : Bool) :
    (⟨m, transposed⟩ : View).Extends ⟨m', transposed⟩ := by
  cases transposed with
  | false => exact ⟨appends.rows, appends.cols.ge, appends.get⟩
  | true =>
    exact ⟨appends.cols.ge, appends.rows, fun row inCols col inRows =>
      appends.get col inRows row inCols⟩

end Matrix

/-! ### What stays in its place -/

namespace View.Extends

variable {v v' : View} {columns : List ℕ} {c : List Cell} {p : ℕ}
  (ext : v.Extends v') (inRange : ∀ column ∈ columns, column < v.cols)
include ext

theorem lt_rows (inTable : p < v.rows) : p < v'.rows := inTable.trans_le ext.rows

include inRange

theorem tuple_eq (inTable : p < v.rows) : v'.tuple columns p = v.tuple columns p :=
  List.map_congr_left fun column mem => ext.get p inTable column (inRange column mem)

theorem content_eq (inTable : p < v.rows) : v'.content columns p = v.content columns p :=
  congrArg (List.map Cell.normal) (ext.tuple_eq inRange inTable)

theorem listedRows_subset : v.listedRows columns ⊆ v'.listedRows columns := by
  intro p mem
  obtain ⟨inTable, listed⟩ := mem_listedRows.mp mem
  rw [← ext.tuple_eq inRange inTable] at listed
  exact mem_listedRows.mpr ⟨ext.lt_rows inTable, listed⟩

theorem contents_subset : v.contents columns ⊆ v'.contents columns := by
  intro c mem
  obtain ⟨p, listed, rfl⟩ := Finset.mem_image.mp mem
  rw [← ext.content_eq inRange (mem_listedRows.mp listed).1]
  exact Finset.mem_image_of_mem _ (ext.listedRows_subset inRange listed)

/-- Of the old rows, those with a content are the same. -/
theorem mem_rowsOf_iff (inTable : p < v.rows) :
    p ∈ v'.rowsOf columns c ↔ p ∈ v.rowsOf columns c := by
  rw [mem_rowsOf, mem_rowsOf, ext.content_eq inRange inTable, and_iff_right inTable,
    and_iff_right (ext.lt_rows inTable)]

theorem lastRow_le (hc : c ∈ v.contents columns) : v.lastRow columns c ≤ v'.lastRow columns c := by
  have last := lastRow_mem hc
  have kept : v.lastRow columns c ∈ v'.rowsOf columns c :=
    (ext.mem_rowsOf_iff inRange (mem_rowsOf.mp last).1).mpr last
  have latest := List.getLast?_eq_some_getLast (List.ne_nil_of_mem kept)
  have le := Bitmap.le_of_getLast? (pairwise_rowsOf c) latest kept
  rwa [← Option.getD_some (a := (v'.rowsOf columns c).getLast _) (b := 0), ← latest,
    ← List.getLastD_eq_getLast?] at le

theorem previous?_eq (inTable : p < v.rows) : v'.previous? columns p = v.previous? columns p := by
  unfold previous?
  rw [ext.content_eq inRange inTable]
  refine congrArg List.getLast? (List.Pairwise.eq_of_mem_iff
    ((pairwise_rowsOf _).filter _) ((pairwise_rowsOf _).filter _) fun {q} => ?_)
  simp only [List.mem_filter, decide_eq_true_iff]
  exact and_congr_left fun earlier => ext.mem_rowsOf_iff inRange (earlier.trans inTable)

theorem gap_eq (inTable : p < v.rows) : v'.gap columns p = v.gap columns p := by
  rw [gap, gap, ext.previous?_eq inRange inTable]

theorem heads_subset : v.heads columns ⊆ v'.heads columns := by
  intro p head
  obtain ⟨listed, above⟩ := mem_heads.mp head
  have inTable := lt_of_mem_heads head
  refine mem_heads.mpr ⟨ext.listedRows_subset inRange listed, ?_⟩
  rwa [ext.content_eq inRange ((Nat.sub_le p 1).trans_lt inTable), ext.content_eq inRange inTable]

/-! ### The counts -/

theorem segs_le (block : ℕ) :
    (v.rowCounts columns block).segs ≤ (v'.rowCounts columns block).segs := by
  calc (v.rowCounts columns block).segs
      = ∑ c ∈ v.contents columns, (v.lastRow columns c / block + 1) := rfl
    _ ≤ ∑ c ∈ v.contents columns, (v'.lastRow columns c / block + 1) :=
        Finset.sum_le_sum fun c hc =>
          Nat.add_le_add_right (Nat.div_le_div_right (ext.lastRow_le inRange hc)) 1
    _ ≤ (v'.rowCounts columns block).segs :=
        Finset.sum_le_sum_of_subset (ext.contents_subset inRange)

theorem runs_le (block : ℕ) :
    (v.rowCounts columns block).runs ≤ (v'.rowCounts columns block).runs := by
  calc (v.rowCounts columns block).runs
      = ∑ p ∈ v.heads columns, (1 + v.gap columns p / block) := v.runs_eq_sum columns block
    _ = ∑ p ∈ v.heads columns, (1 + v'.gap columns p / block) :=
        Finset.sum_congr rfl fun p head => by rw [ext.gap_eq inRange (lt_of_mem_heads head)]
    _ ≤ ∑ p ∈ v'.heads columns, (1 + v'.gap columns p / block) :=
        Finset.sum_le_sum_of_subset (ext.heads_subset inRange)
    _ = (v'.rowCounts columns block).runs := (v'.runs_eq_sum columns block).symm

theorem atMost_rowCounts (block : ℕ) :
    (v.rowCounts columns block).AtMost (v'.rowCounts columns block) where
  vals := Finset.card_le_card (ext.contents_subset inRange)
  offs := Finset.card_le_card (ext.listedRows_subset inRange)
  segs := ext.segs_le inRange block
  runs := ext.runs_le inRange block
  rows := ext.rows
  groupCols := Nat.le_refl _

end View.Extends

/-! ### Exact estimates -/

section Exact

variable {columns : List ℕ} {blockSize : ℕ}

/-- Exact answers for which no count and no price that is built on counts is lower in the second
table. -/
structure View.AnswersGrow (v v' : View) (blockSize : ℕ) (columns : List ℕ) (f f' : Factors) :
    Prop where
  answer : v.ExactAnswer blockSize columns f
  answer' : v'.ExactAnswer blockSize columns f'
  counts : f.AtMost f'
  /-- The model of footprints finds a size for both. -/
  sizes : ∀ e ∈ [Encoding.dict1, .dict2, .runLength], ∃ size size',
    SizeModel.footprint e f = .ok size ∧ SizeModel.footprint e f' = .ok size' ∧ size ≤ size'
  /-- Up to `2 ^ 60` cells both are priced by footprints. -/
  prices : f'.rows * f'.groupCols ≤ 2 ^ 60 → ∃ p p',
    ({ view := v, blockSize } : Binding).exact.estimate columns = .ok p ∧
    ({ view := v', blockSize } : Binding).exact.estimate columns = .ok p' ∧
    p.factors = f ∧ p'.factors = f' ∧
    ∀ e ∈ [Encoding.dict1, .dict2, .runLength], p.sizes.get e ≤ p'.sizes.get e

theorem View.answersGrow {v v' : View} {f f' : Factors}
    (answer : v.ExactAnswer blockSize columns f) (answer' : v'.ExactAnswer blockSize columns f')
    (counts : f.AtMost f') : v.AnswersGrow v' blockSize columns f f' where
  answer := answer
  answer' := answer'
  counts := counts
  sizes e mem := by
    have encoded : e ≠ .uncompressed := by rintro rfl; simp at mem
    have listed : (f'.offs + f'.segs) * 2 + 3 ≤ maxSize := by
      have offs := answer'.offs_le.trans v'.rows_le
      have segs := answer'.fits.segs
      simp only [maxCount, maxSize] at *
      omega
    obtain ⟨size, size', found, found', le, -⟩ :=
      Footprint.exists_sizes_le counts answer.fits answer'.fits listed encoded
    exact ⟨size, size', found, found', le⟩
  prices cells := by
    have cells' : f.rows * f.groupCols ≤ 2 ^ 60 :=
      (Nat.mul_le_mul counts.rows counts.groupCols).trans cells
    refine ⟨_, _, answer.footprints cells', answer'.footprints cells, rfl, rfl, fun e mem => ?_⟩
    have notSegments : e ≠ .offsetList := by rintro rfl; simp at mem
    have encoded : e ≠ .uncompressed := by rintro rfl; simp at mem
    simp only [Footprint.price, Footprint.get_sizes, notSegments, false_and, if_false]
    exact Footprint.cut_le_cut (Footprint.exactSize_le_exactSize counts encoded)

/-- **Appended rows lower no count and no price that is built on counts.** When rows are appended
to a table and the exact segments and runs of the longer table fit 32 bits, the exact estimator
counts at least as many tuples, occurrences, segments and runs in any column subset in range, and
neither dictionary gets cheaper, nor do runs; a dictionary above its limit stays there. A subset
without columns is refused in both tables. -/
theorem exact_of_appended_rows {m m' : Matrix} (appends : m.AppendsRows m') (transposed : Bool)
    (inRange : ∀ column ∈ columns, column < (⟨m, transposed⟩ : View).cols)
    (segsFit : ((⟨m', transposed⟩ : View).rowCounts columns (max blockSize 1)).segs ≤ maxCount)
    (runsFit : ((⟨m', transposed⟩ : View).rowCounts columns (max blockSize 1)).runs ≤ maxCount) :
    let v : View := ⟨m, transposed⟩
    let v' : View := ⟨m', transposed⟩
    (columns ≠ [] → ∃ f f', v.AnswersGrow v' blockSize columns f f') ∧
    (columns = [] → ∀ model, ∀ view ∈ [v, v'],
      ({ view, model, blockSize } : Binding).exact.estimate columns =
        .error (.invalidArgument .emptySubset)) := by
  intro v v'
  have ext : v.Extends v' := appends.extends transposed
  have inRange' : ∀ column ∈ columns, column < v'.cols :=
    fun column mem => (inRange column mem).trans_le ext.cols
  constructor
  · intro subset
    have grows := ext.atMost_rowCounts inRange (max blockSize 1)
    have fit : v.SumsFit columns (max blockSize 1) :=
      ⟨grows.segs.trans segsFit, grows.runs.trans runsFit⟩
    have fit' : v'.SumsFit columns (max blockSize 1) := ⟨segsFit, runsFit⟩
    exact ⟨_, _, View.answersGrow (fit.exactAnswer subset inRange)
      (fit'.exactAnswer subset inRange') grows⟩
  · rintro rfl model view -
    rfl

/-- The table with zeros of either sign, and one row more. -/
theorem exact_of_appended_rows_one_more :
    let m := Bitmap.mixedZeros.matrix
    let m' := m.appendRows 1 (by decide) fun _ _ => 5
    m.AppendsRows m' ∧ (∀ column ∈ [1, 0], column < (⟨m, false⟩ : View).cols) ∧
      ((⟨m', false⟩ : View).rowCounts [1, 0] (max 2 1)).segs ≤ maxCount ∧
      ((⟨m', false⟩ : View).rowCounts [1, 0] (max 2 1)).runs ≤ maxCount ∧
      ∃ f f', (⟨m, false⟩ : View).AnswersGrow ⟨m', false⟩ 2 [1, 0] f f' := by
  intro m m'
  have appends : m.AppendsRows m' := m.appendsRows_appendRows _ _
  have inRange : ∀ column ∈ [1, 0], column < (⟨m, false⟩ : View).cols := by decide
  have segsFit : ((⟨m', false⟩ : View).rowCounts [1, 0] (max 2 1)).segs ≤ maxCount := by
    decide +kernel
  have runsFit : ((⟨m', false⟩ : View).rowCounts [1, 0] (max 2 1)).runs ≤ maxCount := by
    decide +kernel
  exact ⟨appends, inRange, segsFit, runsFit,
    (exact_of_appended_rows appends false inRange segsFit runsFit).1 (List.cons_ne_nil _ _)⟩

end Exact

end Columnar
