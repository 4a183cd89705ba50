import Columnar.Proofs.Cell
import Columnar.Proofs.Table.Tabulate

/-!
# Tables from their columns

The cells of a table lie column after column, so the place of a cell is its row plus the lengths of
the columns before its own. The places of a table are inside of its storage, and no two cells share
one (`Matrix.stored`), so a column and its stretch of the storage hold the same cells
(`Matrix.column_eq_map`) and the counts over both are equal. A list of columns is accepted if they
are as long as the first and the dimensions fit, and refused otherwise for the first column that is
not (`Matrix.ofColumns_outcome`); the table then holds cell for cell what the list holds.
-/

namespace Columnar

namespace Matrix

variable {m : Matrix} {row col : ℕ}

/-! ### Places -/

/-- The cells of a table are inside of its storage, each at a place of its own, and so are the
stretches of its columns. -/
structure Stored (m : Matrix) : Prop where
  cell : ∀ row < m.rows, ∀ col < m.cols, m.cells[col * m.rows + row]? = some (m.get row col)
  apart : ∀ row < m.rows, ∀ row' < m.rows, ∀ col col' : ℕ,
    col * m.rows + row = col' * m.rows + row' → row = row' ∧ col = col'
  stretch : ∀ col < m.cols, (col + 1) * m.rows ≤ m.cells.size
  /-- In either orientation. -/
  view : ∀ transposed, let v : View := ⟨m, transposed⟩
    ∀ row < v.rows, ∀ col < v.cols,
      m.cells[if transposed then row * m.rows + col else col * m.rows + row]? =
        some (v.get row col)

theorem getElem?_cells (inRows : row < m.rows) (inCols : col < m.cols) :
    m.cells[col * m.rows + row]? = some (m.get row col) := by
  have inside : col * m.rows + row < m.cells.size := m.size_cells ▸ place_lt inRows inCols
  rw [get, Array.getD_eq_getD_getElem?, Array.getElem?_eq_getElem inside]
  rfl

/-- A place is that of one cell. -/
theorem place_inj {rows row' col' : ℕ} (inRows : row < rows) (inRows' : row' < rows)
    (same : col * rows + row = col' * rows + row') : row = row' ∧ col = col' := by
  constructor
  · rw [← place_mod inRows col, same, place_mod inRows']
  · rw [← place_div inRows col, same, place_div inRows']

theorem stretch_le (inCols : col < m.cols) : (col + 1) * m.rows ≤ m.cells.size := by
  rw [m.size_cells, Nat.mul_comm]
  exact Nat.mul_le_mul_left _ inCols

theorem stored (m : Matrix) : m.Stored where
  cell _ inRows _ inCols := getElem?_cells inRows inCols
  apart _ inRows _ inRows' _ _ same := place_inj inRows inRows' same
  stretch _ inCols := stretch_le inCols
  view transposed := by
    intro v row inRows col inCols
    cases transposed
    · exact getElem?_cells inRows inCols
    · exact getElem?_cells inCols inRows

/-- A stretch of the storage holds the cells of its column. -/
theorem column_eq_map (inCols : col < m.cols) :
    m.column col = (List.range m.rows).map (m.get · col) := by
  have inside := stretch_le inCols
  have length : (col + 1) * m.rows - col * m.rows = m.rows := by
    rw [Nat.succ_mul, Nat.add_sub_cancel_left]
  apply List.ext_getElem?
  intro row
  rw [column, Array.getElem?_toList, Array.getElem?_extract, Nat.min_eq_left inside, length,
    List.getElem?_map]
  split
  · rename_i inRows
    rw [getElem?_cells inRows inCols, List.getElem?_range inRows]
    rfl
  · rename_i beyond
    rw [List.getElem?_eq_none (by simpa using beyond)]
    rfl

/-- Both ways to count the cells of a column that are not zero agree. -/
theorem columnNonzeros_eq (inCols : col < m.cols) : m.columnNonzeros col = m.scanNonzeros col := by
  rw [columnNonzeros, column_eq_map inCols, List.countP_map]
  rfl

/-! ### Columns of equal length -/

section Uniform

variable {columns : List (List Cell)} {rows : ℕ}

theorem map_length_of_uniform (uniform : ∀ column ∈ columns, column.length = rows) :
    columns.map List.length = List.replicate columns.length rows :=
  List.map_eq_replicate_iff.mpr uniform

theorem length_flatten_of_uniform (uniform : ∀ column ∈ columns, column.length = rows) :
    columns.flatten.length = rows * columns.length := by
  rw [List.length_flatten, map_length_of_uniform uniform, List.sum_replicate, smul_eq_mul,
    Nat.mul_comm]

/-- The stretch of a column in the list of all cells. -/
theorem take_drop_flatten (uniform : ∀ column ∈ columns, column.length = rows)
    (inCols : col < columns.length) :
    (columns.flatten.take ((col + 1) * rows)).drop (col * rows) = columns[col] := by
  have before (count : ℕ) (le : count ≤ columns.length) :
      ((columns.map List.length).take count).sum = count * rows := by
    rw [map_length_of_uniform uniform, List.take_replicate, List.sum_replicate,
      Nat.min_eq_left le, smul_eq_mul]
  rw [← before _ inCols.le, ← before _ inCols]
  exact List.drop_take_succ_flatten_eq_getElem columns col inCols

theorem column_of_flatten (cells : m.cells = columns.flatten.toArray)
    (uniform : ∀ column ∈ columns, column.length = m.rows) (inCols : col < columns.length) :
    m.column col = columns[col] := by
  rw [← take_drop_flatten uniform inCols, column, cells, Array.toList_extract,
    List.extract_eq_take_drop, List.drop_take]

end Uniform

/-! ### Lists of columns -/

section Columns

variable {columns : List (List Cell)}

theorem ofCells_eq_ok_iff {rows cols : ℕ} {cells : Array Cell} :
    ofCells rows cols cells = .ok m ↔ m.rows = rows ∧ m.cols = cols ∧ m.cells = cells := by
  constructor
  · intro success
    unfold ofCells at success
    split at success
    · split at success
      · cases success
        exact ⟨rfl, rfl, rfl⟩
      · cases success
    · cases success
  · rintro ⟨rfl, rfl, rfl⟩
    rw [ofCells, dif_pos ⟨m.rows_le, m.cols_le⟩, dif_pos m.size_cells]

/-- Columns that make up a table. -/
structure Fits (columns : List (List Cell)) : Prop where
  uniform : ∀ column ∈ columns, column.length = rowsOf columns
  rows_le : rowsOf columns ≤ maxCount
  cols_le : columns.length ≤ maxCount

/-- Why columns make up no table: one of them is not as long as the first, or there are too many
rows or columns. -/
inductive Refused (columns : List (List Cell)) : PlanError → Prop
  | ragged {before after : List (List Cell)} {column : List Cell}
    (split : columns = before ++ column :: after)
    (before_uniform : ∀ other ∈ before, other.length = rowsOf columns)
    (differs : column.length ≠ rowsOf columns) :
    Refused columns
      (.invalidArgument (.columnLength before.length column.length (rowsOf columns)))
  | tooLarge (uniform : ∀ column ∈ columns, column.length = rowsOf columns)
    (large : ¬ (rowsOf columns ≤ maxCount ∧ columns.length ≤ maxCount)) :
    Refused columns (.invalidArgument (.dimensions (rowsOf columns) columns.length))

theorem fits_or_refused (columns : List (List Cell)) :
    Fits columns ∨ ∃ failure, Refused columns failure := by
  cases found : columns.find? fun column => column.length != rowsOf columns with
  | some column =>
    obtain ⟨differs, before, after, split, before_uniform⟩ := List.find?_eq_some_iff_append.mp found
    refine .inr ⟨_, .ragged split ?_ (by simpa using differs)⟩
    intro other mem
    simpa using before_uniform other mem
  | none =>
    have uniform : ∀ column ∈ columns, column.length = rowsOf columns := by
      simpa using found
    by_cases small : rowsOf columns ≤ maxCount ∧ columns.length ≤ maxCount
    · exact .inl ⟨uniform, small.1, small.2⟩
    · exact .inr ⟨_, .tooLarge uniform small⟩

/-- Columns of equal length are stored one after the other. -/
theorem ofColumns_of_uniform (uniform : ∀ column ∈ columns, column.length = rowsOf columns) :
    ofColumns columns = ofCells (rowsOf columns) columns.length columns.flatten.toArray := by
  have none : (columns.zipIdx.find? fun entry => entry.1.length != rowsOf columns) = none := by
    rw [List.find?_eq_none]
    intro entry mem
    simpa using uniform entry.1 (List.fst_mem_of_mem_zipIdx mem)
  simp only [ofColumns]
  split
  · rename_i found
    cases none.symm.trans found
  · rfl

theorem ofColumns_of_fits (fits : Fits columns) : ∃ m, ofColumns columns = .ok m := by
  have size : columns.flatten.toArray.size = rowsOf columns * columns.length := by
    rw [List.size_toArray, length_flatten_of_uniform fits.uniform]
  exact ⟨⟨_, _, _, size, fits.rows_le, fits.cols_le⟩,
    (ofColumns_of_uniform fits.uniform).trans (ofCells_eq_ok_iff.mpr ⟨rfl, rfl, rfl⟩)⟩

theorem ofColumns_of_refused {failure : PlanError} (refused : Refused columns failure) :
    ofColumns columns = .error failure := by
  cases refused with
  | @ragged before after column split before_uniform differs =>
    have found : (columns.zipIdx.find? fun entry => entry.1.length != rowsOf columns) =
        some (column, before.length) := by
      have listed : columns.zipIdx =
          before.zipIdx ++ (column, before.length) :: after.zipIdx (before.length + 1) := by
        rw [split, List.zipIdx_append, List.zipIdx_cons, Nat.zero_add]
      refine List.find?_eq_some_iff_append.mpr ⟨by simpa using differs, _, _, listed, ?_⟩
      intro entry mem
      simpa using before_uniform entry.1 (List.fst_mem_of_mem_zipIdx mem)
    simp only [ofColumns]
    split
    · rename_i found'
      cases found.symm.trans found'
      rfl
    · rename_i none
      cases found.symm.trans none
  | tooLarge uniform large =>
    rw [ofColumns_of_uniform uniform, ofCells, dif_neg large]

/-- Columns make up a table exactly if they fit. -/
theorem exists_ofColumns_iff : (∃ m, ofColumns columns = .ok m) ↔ Fits columns := by
  constructor
  · rintro ⟨m, success⟩
    rcases fits_or_refused columns with fits | ⟨failure, refused⟩
    · exact fits
    · cases (ofColumns_of_refused refused).symm.trans success
  · exact ofColumns_of_fits

theorem ofColumns_eq_error_iff {failure : PlanError} :
    ofColumns columns = .error failure ↔ Refused columns failure := by
  constructor
  · intro failed
    rcases fits_or_refused columns with fits | ⟨failure', refused⟩
    · obtain ⟨m, success⟩ := ofColumns_of_fits fits
      cases success.symm.trans failed
    · cases (ofColumns_of_refused refused).symm.trans failed
      exact refused
  · exact ofColumns_of_refused

/-! ### What the table holds -/

/-- A table holds the cells of a list of columns. -/
structure Holds (m : Matrix) (columns : List (List Cell)) : Prop where
  rows : m.rows = rowsOf columns
  cols : m.cols = columns.length
  cell : ∀ col (inCols : col < columns.length) row (inRows : row < columns[col].length),
    m.get row col = columns[col][row]
  column : ∀ col (inCols : col < columns.length), m.column col = columns[col]
  /-- Transposed, the columns are the rows. -/
  transposed : let v : View := ⟨m, true⟩
    v.rows = columns.length ∧ v.cols = rowsOf columns ∧
      ∀ col (inCols : col < columns.length) row (inRows : row < columns[col].length),
        v.get col row = columns[col][row]
  /-- Both counts are of the cells that are no zero of either sign, so NaN counts. -/
  nonzeros : ∀ col (inCols : col < columns.length),
    m.columnNonzeros col = m.scanNonzeros col ∧
      m.scanNonzeros col = columns[col].countP fun cell => cell.value ≠ 0 ∧ cell.value ≠ -0
  /-- The same table comes of the cells in one list. -/
  flat : ofCells (rowsOf columns) columns.length columns.flatten.toArray = .ok m

theorem columnNonzeros_eq_countP (m : Matrix) (col : ℕ) :
    m.columnNonzeros col = (m.column col).countP fun cell => cell.value ≠ 0 ∧ cell.value ≠ -0 := by
  refine List.countP_congr fun cell _ => ?_
  show (!Cell.isDefault cell) = true ↔ _
  rw [Bool.not_eq_true', Cell.isDefault_eq_false_iff, decide_eq_true_iff]

theorem holds_of_ofColumns (fits : Fits columns) (success : ofColumns columns = .ok m) :
    m.Holds columns := by
  have flat := (ofColumns_of_uniform fits.uniform).symm.trans success
  obtain ⟨rows, cols, cells⟩ := ofCells_eq_ok_iff.mp flat
  have column : ∀ col (inCols : col < columns.length), m.column col = columns[col] :=
    fun col inCols => column_of_flatten cells (rows ▸ fits.uniform) inCols
  have cell : ∀ col (inCols : col < columns.length) row (inRows : row < columns[col].length),
      m.get row col = columns[col][row] := by
    intro col inCols row inRows
    have listed := column_eq_map (cols ▸ inCols)
    have length : row < m.rows := by
      rw [rows, ← fits.uniform _ (List.getElem_mem inCols)]
      exact inRows
    rw [column col inCols] at listed
    simp [listed]
  have nonzeros : ∀ col (inCols : col < columns.length),
      m.columnNonzeros col = m.scanNonzeros col ∧
        m.scanNonzeros col = columns[col].countP fun cell => cell.value ≠ 0 ∧ cell.value ≠ -0 := by
    intro col inCols
    have scan := columnNonzeros_eq (cols ▸ inCols)
    exact ⟨scan, by rw [← scan, columnNonzeros_eq_countP, column col inCols]⟩
  exact ⟨rows, cols, cell, column, ⟨cols, rows, cell⟩, nonzeros, flat⟩

/-- What comes of a list of columns. -/
structure ColumnsOutcome (columns : List (List Cell)) : Prop where
  accepted_iff : (∃ m, ofColumns columns = .ok m) ↔ Fits columns
  refused_iff : ∀ failure, ofColumns columns = .error failure ↔ Refused columns failure
  holds : ∀ m, ofColumns columns = .ok m → m.Holds columns

/-- **A list of columns of equal length is a table**, of no rows and of no columns as well; and no
access in range leaves the storage of any table. -/
theorem ofColumns_outcome (columns : List (List Cell)) :
    ColumnsOutcome columns ∧ ∀ m : Matrix, m.Stored := by
  have holds : ∀ m, ofColumns columns = .ok m → m.Holds columns := by
    intro m success
    exact holds_of_ofColumns (exists_ofColumns_iff.mp ⟨m, success⟩) success
  exact ⟨⟨exists_ofColumns_iff, fun _ => ofColumns_eq_error_iff, holds⟩, stored⟩

/-- Two columns with NaN and the zero of negative sign, read from a table of three rows; and two of
unlike length, of which the second is named. -/
theorem ofColumns_outcome_mixed_cells :
    (∃ m, ofColumns [[0, ⟨0x7ff8000000000001⟩, .ofFloat (-0)], [1, 2, 3]] = .ok m ∧
        m.column 1 = [1, 2, 3] ∧ m.get 2 1 = 3 ∧ m.columnNonzeros 0 = 1) ∧
      ofColumns [[1, 2], [3]] = .error (.invalidArgument (.columnLength 1 1 2)) := by
  constructor
  · have outcome := (ofColumns_outcome [[0, ⟨0x7ff8000000000001⟩, .ofFloat (-0)], [1, 2, 3]]).1
    obtain ⟨m, success⟩ := outcome.accepted_iff.mpr ⟨by simp [rowsOf], by decide, by decide⟩
    have holds := outcome.holds m success
    have counted : m.columnNonzeros 0 = 1 := by
      rw [(holds.nonzeros 0 (by decide)).1, (holds.nonzeros 0 (by decide)).2]
      decide
    exact ⟨m, success, holds.column 1 (by decide), holds.cell 1 (by decide) 2 (by decide), counted⟩
  · have split : ([[1, 2], [3]] : List (List Cell)) = [[1, 2]] ++ [3] :: [] := rfl
    refine ((ofColumns_outcome [[1, 2], [3]]).1.refused_iff _).mpr ?_
    exact .ragged split (by simp [rowsOf]) (by simp [rowsOf])

end Columns

end Matrix

end Columnar
