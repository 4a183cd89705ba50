import Columnar.Cell
import Columnar.Error

/-!
# Tables

A `Matrix` holds a numeric table column by column. Its dimensions fit 32 bits and its cells fill
it exactly, so every row and column in range has a cell. A `View` fixes the orientation in which
a table is read: transposed, the rows of the table are the columns of the view.
-/

namespace Columnar

/-- A table of cells, stored column after column. -/
structure Matrix where
  rows : Nat
  cols : Nat
  cells : Array Cell
  size_cells : cells.size = rows * cols
  rows_le : rows ≤ maxCount
  cols_le : cols ≤ maxCount

namespace Matrix

/-- A table of the given dimensions over its cells in column order. -/
def ofCells (rows cols : Nat) (cells : Array Cell) : Except PlanError Matrix :=
  if dims : rows ≤ maxCount ∧ cols ≤ maxCount then
    if size : cells.size = rows * cols then
      .ok ⟨rows, cols, cells, size, dims.1, dims.2⟩
    else .error (.invalidArgument (.cellCount rows cols cells.size))
  else .error (.invalidArgument (.dimensions rows cols))

/-- The rows of a table with the given columns: the length of the first. -/
def rowsOf (columns : List (List Cell)) : Nat :=
  match columns with
  | [] => 0
  | first :: _ => first.length

/-- A table from its columns. The first column of another length than the first one is named. -/
def ofColumns (columns : List (List Cell)) : Except PlanError Matrix :=
  let rows := rowsOf columns
  match columns.zipIdx.find? fun (column, _) => column.length != rows with
  | some (column, i) => .error (.invalidArgument (.columnLength i column.length rows))
  | none => ofCells rows columns.length columns.flatten.toArray

def zeros (rows cols : Nat) : Except PlanError Matrix :=
  ofCells rows cols (Array.replicate (rows * cols) 0)

/-- The cell at a row and a column in range. -/
def get (m : Matrix) (row col : Nat) : Cell := m.cells.getD (col * m.rows + row) 0

/-- The cells of a column, from its stretch of the storage. -/
def column (m : Matrix) (col : Nat) : List Cell :=
  (m.cells.extract (col * m.rows) ((col + 1) * m.rows)).toList

/-- The number of cells in a column that are not zero, counted over its stretch of the storage. -/
def columnNonzeros (m : Matrix) (col : Nat) : Nat := (m.column col).countP (! ·.isDefault)

/-- The number of cells in a column that are not zero, counted cell by cell. -/
def scanNonzeros (m : Matrix) (col : Nat) : Nat :=
  (List.range m.rows).countP fun row => !(m.get row col).isDefault

/-- Equal dimensions and equal cells as numbers: both zeros agree, and NaN differs from itself. -/
instance : BEq Matrix where
  beq a b :=
    a.rows == b.rows && a.cols == b.cols && a.cells.map Cell.value == b.cells.map Cell.value

end Matrix

/-- A table read in one orientation. -/
structure View where
  matrix : Matrix
  transposed : Bool

namespace View

def rows (v : View) : Nat := if v.transposed then v.matrix.cols else v.matrix.rows

def cols (v : View) : Nat := if v.transposed then v.matrix.rows else v.matrix.cols

def get (v : View) (row col : Nat) : Cell :=
  if v.transposed then v.matrix.get col row else v.matrix.get row col

theorem rows_le (v : View) : v.rows ≤ maxCount := by
  unfold rows
  split
  · exact v.matrix.cols_le
  · exact v.matrix.rows_le

theorem cols_le (v : View) : v.cols ≤ maxCount := by
  unfold cols
  split
  · exact v.matrix.rows_le
  · exact v.matrix.cols_le

/-- The cells of a row in the given columns. -/
def tuple (v : View) (columns : List Nat) (row : Nat) : List Cell := columns.map (v.get row)

def describe (v : View) : String :=
  s!"TableView \x7b rows: {v.rows}, cols: {v.cols}, transposed: {v.transposed} \x7d"

end View

end Columnar
