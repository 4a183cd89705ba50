import Columnar.Matrix

/-!
# Tables from their cells

`Matrix.tabulate` stores the table that has a given cell at every row and column, and reads it
back there (`Matrix.get_tabulate`). Tables that come from other tables cell by cell are made so, and
tables of one column (`View.ofColumn`).
-/

namespace Columnar

namespace Matrix

variable {rows cols : Nat}

/-- The table with the given cells. -/
def tabulate (rows_le : rows ≤ maxCount) (cols_le : cols ≤ maxCount) (cell : Nat → Nat → Cell) :
    Matrix where
  rows := rows
  cols := cols
  cells := Array.ofFn fun place : Fin (rows * cols) => cell (place % rows) (place / rows)
  size_cells := Array.size_ofFn
  rows_le := rows_le
  cols_le := cols_le

theorem place_lt {row col : Nat} (inRows : row < rows) (inCols : col < cols) :
    col * rows + row < rows * cols := by
  calc col * rows + row < col * rows + rows := Nat.add_lt_add_left inRows _
    _ = (col + 1) * rows := (Nat.succ_mul ..).symm
    _ ≤ cols * rows := Nat.mul_le_mul_right _ inCols
    _ = rows * cols := Nat.mul_comm ..

theorem place_mod {row : Nat} (inRows : row < rows) (col : Nat) :
    (col * rows + row) % rows = row := by
  rw [Nat.mul_add_mod_self_right, Nat.mod_eq_of_lt inRows]

theorem place_div {row : Nat} (inRows : row < rows) (col : Nat) :
    (col * rows + row) / rows = col := by
  rw [Nat.mul_comm, Nat.mul_add_div (Nat.zero_lt_of_lt inRows), Nat.div_eq_of_lt inRows]
  rfl

theorem get_tabulate {rows_le : rows ≤ maxCount} {cols_le : cols ≤ maxCount}
    (cell : Nat → Nat → Cell) {row col : Nat} (inRows : row < rows) (inCols : col < cols) :
    (tabulate rows_le cols_le cell).get row col = cell row col := by
  have inside := place_lt inRows inCols
  simp [get, tabulate, inside, place_mod inRows, place_div inRows]

end Matrix

namespace View

variable {rows row : Nat} {rows_le : rows ≤ maxCount} {cell : Nat → Cell}

/-- The table of one column with the given cells. -/
def ofColumn (rows_le : rows ≤ maxCount) (cell : Nat → Cell) : View :=
  ⟨.tabulate rows_le (show 1 ≤ maxCount by decide) fun row _ => cell row, false⟩

@[simp] theorem rows_ofColumn : (ofColumn rows_le cell).rows = rows := rfl

@[simp] theorem cols_ofColumn : (ofColumn rows_le cell).cols = 1 := rfl

theorem tuple_ofColumn (inRows : row < rows) :
    (ofColumn rows_le cell).tuple [0] row = [cell row] :=
  congrArg (· :: []) (Matrix.get_tabulate (fun row _ => cell row) inRows Nat.one_pos)

end View

end Columnar
