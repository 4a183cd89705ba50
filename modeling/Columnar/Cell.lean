/-!
# Cells

A cell is kept as the bits of a float, so that the sign and the payload of a NaN stay what they
are; the number that it holds is `Cell.value`. Both zeros are the default cell, which is never
listed. Cells are told apart by their key: equal cells have equal keys, both zeros share one, and
so do all NaNs, so that NaN is an ordinary value of a column and not the default.
-/

namespace Columnar

/-- A cell of a table: the bits of a float. -/
structure Cell where
  bits : UInt64
deriving DecidableEq, Repr, Inhabited

namespace Cell

/-- The cell that holds a number. -/
def ofFloat (number : Float) : Cell := ⟨number.toBits⟩

instance {n : Nat} : OfNat Cell n := ⟨.ofFloat (OfNat.ofNat n)⟩

/-- The number that a cell holds. A float has a single NaN, so cells may differ where their
numbers do not. -/
def value (cell : Cell) : Float := .ofBits cell.bits

/-- Whether a cell holds the default value, zero of either sign. -/
def isDefault (cell : Cell) : Bool := cell.value == 0

/-- What cells are told apart by: the bits of their number, with both zeros alike. -/
def key (cell : Cell) : UInt64 := if cell.isDefault then 0 else cell.value.toBits

end Cell

end Columnar
