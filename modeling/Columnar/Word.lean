/-!
# Counts and sizes

Row ids and tuple counts fit 32 bits, sizes in bytes and occurrence totals fit 64. Both are
natural numbers here. Where a rule of this library holds a number to its width it says how:
`satAdd` and `satMul` stop at the largest size, `capCount` stops at the largest count, and `low32`
keeps the low bits. Every other sum is checked, see `Columnar.Counter`.
-/

namespace Columnar

/-- The largest 32-bit count. -/
def maxCount : Nat := 4294967295

/-- The largest size. As the size of an encoding it means that the encoding is infeasible. -/
def maxSize : Nat := 18446744073709551615

/-- A sum of sizes that stops at `maxSize`. -/
def satAdd (a b : Nat) : Nat := min (a + b) maxSize

/-- A product of sizes that stops at `maxSize`. -/
def satMul (a b : Nat) : Nat := min (a * b) maxSize

/-- The low 32 bits of a number. -/
def low32 (n : Nat) : Nat := n % (maxCount + 1)

/-- The bits of a number above the low 32. -/
def high32 (n : Nat) : Nat := n / (maxCount + 1)

/-- A count that stops at `maxCount`. -/
def capCount (n : Nat) : Nat := min n maxCount

/-- The sum of a list of counts. -/
def total (counts : List Nat) : Nat := counts.foldr (· + ·) 0

/-- A number below `2 ^ 64` as the nearest float, ties to the even neighbour. -/
def asFloat (n : Nat) : Float := n.toUInt64.toFloat

/-! ### Bounds -/

theorem satMul_le (a b : Nat) : satMul a b ≤ maxSize := Nat.min_le_right ..

theorem low32_of_le {n : Nat} (h : n ≤ maxCount) : low32 n = n :=
  Nat.mod_eq_of_lt (Nat.lt_succ_of_le h)

/-- Stopping early does not show in a sum that stops later. -/
@[simp] theorem satAdd_min_maxSize (a b : Nat) :
    satAdd (min a maxSize) b = min (a + b) maxSize := by
  unfold satAdd
  omega

/-! ### Totals -/

@[simp] theorem total_nil : total [] = 0 := rfl

@[simp] theorem total_cons (n : Nat) (counts : List Nat) :
    total (n :: counts) = n + total counts := rfl

@[simp] theorem total_append (xs ys : List Nat) : total (xs ++ ys) = total xs + total ys := by
  induction xs with
  | nil => simp
  | cons x xs ih => simp [ih, Nat.add_assoc]

end Columnar
