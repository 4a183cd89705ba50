import Columnar.Footprint
import Mathlib

/-!
# Sizes of encoded groups

`exactDict` and `exactLists` are the sizes of encoded groups in numbers without a bound, `⊤` for a
dictionary that cannot tell its tuples apart. The sums that stop at `maxSize` hold such a size, cut
once at `maxSize` (`dictSize_eq`, `listsSize_eq`), as long as the padding of every array fits. That
of column ids, codes, pointers and runs always does. Only the numbers of offset lists can leave too
little room for it, and then there is no size (`listsSize_of_long`).
-/

namespace Columnar

/-- Factors whose occurrences fit 64 bits and whose other counts fit 32. -/
structure Factors.Fits (f : Factors) : Prop where
  vals : f.vals ≤ maxCount
  offs : f.offs ≤ maxSize
  segs : f.segs ≤ maxCount
  runs : f.runs ≤ maxCount
  singles : f.singles ≤ maxCount
  rows : f.rows ≤ maxCount
  cols : f.cols ≤ maxCount
  groupCols : f.groupCols ≤ maxCount

namespace Footprint

variable {length elemBytes groupCols vals numbers : ℕ} {f : Factors}

/-! ### Exact sizes -/

/-- An array, whose elements fill up its header and then whole words. -/
def exactArray (length elemBytes : ℕ) : ℕ := 32 + (length * elemBytes + 3) / 8 * 8

def exactOverhead (groupCols : ℕ) : ℕ := 24 + exactArray groupCols 4

def exactValues (groupCols vals : ℕ) : ℕ := exactOverhead groupCols + 32 + 8 * (vals * groupCols)

def exactDict (most codeBytes : ℕ) (f : Factors) : ℕ∞ :=
  if most < f.vals then ⊤
  else ((exactValues f.groupCols f.vals + exactArray f.rows codeBytes : ℕ) : ℕ∞)

def exactLists (numbers : ℕ) (f : Factors) : ℕ :=
  exactValues f.groupCols f.vals + exactArray (f.vals + 1) 4 + exactArray numbers 2

/-- A size without a bound, cut at `maxSize`. -/
noncomputable def cut (size : ℕ∞) : ℕ := (min size maxSize).toNat

theorem coe_cut (size : ℕ∞) : (cut size : ℕ∞) = min size maxSize :=
  ENat.natCast_toNat (ne_top_of_le_ne_top (ENat.natCast_ne_top maxSize) (min_le_right _ _))

@[simp] theorem cut_top : cut ⊤ = maxSize := by
  rw [cut, min_eq_right le_top, ENat.toNat_natCast]

@[simp] theorem cut_coe (bytes : ℕ) : cut bytes = min bytes maxSize := by
  rw [cut, ← ENat.toNat_natCast (min bytes maxSize)]
  exact congrArg ENat.toNat (Nat.mono_cast.map_min).symm

theorem cut_le (size : ℕ∞) : cut size ≤ maxSize := by
  have le : (cut size : ℕ∞) ≤ maxSize := (coe_cut size).trans_le (min_le_right _ _)
  exact_mod_cast le

theorem cut_le_cut {size size' : ℕ∞} (le : size ≤ size') : cut size ≤ cut size' := by
  have cuts : (cut size : ℕ∞) ≤ cut size' := by
    rw [coe_cut, coe_cut]
    exact min_le_min_right _ le
  exact_mod_cast cuts

/-! ### Arrays -/

/-- A column id takes four bytes. -/
theorem columnIds_fit {columns : ℕ} (countable : columns ≤ maxCount) : columns * 4 + 3 ≤ maxSize :=
  (Nat.add_le_add_right (Nat.mul_le_mul_right 4 countable) 3).trans (by decide)

theorem codes_fit (fits : f.Fits) {codeBytes : ℕ} (code : codeBytes ≤ 2) :
    f.rows * codeBytes + 3 ≤ maxSize :=
  (Nat.add_le_add_right (Nat.mul_le_mul fits.rows code) 3).trans (by decide)

theorem pointers_fit (fits : f.Fits) : (f.vals + 1) * 4 + 3 ≤ maxSize :=
  (Nat.add_le_add_right (Nat.mul_le_mul_right 4 (Nat.succ_le_succ fits.vals)) 3).trans (by decide)

theorem runNumbers_fit (fits : f.Fits) : 2 * f.runs * 2 + 3 ≤ maxSize :=
  (Nat.add_le_add_right (Nat.mul_le_mul_right 2 (Nat.mul_le_mul_left 2 fits.runs)) 3).trans
    (by decide)

/-- An array whose payload leaves room for the padding. -/
theorem arrayCost_eq (room : length * elemBytes + 3 ≤ maxSize) :
    arrayCost length elemBytes = .ok (min (exactArray length elemBytes) maxSize) := by
  have payload : satMul length elemBytes = length * elemBytes := Nat.min_eq_left (by omega)
  simp only [arrayCost, payload]
  split
  · have header : min (exactArray length elemBytes) maxSize = arrayHeader + 4 := by
      simp only [exactArray, arrayHeader, maxSize]
      omega
    rw [header]
    rfl
  · have pads : length * elemBytes - 4 + (8 - (length * elemBytes - 4) % 8) % 8 ≤ maxSize := by
      simp only [maxSize] at *
      omega
    have sum : satAdd (satAdd arrayHeader 4)
        (length * elemBytes - 4 + (8 - (length * elemBytes - 4) % 8) % 8) =
          min (exactArray length elemBytes) maxSize := by
      simp only [satAdd, exactArray, arrayHeader, maxSize]
      omega
    rw [padTo8, plus_of_le pads, ← sum]
    rfl

/-- Two bytes for each of too many numbers leave no room for the padding. -/
theorem arrayCost_of_long (long : maxSize < numbers * 2 + 3) :
    arrayCost (min numbers maxSize) 2 = .error .overflow := by
  have payload : maxSize - 1 ≤ satMul (min numbers maxSize) 2 := by
    simp only [satMul, maxSize] at *
    omega
  have most := satMul_le (min numbers maxSize) 2
  have many : ¬ satMul (min numbers maxSize) 2 ≤ 4 := by
    simp only [maxSize] at *
    omega
  simp only [arrayCost, if_neg many]
  generalize satMul (min numbers maxSize) 2 = bytes at *
  have pads : maxSize < bytes - 4 + (8 - (bytes - 4) % 8) % 8 := by
    simp only [maxSize] at *
    omega
  rw [padTo8, plus_of_lt pads]
  rfl

/-! ### Headers and dictionaries -/

theorem exactOverhead_lt (countable : groupCols ≤ maxCount) : exactOverhead groupCols < 2 ^ 35 := by
  simp only [exactOverhead, exactArray, maxCount] at *
  omega

theorem groupOverhead_eq (countable : groupCols ≤ maxCount) :
    groupOverhead groupCols = .ok (exactOverhead groupCols) := by
  have small := exactOverhead_lt countable
  have array : min (exactArray groupCols 4) maxSize = exactArray groupCols 4 := by
    simp only [exactOverhead, maxSize] at *
    omega
  rw [groupOverhead, arrayCost_eq (columnIds_fit countable), array]
  exact plus_of_le (small.le.trans (by decide))

theorem valueCost_eq (countable : groupCols ≤ maxCount) (vals : ℕ) :
    valueCost groupCols vals = .ok (min (exactValues groupCols vals) maxSize) := by
  have sum : satAdd (exactOverhead groupCols) (floatArrayCost (vals * groupCols)) =
      min (exactValues groupCols vals) maxSize := by
    simp only [exactValues, satAdd, floatArrayCost, satMul, arrayHeader]
    omega
  rw [valueCost, groupOverhead_eq countable, ← sum]
  rfl

/-- **A dictionary has its exact size**, cut at `maxSize`. -/
theorem dictSize_eq (fits : f.Fits) {most codeBytes : ℕ} (code : codeBytes ≤ 2) :
    dictSize most codeBytes f = .ok (cut (exactDict most codeBytes f)) := by
  unfold dictSize exactDict
  by_cases beyond : most < f.vals
  · rw [if_pos beyond, if_pos beyond, cut_top]
    rfl
  · have sum : satAdd (min (exactValues f.groupCols f.vals) maxSize)
        (min (exactArray f.rows codeBytes) maxSize) =
          min (exactValues f.groupCols f.vals + exactArray f.rows codeBytes) maxSize := by
      simp only [satAdd]
      omega
    rw [if_neg beyond, if_neg beyond, cut_coe, ← sum, valueCost_eq fits.groupCols,
      arrayCost_eq (codes_fit fits code)]
    rfl

/-- **Lists of numbers have their exact size**, cut at `maxSize`, if they leave room for the
padding. -/
theorem listsSize_eq (fits : f.Fits) (room : numbers * 2 + 3 ≤ maxSize) :
    listsSize numbers f = .ok (cut (exactLists numbers f)) := by
  have sum : satAdd (satAdd (min (exactValues f.groupCols f.vals) maxSize)
      (min (exactArray (f.vals + 1) 4) maxSize)) (min (exactArray numbers 2) maxSize) =
        min (exactLists numbers f) maxSize := by
    simp only [satAdd, exactLists]
    omega
  rw [cut_coe, ← sum, listsSize, valueCost_eq fits.groupCols, arrayCost_eq (pointers_fit fits),
    arrayCost_eq room]
  rfl

/-- Lists that leave too little room have no size. -/
theorem listsSize_of_long (fits : f.Fits) (long : maxSize < numbers * 2 + 3) :
    listsSize (min numbers maxSize) f = .error .overflow := by
  rw [listsSize, valueCost_eq fits.groupCols, arrayCost_eq (pointers_fit fits),
    arrayCost_of_long long]
  rfl

end Footprint

end Columnar
