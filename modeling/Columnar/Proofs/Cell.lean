import Columnar.Cell
import Mathlib

/-!
# Cells that hold the same value

Cells hold the same value if they are equal as numbers or no number both (`Cell.Same`), whatever
their bits. Two cells have one key exactly then (`Cell.key_eq_key_iff`), so a key may stand for the
value of a cell; and so may the cell itself, once both zeros are written alike and all NaNs are
(`Cell.normal_eq_normal_iff`).
-/

namespace Columnar.Cell

/-- Cells that hold the same value: equal as numbers, or no number both. -/
def Same (a b : Cell) : Prop :=
  (a.value == b.value) = true ∨ (a.value.isNaN = true ∧ b.value.isNaN = true)

instance (a b : Cell) : Decidable (Same a b) :=
  inferInstanceAs (Decidable
    ((a.value == b.value) = true ∨ (a.value.isNaN = true ∧ b.value.isNaN = true)))

variable {cell a b : Cell}

@[simp] theorem value_ofFloat (number : Float) : (ofFloat number).value = number :=
  Float.ofBits_toBits number

/-- The two floats that are zero. -/
theorem beq_zero_iff {x : Float} : (x == 0) = true ↔ x = 0 ∨ x = -0 := by
  rw [Float.beq_iff_ne_nan_and_eq]
  constructor
  · rintro ⟨-, -, zero | ⟨zero, -⟩ | ⟨zero, -⟩⟩
    · exact Or.inl zero
    · exact Or.inl zero
    · exact Or.inr zero
  · rintro (rfl | rfl)
    · exact ⟨by decide, by decide, Or.inl rfl⟩
    · exact ⟨by decide, by decide, Or.inr (Or.inr ⟨rfl, rfl⟩)⟩

theorem isDefault_iff : isDefault cell = true ↔ cell.value = 0 ∨ cell.value = -0 := beq_zero_iff

theorem isDefault_eq_false_iff : isDefault cell = false ↔ cell.value ≠ 0 ∧ cell.value ≠ -0 := by
  rw [← not_or, ← isDefault_iff, Bool.not_eq_true]

theorem key_of_isDefault (h : isDefault cell = true) : key cell = 0 := if_pos h

theorem key_of_not_isDefault (h : isDefault cell = false) : key cell = cell.value.toBits :=
  if_neg (Bool.eq_false_iff.mp h)

theorem key_eq_zero_iff : key cell = 0 ↔ isDefault cell = true := by
  refine ⟨fun none => ?_, key_of_isDefault⟩
  by_contra h
  have h := Bool.not_eq_true _ ▸ h
  rw [key_of_not_isDefault h] at none
  have zero : cell.value = 0 := Float.toBits_inj.mp (none.trans (by decide))
  exact Bool.false_ne_true (h.symm.trans (isDefault_iff.mpr (Or.inl zero)))

theorem key_ne_zero (h : isDefault cell = false) : key cell ≠ 0 :=
  fun none => Bool.false_ne_true (h.symm.trans (key_eq_zero_iff.mp none))

/-- The zeros of both signs hold one value, and nothing else holds it. -/
theorem same_iff_of_isDefault (ha : isDefault a = true) : Same a b ↔ isDefault b = true := by
  have zero := isDefault_iff.mp ha
  unfold Same
  rw [Float.beq_iff_ne_nan_and_eq, isDefault_iff]
  constructor
  · rintro (⟨-, -, same | ⟨-, hb⟩ | ⟨-, hb⟩⟩ | ⟨na, -⟩)
    · exact same ▸ zero
    · exact Or.inr hb
    · exact Or.inl hb
    · rcases zero with zero | zero <;> rw [zero] at na <;> cases na
  · intro zero'
    left
    rcases zero with zero | zero <;> rcases zero' with zero' | zero' <;> rw [zero, zero'] <;> decide

/-- Any other value is a single float, NaN included. -/
theorem same_iff_of_not_isDefault (ha : isDefault a = false) : Same a b ↔ a.value = b.value := by
  have nonzero : ¬ (a.value = 0 ∨ a.value = -0) := not_or.mpr (isDefault_eq_false_iff.mp ha)
  unfold Same
  rw [Float.beq_iff_ne_nan_and_eq, Float.isNaN_eq_decide_eq_nan, Float.isNaN_eq_decide_eq_nan]
  simp only [decide_eq_true_iff]
  constructor
  · rintro (⟨-, -, same | ⟨zero, -⟩ | ⟨zero, -⟩⟩ | ⟨na, nb⟩)
    · exact same
    · exact absurd (Or.inl zero) nonzero
    · exact absurd (Or.inr zero) nonzero
    · exact na.trans nb.symm
  · intro same
    rw [← same]
    by_cases na : a.value = Float.nan
    · exact Or.inr ⟨na, na⟩
    · exact Or.inl ⟨na, na, Or.inl rfl⟩

/-- **Keys tell cells apart by value**: both zeros have one key, and so do all NaNs. -/
theorem key_eq_key_iff : key a = key b ↔ Same a b := by
  cases ha : isDefault a with
  | true =>
    rw [same_iff_of_isDefault ha, key_of_isDefault ha]
    constructor
    · intro zero
      cases hb : isDefault b with
      | true => rfl
      | false => exact absurd zero.symm (key_ne_zero hb)
    · exact fun hb => (key_of_isDefault hb).symm
  | false =>
    rw [same_iff_of_not_isDefault ha]
    constructor
    · intro equal
      cases hb : isDefault b with
      | true => exact absurd (equal.trans (key_of_isDefault hb)) (key_ne_zero ha)
      | false =>
        rw [key_of_not_isDefault ha, key_of_not_isDefault hb] at equal
        exact Float.toBits_inj.mp equal
    · intro same
      rw [key, key, isDefault, isDefault, same]

/-- A cell with the zeros of both signs written alike, and all NaNs. -/
def normal (cell : Cell) : Cell := ⟨cell.key⟩

/-- Cells that hold the same value are written alike. -/
theorem normal_eq_normal_iff : normal a = normal b ↔ Same a b := by
  rw [normal, normal, mk.injEq, key_eq_key_iff]

theorem normal_eq_zero_iff : normal cell = 0 ↔ isDefault cell = true := by
  have zero : (0 : Cell) = ⟨0⟩ := by decide
  rw [normal, zero, mk.injEq, key_eq_zero_iff]

end Columnar.Cell
