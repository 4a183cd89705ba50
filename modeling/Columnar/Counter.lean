import Columnar.Error

/-!
# Checked arithmetic

A counter goes up to a largest value: `maxCount` in 32 bits, `maxSize` in 64. A sum or a
difference that the counter cannot hold is no number at all, and whatever needs it stops with
`PlanError.overflow`. Sums that are not said to stop at a bound go through `plus`, and a loop that
adds up through `addUp`.
-/

namespace Columnar

variable {most a b : Nat}

/-- The sum of two counters. -/
def plus (most a b : Nat) : Except PlanError Nat :=
  if a + b ≤ most then .ok (a + b) else .error .overflow

/-- What is left of a counter when an amount is taken out. -/
def minus (a b : Nat) : Except PlanError Nat :=
  if b ≤ a then .ok (a - b) else .error .overflow

/-- Counts added up one after the other. -/
def addUp (most : Nat) (counts : List Nat) : Except PlanError Nat := counts.foldlM (plus most) 0

theorem plus_of_le (fits : a + b ≤ most) : plus most a b = .ok (a + b) := if_pos fits

theorem plus_of_lt (exceeds : most < a + b) : plus most a b = .error .overflow :=
  if_neg (Nat.not_le_of_lt exceeds)

theorem minus_of_le (holds : b ≤ a) : minus a b = .ok (a - b) := if_pos holds

/-- Counts can be added up exactly if their sum fits: the sums on the way are smaller. -/
theorem addUp_eq (most : Nat) (counts : List Nat) :
    addUp most counts = if total counts ≤ most then .ok (total counts) else .error .overflow := by
  suffices walk : ∀ sum, sum ≤ most → counts.foldlM (plus most) sum =
      if sum + total counts ≤ most then .ok (sum + total counts) else .error .overflow by
    simpa only [addUp, Nat.zero_add] using walk 0 (Nat.zero_le most)
  induction counts with
  | nil =>
    intro sum fits
    simp [fits, pure, Except.pure]
  | cons count rest ih =>
    intro sum _
    rw [List.foldlM_cons, total_cons, ← Nat.add_assoc]
    by_cases fits : sum + count ≤ most
    · rw [plus_of_le fits]
      exact ih _ fits
    · rw [plus_of_lt (Nat.lt_of_not_le fits), if_neg (by omega)]
      rfl

theorem addUp_of_le {counts : List Nat} (fits : total counts ≤ most) :
    addUp most counts = .ok (total counts) := by
  rw [addUp_eq, if_pos fits]

theorem addUp_of_lt {counts : List Nat} (exceeds : most < total counts) :
    addUp most counts = .error .overflow := by
  rw [addUp_eq, if_neg (Nat.not_le_of_lt exceeds)]

end Columnar
