import Columnar.Bitmap
import Mathlib.Data.List.Basic
import Mathlib.Data.List.Induction
import Mathlib.Data.List.Pairwise

/-!
# Steps through offsets

`Bitmap.steps` pairs each offset of a tuple with the one before it. A list that grows at its end
gets one step more (`steps_concat`), and in an increasing list the offset before one is the last
smaller one (`steps_eq`), so a step leads upwards from one offset to another (`of_mem_steps`).
-/

namespace Columnar.Bitmap

theorem length_steps (offsets : List ℕ) : (steps offsets).length = offsets.length := by
  rw [steps, List.length_zip, List.length_cons, List.length_map]
  omega

theorem zip_concat_some (before : Option ℕ) (offsets : List ℕ) (last : ℕ) :
    (before :: (offsets ++ [last]).map some).zip (offsets ++ [last]) =
      (before :: offsets.map some).zip offsets ++ [(offsets.getLast?.or before, last)] := by
  induction offsets generalizing before with
  | nil => rfl
  | cons first rest ih =>
    have latest : (first :: rest).getLast?.or before = rest.getLast?.or (some first) := by
      rw [List.getLast?_cons]
      cases rest.getLast? <;> rfl
    rw [latest]
    exact congrArg ((before, first) :: ·) (ih (some first))

theorem steps_concat (offsets : List ℕ) (last : ℕ) :
    steps (offsets ++ [last]) = steps offsets ++ [(offsets.getLast?, last)] := by
  rw [steps, zip_concat_some, Option.or_none]
  rfl

/-- In an increasing list, the last offset is the largest. -/
theorem le_of_getLast? {offsets : List ℕ} (increasing : offsets.Pairwise (· < ·)) {p last : ℕ}
    (latest : offsets.getLast? = some last) (mem : p ∈ offsets) : p ≤ last := by
  rw [List.getLast?_eq_some_getLast (List.ne_nil_of_mem mem)] at latest
  rw [← Option.some.inj latest]
  exact (increasing.imp Nat.le_of_lt).rel_getLast mem

/-- In an increasing list, the offset before one is the last smaller one. -/
theorem steps_eq {offsets : List ℕ} (increasing : offsets.Pairwise (· < ·)) :
    steps offsets = offsets.map fun p => ((offsets.filter (· < p)).getLast?, p) := by
  induction offsets using List.reverseRecOn with
  | nil => rfl
  | append_singleton offsets last ih =>
    obtain ⟨front, -, above⟩ := List.pairwise_append.mp increasing
    have below : ∀ p ∈ offsets, p < last := fun p mem => above p mem last List.mem_cons_self
    have before : ∀ p ∈ offsets, ((offsets ++ [last]).filter (· < p)).getLast? =
        (offsets.filter (· < p)).getLast? := by
      intro p mem
      have later : ¬ last < p := Nat.lt_asymm (below p mem)
      rw [List.filter_append, List.filter_singleton]
      simp [later]
    have front_eq : (offsets ++ [last]).filter (· < last) = offsets := by
      rw [List.filter_append, List.filter_eq_self.mpr fun p mem => decide_eq_true (below p mem)]
      simp
    rw [steps_concat, List.map_append, List.map_singleton, front_eq, ih front]
    exact congrArg (· ++ _) (List.map_congr_left fun p mem => by rw [before p mem])

theorem snd_mem_of_mem_steps {offsets : List ℕ} {step : Option ℕ × ℕ} (mem : step ∈ steps offsets) :
    step.2 ∈ offsets := (List.of_mem_zip mem).2

/-- No offset is in front of the first one. -/
theorem le_of_before_eq_none {offsets : List ℕ} {p : ℕ}
    (before : (offsets.filter (· < p)).getLast? = none) : ∀ q ∈ offsets, p ≤ q := by
  simpa using List.filter_eq_nil_iff.mp (List.getLast?_eq_none_iff.mp before)

/-- The offset before another one is the largest of those that are smaller. -/
theorem of_before_eq_some {offsets : List ℕ} (increasing : offsets.Pairwise (· < ·)) {p q : ℕ}
    (before : (offsets.filter (· < p)).getLast? = some q) :
    q ∈ offsets ∧ q < p ∧ ∀ r ∈ offsets, r < p → r ≤ q := by
  obtain ⟨listed, smaller⟩ := List.mem_filter.mp (List.mem_of_getLast? before)
  refine ⟨listed, of_decide_eq_true smaller, fun r mem below => ?_⟩
  exact le_of_getLast? (increasing.filter _) before
    (List.mem_filter.mpr ⟨mem, decide_eq_true below⟩)

/-- A step leads from an offset to a larger one. -/
theorem of_mem_steps {offsets : List ℕ} (increasing : offsets.Pairwise (· < ·)) {before p : ℕ}
    (mem : (some before, p) ∈ steps offsets) : before ∈ offsets ∧ before < p := by
  rw [steps_eq increasing, List.mem_map] at mem
  obtain ⟨_, -, step⟩ := mem
  simp only [Prod.mk.injEq] at step
  obtain ⟨latest, rfl⟩ := step
  obtain ⟨listed, smaller, -⟩ := of_before_eq_some increasing latest
  exact ⟨listed, smaller⟩

end Columnar.Bitmap
