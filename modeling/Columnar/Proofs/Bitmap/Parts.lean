import Columnar.Bitmap
import Mathlib.Data.List.Basic
import Mathlib.Data.List.Pairwise

/-!
# Bitmaps from parts

`Bitmap.ofParts` accepts exactly the parts of well-formed bitmaps: a well-formed bitmap taken
apart is put together again (`ofParts_of_wellFormed`), and what `ofParts` accepts is well-formed
(`wellFormed_of_ofParts`). The tuples that a count numbers are well-formed as well.
-/

namespace Columnar.Bitmap

/-- The values of all tuples in a row. -/
def flatValues (b : Bitmap) : List Cell := b.tuples.flatMap (·.values)

def offsetLists (b : Bitmap) : List (List Nat) := b.tuples.map (·.offsets)

section Checks

variable {offsets : List Nat} {tuple : Nat}

theorem isIncreasing_iff : isIncreasing offsets = true ↔ offsets.Pairwise (· < ·) := by
  rw [← List.isChain_iff_pairwise]
  induction offsets with
  | nil => simp [isIncreasing]
  | cons a rest ih =>
    cases rest with
    | nil => simp [isIncreasing]
    | cons b rest =>
      rw [isIncreasing, Bool.and_eq_true, ih, decide_eq_true_iff, List.isChain_cons_cons]

theorem offsetFault?_eq_none_iff :
    offsetFault? tuple offsets = none ↔ offsets ≠ [] ∧ offsets.Pairwise (· < ·) := by
  unfold offsetFault?
  rw [← isIncreasing_iff]
  cases offsets with
  | nil => simp
  | cons a rest => cases isIncreasing (a :: rest) <;> simp

end Checks

section Cutting

variable {width : Nat} {tuples : List TupleOffsets}

theorem length_flatMap_values (widths : ∀ t ∈ tuples, t.values.length = width) :
    (tuples.flatMap (·.values)).length = width * tuples.length := by
  induction tuples with
  | nil => rfl
  | cons t rest ih =>
    rw [List.flatMap_cons, List.length_append, widths t List.mem_cons_self,
      ih fun t ht => widths t (List.mem_cons_of_mem _ ht), List.length_cons,
      Nat.mul_succ, Nat.add_comm]

theorem cutTuples_flatMap (widths : ∀ t ∈ tuples, t.values.length = width) :
    cutTuples width (tuples.flatMap (·.values)) (tuples.map (·.offsets)) = tuples := by
  induction tuples with
  | nil => rfl
  | cons t rest ih =>
    have fits := widths t List.mem_cons_self
    rw [List.flatMap_cons, List.map_cons, cutTuples, ← fits, List.take_left, List.drop_left, fits,
      ih fun t ht => widths t (List.mem_cons_of_mem _ ht)]

@[simp] theorem map_offsets_cutTuples (width : Nat) (values : List Cell)
    (offsets : List (List Nat)) : (cutTuples width values offsets).map (·.offsets) = offsets := by
  induction offsets generalizing values with
  | nil => rfl
  | cons list rest ih => rw [cutTuples, List.map_cons, ih]

theorem flatMap_values_cutTuples {values : List Cell} {offsets : List (List Nat)}
    (count : values.length = width * offsets.length) :
    (cutTuples width values offsets).flatMap (·.values) = values := by
  induction offsets generalizing values with
  | nil => exact (List.eq_nil_of_length_eq_zero count).symm
  | cons list rest ih =>
    rw [List.length_cons, Nat.mul_succ] at count
    rw [cutTuples, List.flatMap_cons, ih (by rw [List.length_drop]; omega), List.take_append_drop]

theorem length_values_of_mem_cutTuples {values : List Cell} {offsets : List (List Nat)}
    (count : values.length = width * offsets.length) {t : TupleOffsets}
    (mem : t ∈ cutTuples width values offsets) : t.values.length = width := by
  induction offsets generalizing values with
  | nil => cases mem
  | cons list rest ih =>
    rw [List.length_cons, Nat.mul_succ] at count
    rw [cutTuples] at mem
    rcases List.mem_cons.mp mem with rfl | later
    · rw [List.length_take]
      omega
    · exact ih (by rw [List.length_drop]; omega) later

end Cutting

section Numbered

variable {b : Bitmap}

theorem mem_of_mem_numbered {t : TupleOffsets} (mem : t ∈ b.numbered.tuples) : t ∈ b.tuples :=
  List.mem_of_mem_take mem

theorem length_numbered (b : Bitmap) : b.numbered.tuples.length = b.count := by
  rw [numbered, List.length_take]
  exact Nat.min_eq_left (Nat.mod_le ..)

theorem length_numbered_le (b : Bitmap) : b.numbered.tuples.length ≤ maxCount := by
  rw [length_numbered]
  exact Nat.le_of_lt_succ (Nat.mod_lt _ (Nat.succ_pos maxCount))

/-- The numbered tuples list no more rows than all of them. -/
theorem occurrences_numbered_le (b : Bitmap) : b.numbered.occurrences ≤ b.occurrences := by
  have split : b.occurrences = b.numbered.occurrences +
      total ((b.tuples.drop b.count).map (·.offsets.length)) := by
    rw [occurrences, occurrences, numbered, ← total_append, ← List.map_append,
      List.take_append_drop]
  exact Nat.le.intro split.symm

/-- All offsets are positions below `size`. -/
def IsWithin (b : Bitmap) (size : Nat) : Prop := ∀ t ∈ b.tuples, ∀ p ∈ t.offsets, p < size

theorem IsWithin.numbered {size : Nat} (within : b.IsWithin size) : b.numbered.IsWithin size :=
  fun t mem => within t (mem_of_mem_numbered mem)

theorem WellFormed.numbered (wf : b.WellFormed) : b.numbered.WellFormed where
  width t mem := wf.width t (mem_of_mem_numbered mem)
  occurs t mem := wf.occurs t (mem_of_mem_numbered mem)
  increasing t mem := wf.increasing t (mem_of_mem_numbered mem)

end Numbered

/-- **A well-formed bitmap is accepted**, and its parts give it back. -/
theorem ofParts_of_wellFormed {b : Bitmap} (wf : b.WellFormed) :
    ofParts b.width b.flatValues b.offsetLists = .ok b := by
  have count : b.flatValues.length = b.width * b.offsetLists.length := by
    rw [flatValues, length_flatMap_values wf.width, offsetLists, List.length_map]
  unfold ofParts
  rw [if_neg (not_not_intro count)]
  split
  · rename_i fault found
    obtain ⟨⟨list, i⟩, mem, faulty⟩ := List.exists_of_findSome?_eq_some found
    obtain ⟨t, ht, rfl⟩ := List.mem_map.mp (List.fst_mem_of_mem_zipIdx mem)
    have none : offsetFault? i t.offsets = none :=
      offsetFault?_eq_none_iff.mpr ⟨wf.occurs t ht, wf.increasing t ht⟩
    cases none.symm.trans faulty
  · rw [flatValues, offsetLists, cutTuples_flatMap wf.width]

/-- **What is accepted is well-formed**, and is made of the given parts. -/
theorem wellFormed_of_ofParts {width : Nat} {values : List Cell} {offsets : List (List Nat)}
    {b : Bitmap} (accepted : ofParts width values offsets = .ok b) :
    b.WellFormed ∧ b.width = width ∧ b.flatValues = values ∧ b.offsetLists = offsets := by
  unfold ofParts at accepted
  split at accepted
  · cases accepted
  · rename_i counted
    have count : values.length = width * offsets.length := not_not.mp counted
    split at accepted
    · cases accepted
    · rename_i faultless
      cases accepted
      have sound : ∀ list ∈ offsets, list ≠ [] ∧ list.Pairwise (· < ·) := by
        intro list mem
        obtain ⟨i, place⟩ := List.mem_iff_getElem?.mp mem
        have inOrder : (list, i) ∈ offsets.zipIdx := List.mk_mem_zipIdx_iff_getElem?.mpr place
        exact offsetFault?_eq_none_iff.mp (List.findSome?_eq_none_iff.mp faultless _ inOrder)
      have ofMem : ∀ t ∈ cutTuples width values offsets, t.offsets ∈ offsets := by
        intro t mem
        rw [← map_offsets_cutTuples width values offsets]
        exact List.mem_map_of_mem mem
      exact ⟨⟨fun t mem => length_values_of_mem_cutTuples count mem,
        fun t mem => (sound _ (ofMem t mem)).1, fun t mem => (sound _ (ofMem t mem)).2⟩,
        rfl, flatMap_values_cutTuples count, map_offsets_cutTuples width values offsets⟩

end Columnar.Bitmap
