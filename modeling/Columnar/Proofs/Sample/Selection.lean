import Columnar.Sample.Draw
import Mathlib

/-!
# Samples select rows of the table

Each way of selecting takes numbers below its bound only: a number drawn from a range lies in it
(`WordStream.range_le`), a swap keeps the numbers that are shuffled, and the high part of a word's
product with the bound is below the bound. Each takes the amount asked for, and takes no number
twice: a growing bound is new, a shuffle only moves numbers, and what is drawn again is dropped
(`Selection.selects_select`).

Of a selector no more is used than that (`Selector.Selects`). So the rows of a sample are rows of
the table (`Selector.lt_of_mem_draw`), as many as were asked for or as the table has
(`Selector.length_draw`), in order (`Selector.pairwise_draw`), whichever way they are selected.
-/

namespace Columnar

theorem high32_mul_lt {word : ℕ} (fits : word ≤ maxCount) {size : ℕ} (positive : 0 < size) :
    high32 (word * size) < size := by
  rw [high32, Nat.div_lt_iff_lt_mul (Nat.succ_pos _), Nat.mul_comm]
  exact Nat.mul_lt_mul_of_pos_left (Nat.lt_succ_of_le fits) positive

theorem toNat_le_maxCount (word : UInt32) : word.toNat ≤ maxCount :=
  Nat.le_of_lt_succ word.toNat_lt

/-- A carry only comes where the first word leaves room for it. -/
theorem high32_add_carry_lt {word next size : ℕ} (fits : word ≤ maxCount) (fits' : next ≤ maxCount)
    (positive : 0 < size) (carries : maxCount < low32 (word * size) + high32 (next * size)) :
    high32 (word * size) + 1 < size := by
  have carried := high32_mul_lt fits' positive
  have product : word * size ≤ maxCount * size := Nat.mul_le_mul_right _ fits
  have parts : (maxCount + 1) * high32 (word * size) + low32 (word * size) = word * size :=
    Nat.div_add_mod ..
  simp only [maxCount] at *
  omega

/-- A number that is drawn from a range lies in it. -/
theorem WordStream.range_le {low high : ℕ} (s : WordStream) (ordered : low ≤ high) :
    (s.range low high).1 ≤ high := by
  obtain ⟨size, size_eq⟩ : ∃ size, high - low + 1 = size := ⟨_, rfl⟩
  have positive : 0 < size := by omega
  have first := toNat_le_maxCount s.next.1
  have second := toNat_le_maxCount s.next.2.next.1
  have whole := high32_mul_lt first positive
  unfold range
  simp only [size_eq]
  split
  · show low + high32 (s.next.1.toNat * size) + (if maxCount <
      low32 (s.next.1.toNat * size) + high32 (s.next.2.next.1.toNat * size) then 1 else 0) ≤ high
    split
    · rename_i carries
      have room := high32_add_carry_lt first second positive carries
      omega
    · omega
  · show low + high32 (s.next.1.toNat * size) ≤ high
    omega

namespace Selection

variable {bound amount : ℕ}

/-! ### Growing bounds -/

theorem lt_of_mem_addBelow {taken : List ℕ × WordStream} {top : ℕ} (topBelow : top < bound)
    (below : ∀ number ∈ taken.1, number < bound) :
    ∀ number ∈ (addBelow taken top).1, number < bound := by
  have drawn : (taken.2.range 0 top).1 ≤ top := taken.2.range_le (Nat.zero_le _)
  intro number mem
  unfold addBelow at mem
  simp only at mem
  split at mem
  · rcases List.mem_cons.mp mem with rfl | old
    · exact topBelow
    · exact below number old
  · rcases List.mem_cons.mp mem with rfl | old
    · exact drawn.trans_lt topBelow
    · exact below number old

theorem lt_of_mem_growing (smaller : amount < bound) (words : WordStream) :
    ∀ number ∈ growing bound amount words, number < bound := by
  have run : ∀ (tops : List ℕ) (taken : List ℕ × WordStream), (∀ top ∈ tops, top < bound) →
      (∀ number ∈ taken.1, number < bound) →
      ∀ number ∈ (tops.foldl addBelow taken).1, number < bound := by
    intro tops
    induction tops with
    | nil => exact fun _ _ below => below
    | cons top rest ih =>
      intro taken topsBelow below
      exact ih (addBelow taken top) (fun other mem => topsBelow other (List.mem_cons_of_mem _ mem))
        (lt_of_mem_addBelow (topsBelow top List.mem_cons_self) below)
  refine run _ _ (fun top mem => ?_) fun _ mem => absurd mem List.not_mem_nil
  have listed := List.mem_range'_1.mp mem
  omega

theorem length_foldl_addBelow (tops : List ℕ) (taken : List ℕ × WordStream) :
    (tops.foldl addBelow taken).1.length = tops.length + taken.1.length := by
  induction tops generalizing taken with
  | nil => exact (Nat.zero_add _).symm
  | cons top rest ih =>
    have step : (addBelow taken top).1.length = taken.1.length + 1 := by
      unfold addBelow
      simp only
      split <;> rfl
    rw [List.foldl_cons, ih, step, List.length_cons]
    omega

theorem length_growing (bound amount : ℕ) (words : WordStream) :
    (growing bound amount words).length = amount := by
  rw [growing, length_foldl_addBelow, List.length_range']
  rfl

/-- A number that was drawn before is replaced by the bound, which was out of reach until now. -/
theorem nodup_addBelow {taken : List ℕ × WordStream} {top : ℕ} (distinct : taken.1.Nodup)
    (below : ∀ number ∈ taken.1, number < top) : (addBelow taken top).1.Nodup := by
  have fresh : top ∉ taken.1 := fun mem => lt_irrefl _ (below top mem)
  unfold addBelow
  simp only
  split
  · exact distinct.cons fresh
  · rename_i fresh'
    exact distinct.cons fresh'

theorem nodup_growing (bound amount : ℕ) (words : WordStream) :
    (growing bound amount words).Nodup := by
  have run : ∀ (amount start : ℕ) (taken : List ℕ × WordStream), taken.1.Nodup →
      (∀ number ∈ taken.1, number < start) →
      ((List.range' start amount).foldl addBelow taken).1.Nodup := by
    intro amount
    induction amount with
    | zero => exact fun _ _ distinct _ => distinct
    | succ amount ih =>
      intro start taken distinct below
      refine ih (start + 1) (addBelow taken start) (nodup_addBelow distinct below) ?_
      exact lt_of_mem_addBelow (Nat.lt_add_one start)
        fun number mem => (below number mem).trans (Nat.lt_add_one start)
  exact run amount (bound - amount) ([], words) List.nodup_nil
    fun _ none => absurd none List.not_mem_nil

/-! ### Shuffling in place -/

theorem swapIfInBounds_perm (numbers : Array ℕ) (i j : ℕ) :
    (numbers.swapIfInBounds i j).Perm numbers := by
  unfold Array.swapIfInBounds
  split
  · split
    · exact Array.swap_perm _ _
    · exact .refl _
  · exact .refl _

/-- The shuffle keeps the numbers that are shuffled. -/
theorem foldl_swapIn_perm (places : List ℕ) (start : Array ℕ × WordStream) :
    (places.foldl (swapIn bound) start).1.Perm start.1 := by
  induction places generalizing start with
  | nil => exact .refl _
  | cons i rest ih => exact (ih (swapIn bound start i)).trans (swapIfInBounds_perm ..)

theorem lt_of_mem_inPlace (words : WordStream) :
    ∀ number ∈ inPlace bound amount words, number < bound := by
  intro number mem
  have shuffled := Array.mem_toList_iff.mp (List.mem_of_mem_take mem)
  exact Array.mem_range.mp ((foldl_swapIn_perm _ _).mem_iff.mp shuffled)

theorem length_inPlace (smaller : amount < bound) (words : WordStream) :
    (inPlace bound amount words).length = amount := by
  unfold inPlace
  rw [List.length_take, Array.length_toList, (foldl_swapIn_perm _ _).size_eq, Array.size_range]
  exact Nat.min_eq_left smaller.le

theorem nodup_inPlace (bound amount : ℕ) (words : WordStream) :
    (inPlace bound amount words).Nodup := by
  have start : (Array.range bound).toList.Nodup := Array.toList_range ▸ List.nodup_range
  refine List.Nodup.sublist (List.take_sublist _ _) ?_
  exact (foldl_swapIn_perm _ (Array.range bound, words)).toList.nodup_iff.mpr start

/-! ### Rejection -/

theorem lt_of_mem_drawDistinct (positive : 0 < bound) (draws : ℕ) {seen : Std.HashSet ℕ}
    (words : WordStream) (below : ∀ number ∈ seen, number < bound) :
    ∀ number ∈ drawDistinct bound amount draws seen words, number < bound := by
  induction draws generalizing seen words with
  | zero => exact below
  | succ draws ih =>
    unfold drawDistinct
    simp only
    split
    · exact below
    · split
      · exact ih _ below
      · refine ih _ fun number mem => ?_
        rcases Std.HashSet.mem_insert.mp mem with same | old
        · rw [← beq_iff_eq.mp same]
          exact high32_mul_lt (toNat_le_maxCount _) positive
        · exact below number old

theorem lt_of_mem_rejection (smaller : amount < bound) (words : WordStream) :
    ∀ number ∈ rejection bound amount words, number < bound := by
  have drawn : ∀ number ∈ (drawDistinct bound amount (64 * amount + 4096) ∅ words).toList,
      number < bound := by
    intro number mem
    exact lt_of_mem_drawDistinct (Nat.zero_lt_of_lt smaller) _ words
      (fun _ none => absurd none Std.HashSet.not_mem_empty) number (Std.HashSet.mem_toList.mp mem)
  intro number mem
  unfold rejection fillUp at mem
  split at mem
  · exact drawn number mem
  · rcases List.mem_append.mp mem with old | missing
    · exact drawn number old
    · have least := List.mem_range.mp (List.mem_of_mem_filter (List.mem_of_mem_take missing))
      omega

theorem size_drawDistinct_le (bound draws : ℕ) {seen : Std.HashSet ℕ} (words : WordStream)
    (few : seen.size ≤ amount) : (drawDistinct bound amount draws seen words).size ≤ amount := by
  induction draws generalizing seen words with
  | zero => exact few
  | succ draws ih =>
    unfold drawDistinct
    simp only
    split
    · exact few
    · rename_i fewer
      split
      · exact ih _ few
      · exact ih _ (Std.HashSet.size_insert_le.trans (Nat.lt_of_not_le fewer))

/-- There are enough numbers missing to fill up with. -/
theorem length_fillUp {numbers : List ℕ} (few : numbers.length ≤ amount) :
    (fillUp amount numbers).length = amount := by
  unfold fillUp
  split
  · rename_i enough
    exact few.antisymm enough
  · have listed : (List.range amount).filter (· ∈ numbers) ⊆ numbers := by
      intro number mem
      simpa using List.of_mem_filter mem
    have taken := ((List.nodup_range.filter _).subperm listed).length_le
    have parts := List.length_eq_length_filter_add (l := List.range amount) (· ∈ numbers)
    simp only [List.length_range, ← decide_not] at parts
    rw [List.length_append, List.length_take]
    omega

theorem length_rejection (bound amount : ℕ) (words : WordStream) :
    (rejection bound amount words).length = amount := by
  have none : (∅ : Std.HashSet ℕ).size ≤ amount := Nat.zero_le _
  refine length_fillUp ?_
  rw [Std.HashSet.length_toList]
  exact size_drawDistinct_le bound (64 * amount + 4096) words none

theorem nodup_fillUp {numbers : List ℕ} (distinct : numbers.Nodup) :
    (fillUp amount numbers).Nodup := by
  unfold fillUp
  split
  · exact distinct
  · refine distinct.append ((List.nodup_range.filter _).sublist (List.take_sublist _ _)) ?_
    intro number old mem
    have missing := List.of_mem_filter (List.mem_of_mem_take mem)
    exact of_decide_eq_true missing old

theorem nodup_rejection (bound amount : ℕ) (words : WordStream) :
    (rejection bound amount words).Nodup :=
  nodup_fillUp (Std.HashSet.distinct_toList.imp ne_of_beq_false)

theorem length_select (smaller : amount < bound) (words : WordStream) :
    (select bound amount words).length = amount := by
  unfold select
  cases Method.pick bound amount with
  | growing => exact length_growing bound amount words
  | inPlace => exact length_inPlace smaller words
  | rejection => exact length_rejection bound amount words

theorem lt_of_mem_select (smaller : amount < bound) (words : WordStream) :
    ∀ number ∈ select bound amount words, number < bound := by
  unfold select
  cases Method.pick bound amount with
  | growing => exact lt_of_mem_growing smaller words
  | inPlace => exact lt_of_mem_inPlace words
  | rejection => exact lt_of_mem_rejection smaller words

/-- Different numbers below a bound, as many as were asked for. -/
structure Selects (bound amount : ℕ) (numbers : List ℕ) : Prop where
  length : numbers.length = amount
  distinct : numbers.Nodup
  below : ∀ number ∈ numbers, number < bound

/-- **Each way of selecting gives different numbers.** -/
theorem selects_select (smaller : amount < bound) (words : WordStream) :
    Selects bound amount (select bound amount words) where
  length := length_select smaller words
  distinct := by
    unfold select
    cases Method.pick bound amount with
    | growing => exact nodup_growing bound amount words
    | inPlace => exact nodup_inPlace bound amount words
    | rejection => exact nodup_rejection bound amount words
  below := lt_of_mem_select smaller words

end Selection

/-- A selector that selects different numbers below any larger bound, whatever the seed. -/
def Selector.Selects (select : Selector) : Prop :=
  ∀ ⦃bound amount⦄, amount < bound →
    ∀ seed, Selection.Selects bound amount (select bound amount seed)

theorem Selection.selects_seeded : Selector.Selects seeded :=
  fun _ _ smaller _ => selects_select smaller _

namespace Selector

variable {select : Selector}

/-- A sample is sorted. -/
theorem pairwise_draw (select : Selector) (rows size : ℕ) (seed : UInt64) :
    (select.draw rows size seed).Pairwise (· ≤ ·) := by
  unfold draw
  split
  · exact List.pairwise_lt_range.imp Nat.le_of_lt
  · exact List.pairwise_mergeSort' (· ≤ ·) _

variable (selects : select.Selects)
include selects

/-- **The rows of a sample are rows of the table.** -/
theorem lt_of_mem_draw {rows size : ℕ} {seed : UInt64} :
    ∀ row ∈ select.draw rows size seed, row < rows := by
  unfold draw
  split
  · exact fun row mem => List.mem_range.mp mem
  · rename_i fewer
    intro row mem
    exact (selects (Nat.lt_of_not_le fewer) seed).below row (List.mem_mergeSort.mp mem)

/-- A sample has as many rows as were asked for, or all. -/
theorem length_draw (rows size : ℕ) (seed : UInt64) :
    (select.draw rows size seed).length = min size rows := by
  unfold draw
  split
  · rename_i all
    rw [List.length_range, Nat.min_eq_right all]
  · rename_i fewer
    rw [List.length_mergeSort, (selects (Nat.lt_of_not_le fewer) seed).length,
      Nat.min_eq_left (Nat.le_of_not_le fewer)]

/-- A sample has fewer rows than the table, or all of them in order. -/
theorem smaller_or_all_draw (rows size : ℕ) (seed : UInt64) :
    (select.draw rows size seed).length < rows ∨ select.draw rows size seed = List.range rows := by
  rcases Nat.lt_or_ge size rows with fewer | all
  · rw [length_draw selects, Nat.min_eq_left fewer.le]
    exact .inl fewer
  · exact .inr (if_pos all)

end Selector

end Columnar
