import Columnar.Proofs.Estimator.ExactCounts

/-!
# Wider column groups

A row is listed in the columns of two groups together if it is listed in one of them
(`View.listedRows_joined`), and two rows are equal there if they are in both
(`View.content_joined_iff`). So a group has no more contents than a wider one
(`View.card_contents_le`), and what is together is determined by what is in each part. Rows that are
listed in one part only have one content more in the other, that of rows of zeros (`View.blank`);
rows of zeros in both are not listed (`View.card_contents_joined`). The exact estimator's
cardinalities and occurrences are bounded accordingly (`exact_of_joined`).
-/

namespace Columnar

/-- What is determined takes no more values than what determines it. -/
theorem card_image_le_card_image {α β γ : Type} [DecidableEq β] [DecidableEq γ] {s : Finset α}
    {f : α → β} {g : α → γ} (determined : ∀ p ∈ s, ∀ q ∈ s, f p = f q → g p = g q) :
    (s.image g).card ≤ (s.image f).card := by
  refine Finset.card_le_card_of_forall_subsingleton (fun c d => ∃ p ∈ s, g p = c ∧ f p = d) ?_ ?_
  · intro c hc
    obtain ⟨p, mem, rfl⟩ := Finset.mem_image.mp hc
    exact ⟨f p, Finset.mem_image_of_mem f mem, p, mem, rfl, rfl⟩
  · rintro d - c ⟨-, p, memP, rfl, same⟩ c' ⟨-, q, memQ, rfl, rfl⟩
    exact determined p memP q memQ same

namespace View

variable {view : View} {columns left right joined : List ℕ} {p q : ℕ}

/-! ### Rows of zeros -/

/-- The content of a row that is zero in all columns. -/
def blank (columns : List ℕ) : List Cell := List.replicate columns.length 0

theorem content_eq_blank_iff :
    view.content columns p = blank columns ↔ ¬ Bitmap.IsListed (view.tuple columns p) := by
  have length : (view.content columns p).length = columns.length := by simp [content, tuple]
  rw [blank, List.eq_replicate_iff, and_iff_right length, isListed_iff]
  push Not
  exact Iff.rfl

theorem content_mem_insert_blank (inTable : p < view.rows) :
    view.content columns p ∈ insert (blank columns) (view.contents columns) := by
  by_cases listed : Bitmap.IsListed (view.tuple columns p)
  · exact Finset.mem_insert_of_mem
      (Finset.mem_image_of_mem _ (mem_listedRows.mpr ⟨inTable, listed⟩))
  · exact Finset.mem_insert.mpr (Or.inl (content_eq_blank_iff.mpr listed))

/-! ### Two groups together -/

section Joined

variable (union : ∀ column, column ∈ joined ↔ column ∈ left ∨ column ∈ right)
include union

theorem isListed_joined_iff : Bitmap.IsListed (view.tuple joined p) ↔
    Bitmap.IsListed (view.tuple left p) ∨ Bitmap.IsListed (view.tuple right p) := by
  simp only [isListed_tuple_iff, union, or_and_right, exists_or]

theorem content_joined_iff : view.content joined p = view.content joined q ↔
    view.content left p = view.content left q ∧ view.content right p = view.content right q := by
  simp only [content_eq_iff, same_tuple_iff, union, or_imp, forall_and]

theorem listedRows_joined :
    view.listedRows joined = view.listedRows left ∪ view.listedRows right := by
  ext p
  simp only [Finset.mem_union, mem_listedRows, isListed_joined_iff union, and_or_left]

/-- A group has no more contents than a wider one. -/
theorem card_contents_le : (view.contents left).card ≤ (view.contents joined).card := by
  have within : view.listedRows left ⊆ view.listedRows joined := by
    rw [listedRows_joined union]
    exact Finset.subset_union_left
  calc (view.contents left).card ≤ ((view.listedRows left).image (view.content joined)).card :=
        card_image_le_card_image fun p _ q _ same => ((content_joined_iff union).mp same).1
    _ ≤ (view.contents joined).card := Finset.card_le_card (Finset.image_subset_image within)

/-- The contents of two groups together are pairs of a content of each, rows of zeros included, but
not rows that are zero in both. -/
theorem card_contents_joined : (view.contents joined).card + 1 ≤
    ((view.contents left).card + 1) * ((view.contents right).card + 1) := by
  let parts (p : ℕ) : List Cell × List Cell := (view.content left p, view.content right p)
  let pairs := (view.listedRows joined).image parts
  have unlisted : (blank left, blank right) ∉ pairs := by
    intro mem
    obtain ⟨p, listed, zeros⟩ := Finset.mem_image.mp mem
    obtain ⟨zerosLeft, zerosRight⟩ := Prod.mk.inj zeros
    rcases (isListed_joined_iff union).mp (mem_listedRows.mp listed).2 with inLeft | inRight
    · exact content_eq_blank_iff.mp zerosLeft inLeft
    · exact content_eq_blank_iff.mp zerosRight inRight
  have within : insert (blank left, blank right) pairs ⊆
      insert (blank left) (view.contents left) ×ˢ insert (blank right) (view.contents right) := by
    refine Finset.insert_subset ?_ fun pair mem => ?_
    · exact Finset.mem_product.mpr ⟨Finset.mem_insert_self .., Finset.mem_insert_self ..⟩
    · obtain ⟨p, listed, rfl⟩ := Finset.mem_image.mp mem
      have inTable := (mem_listedRows.mp listed).1
      exact Finset.mem_product.mpr
        ⟨content_mem_insert_blank inTable, content_mem_insert_blank inTable⟩
  calc (view.contents joined).card + 1 ≤ pairs.card + 1 :=
        Nat.add_le_add_right (card_image_le_card_image fun p _ q _ same =>
          (content_joined_iff union).mpr (Prod.mk.inj same)) 1
    _ = (insert (blank left, blank right) pairs).card :=
        (Finset.card_insert_of_notMem unlisted).symm
    _ ≤ (insert (blank left) (view.contents left)).card *
          (insert (blank right) (view.contents right)).card :=
        (Finset.card_le_card within).trans (Finset.card_product ..).le
    _ ≤ ((view.contents left).card + 1) * ((view.contents right).card + 1) :=
        Nat.mul_le_mul (Finset.card_insert_le ..) (Finset.card_insert_le ..)

end Joined

end View

/-- **A wider group has no fewer tuples and occurrences**, and the parts bound its growth. For the
columns of two groups together, in any order, the exact estimator counts at least the tuples and
occurrences of either one; no more occurrences than both have; and one tuple less than the pairs of
a tuple of each, where each has one more, of zeros. It does count all three groups if their segments
and their runs fit 32 bits. -/
theorem exact_of_joined {view : View} {left right joined : List ℕ} (leftSubset : left ≠ [])
    (rightSubset : right ≠ []) (leftInRange : ∀ column ∈ left, column < view.cols)
    (rightInRange : ∀ column ∈ right, column < view.cols)
    (union : ∀ column, column ∈ joined ↔ column ∈ left ∨ column ∈ right) (blockSize : ℕ) :
    (∀ l r j, view.ExactAnswer blockSize left l → view.ExactAnswer blockSize right r →
      view.ExactAnswer blockSize joined j →
      l.vals ≤ j.vals ∧ l.offs ≤ j.offs ∧ j.offs ≤ l.offs + r.offs ∧
        j.vals + 1 ≤ (l.vals + 1) * (r.vals + 1)) ∧
    ((∀ columns ∈ [left, right, joined], view.SumsFit columns (max blockSize 1)) →
      ∃ l r j, view.ExactAnswer blockSize left l ∧ view.ExactAnswer blockSize right r ∧
        view.ExactAnswer blockSize joined j) := by
  have joinedSubset : joined ≠ [] := by
    obtain ⟨column, mem⟩ := List.exists_mem_of_ne_nil left leftSubset
    exact List.ne_nil_of_mem ((union column).mpr (Or.inl mem))
  have joinedInRange : ∀ column ∈ joined, column < view.cols :=
    fun column mem => ((union column).mp mem).elim (leftInRange column) (rightInRange column)
  constructor
  · intro l r j answerLeft answerRight answer
    rw [answerLeft.vals_eq, answerRight.vals_eq, answer.vals_eq, answerLeft.offs_eq,
      answerRight.offs_eq, answer.offs_eq, View.listedRows_joined union]
    exact ⟨View.card_contents_le union, Finset.card_le_card Finset.subset_union_left,
      Finset.card_union_le _ _, View.card_contents_joined union⟩
  · intro fit
    exact ⟨_, _, _, (fit left (by simp)).exactAnswer leftSubset leftInRange,
      (fit right (by simp)).exactAnswer rightSubset rightInRange,
      (fit joined (by simp)).exactAnswer joinedSubset joinedInRange⟩

/-- Both columns of the table with zeros of either sign, one of them twice. -/
theorem exact_of_joined_mixed_zeros :
    ([0] : List ℕ) ≠ [] ∧ ([1] : List ℕ) ≠ [] ∧ (∀ column ∈ [0], column < Bitmap.mixedZeros.cols) ∧
      (∀ column ∈ [1], column < Bitmap.mixedZeros.cols) ∧
      (∀ column, column ∈ [1, 0, 1] ↔ column ∈ [0] ∨ column ∈ [1]) ∧
      (∀ columns ∈ [[0], [1], [1, 0, 1]], Bitmap.mixedZeros.SumsFit columns (max 2 1)) ∧
      ∃ l r j, Bitmap.mixedZeros.ExactAnswer 2 [0] l ∧ Bitmap.mixedZeros.ExactAnswer 2 [1] r ∧
        Bitmap.mixedZeros.ExactAnswer 2 [1, 0, 1] j ∧
        l.vals ≤ j.vals ∧ l.offs ≤ j.offs ∧ j.offs ≤ l.offs + r.offs ∧
        j.vals + 1 ≤ (l.vals + 1) * (r.vals + 1) := by
  have leftSubset : ([0] : List ℕ) ≠ [] := List.cons_ne_nil _ _
  have rightSubset : ([1] : List ℕ) ≠ [] := List.cons_ne_nil _ _
  have leftInRange : ∀ column ∈ [0], column < Bitmap.mixedZeros.cols := by decide
  have rightInRange : ∀ column ∈ [1], column < Bitmap.mixedZeros.cols := by decide
  have union : ∀ column, column ∈ [1, 0, 1] ↔ column ∈ [0] ∨ column ∈ [1] := by
    simp [or_comm]
  have fit : ∀ columns ∈ [[0], [1], [1, 0, 1]],
      Bitmap.mixedZeros.SumsFit columns (max 2 1) := by
    simp only [List.forall_mem_cons]
    refine ⟨?_, ?_, ?_, nofun⟩ <;> constructor <;> decide +kernel
  obtain ⟨bounds, answers⟩ :=
    exact_of_joined leftSubset rightSubset leftInRange rightInRange union 2
  obtain ⟨l, r, j, left, right, joined⟩ := answers fit
  exact ⟨leftSubset, rightSubset, leftInRange, rightInRange, union, fit, l, r, j, left, right,
    joined, bounds l r j left right joined⟩

end Columnar
