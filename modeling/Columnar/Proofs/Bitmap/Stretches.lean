import Columnar.Proofs.Bitmap.Steps
import Mathlib

/-!
# Stretches of consecutive offsets

The offsets of a tuple fall into stretches: consecutive ones that are not part of a longer stretch
(`IsStretch`). A stretch begins at an offset that does not follow another one, and each such offset
begins one stretch (`sum_stretches`). In front of it rows are skipped, back to the offset before or
to the top of the table (`skippedRows`): as many as the first offset says (`skippedRows_first`), or
as lie between two offsets (`skippedRows_later`). The gap that runs are counted by is longer: it
leads back to the offset before, or to two rows before the table (`gap_eq`).
-/

namespace Columnar

/-- What holds at a place and no longer at a later one ends somewhere between. -/
theorem exists_last {holds : ℕ → Prop} {first bound : ℕ} (le : first ≤ bound)
    (atFirst : holds first) (atBound : ¬ holds bound) :
    ∃ last, first ≤ last ∧ last < bound ∧ (∀ p ∈ Finset.Icc first last, holds p) ∧
      ¬ holds (last + 1) := by
  classical
  let Stays (last : ℕ) : Prop := ∀ p ∈ Finset.Icc first last, holds p
  have itself : Stays first := by
    intro p mem
    obtain rfl : p = first := by simpa using mem
    exact atFirst
  obtain ⟨last, greatest⟩ : ∃ last, Nat.findGreatest Stays bound = last := ⟨_, rfl⟩
  have stays : Stays last := greatest ▸ Nat.findGreatest_spec le itself
  have after : first ≤ last := greatest ▸ Nat.le_findGreatest le itself
  have within : last ≤ bound := greatest ▸ Nat.findGreatest_le _
  have short : last < bound := by
    refine within.lt_of_ne ?_
    rintro rfl
    exact atBound (stays last (Finset.mem_Icc.mpr ⟨after, le_refl _⟩))
  refine ⟨last, after, short, stays, fun longer => ?_⟩
  have ends : ¬ Stays (last + 1) :=
    Nat.findGreatest_is_greatest (by rw [greatest]; exact Nat.lt_succ_self last) short
  refine ends fun p mem => ?_
  obtain ⟨low, high⟩ := Finset.mem_Icc.mp mem
  rcases Nat.lt_or_ge last p with later | earlier
  · obtain rfl : p = last + 1 := by omega
    exact longer
  · exact stays p (Finset.mem_Icc.mpr ⟨low, earlier⟩)

namespace Bitmap

/-- The first and the last of consecutive offsets that are not part of a longer stretch. -/
structure IsStretch (offsets : List ℕ) (first last : ℕ) : Prop where
  le : first ≤ last
  listed : ∀ p ∈ Finset.Icc first last, p ∈ offsets
  above : first = 0 ∨ first - 1 ∉ offsets
  below : last + 1 ∉ offsets

instance (offsets : List ℕ) (first last : ℕ) : Decidable (IsStretch offsets first last) :=
  decidable_of_iff (first ≤ last ∧ (∀ p ∈ Finset.Icc first last, p ∈ offsets) ∧
      (first = 0 ∨ first - 1 ∉ offsets) ∧ last + 1 ∉ offsets)
    ⟨fun ⟨a, b, c, d⟩ => ⟨a, b, c, d⟩, fun ⟨a, b, c, d⟩ => ⟨a, b, c, d⟩⟩

/-- The stretches of a list of offsets, by their first and last offsets. -/
def stretches (offsets : List ℕ) : Finset (ℕ × ℕ) :=
  (offsets.toFinset ×ˢ offsets.toFinset).filter fun s => IsStretch offsets s.1 s.2

/-- The offsets that do not directly follow another one. -/
def starts (offsets : List ℕ) : Finset ℕ :=
  offsets.toFinset.filter fun p => p = 0 ∨ p - 1 ∉ offsets

/-- The number of rows skipped in front of an offset: those above it and below all offsets that are
smaller. -/
def skippedRows (offsets : List ℕ) (p : ℕ) : ℕ :=
  ((Finset.range p).filter fun row => ∀ q ∈ offsets, q < p → q < row).card

/-- What the gap in front of an offset has beyond the rows skipped: two rows before the table in
front of the first offset, and one row, that of the offset before, in front of a later one. -/
def lead (offsets : List ℕ) (p : ℕ) : ℕ := if ∀ q ∈ offsets, p ≤ q then 2 else 1

def gap (offsets : List ℕ) (p : ℕ) : ℕ := skippedRows offsets p + lead offsets p

variable {offsets : List ℕ} {p q : ℕ}

/-! ### Where stretches begin and end -/

theorem mem_starts : p ∈ starts offsets ↔ p ∈ offsets ∧ (p = 0 ∨ p - 1 ∉ offsets) := by
  simp [starts]

theorem IsStretch.first_mem_starts {last : ℕ} (stretch : IsStretch offsets p last) :
    p ∈ starts offsets :=
  mem_starts.mpr ⟨stretch.listed p (Finset.left_mem_Icc.mpr stretch.le), stretch.above⟩

theorem mem_stretches {s : ℕ × ℕ} : s ∈ stretches offsets ↔ IsStretch offsets s.1 s.2 := by
  simp only [stretches, Finset.mem_filter, Finset.mem_product, List.mem_toFinset,
    and_iff_right_iff_imp]
  intro stretch
  exact ⟨stretch.listed _ (Finset.left_mem_Icc.mpr stretch.le),
    stretch.listed _ (Finset.right_mem_Icc.mpr stretch.le)⟩

/-- A stretch begins at every offset that does not follow another one. -/
theorem exists_isStretch (start : p ∈ starts offsets) : ∃ last, IsStretch offsets p last := by
  obtain ⟨listed, above⟩ := mem_starts.mp start
  obtain ⟨bound, within⟩ := offsets.toFinset.exists_nat_subset_range
  have inside : ∀ q ∈ offsets, q < bound :=
    fun q mem => Finset.mem_range.mp (within (List.mem_toFinset.mpr mem))
  obtain ⟨last, le, -, consecutive, below⟩ := exists_last (inside p listed).le listed
    fun mem => lt_irrefl bound (inside bound mem)
  exact ⟨last, le, consecutive, above, below⟩

theorem IsStretch.le_of_same_first {last last' : ℕ} (stretch : IsStretch offsets p last)
    (other : IsStretch offsets p last') : last' ≤ last := by
  by_contra longer
  have le := stretch.le
  exact stretch.below (other.listed (last + 1) (Finset.mem_Icc.mpr (by omega)))

/-- **Stretches are counted by where they begin.** -/
theorem sum_stretches (offsets : List ℕ) (count : ℕ → ℕ) :
    ∑ s ∈ stretches offsets, count s.1 = ∑ p ∈ starts offsets, count p := by
  have firsts : (stretches offsets).image Prod.fst = starts offsets := by
    ext p
    rw [Finset.mem_image]
    constructor
    · rintro ⟨⟨first, last⟩, mem, rfl⟩
      exact (mem_stretches.mp mem).first_mem_starts
    · intro start
      obtain ⟨last, stretch⟩ := exists_isStretch start
      exact ⟨(p, last), mem_stretches.mpr stretch, rfl⟩
  rw [← firsts, Finset.sum_image]
  rintro ⟨first, last⟩ mem ⟨first', last'⟩ mem' (rfl : first = first')
  have stretch : IsStretch offsets first last := mem_stretches.mp mem
  have other : IsStretch offsets first last' := mem_stretches.mp mem'
  rw [Nat.le_antisymm (other.le_of_same_first stretch) (stretch.le_of_same_first other)]

theorem card_stretches (offsets : List ℕ) : (stretches offsets).card = (starts offsets).card := by
  rw [Finset.card_eq_sum_ones, Finset.card_eq_sum_ones]
  exact sum_stretches offsets fun _ => 1

theorem card_stretches_le (offsets : List ℕ) : (stretches offsets).card ≤ offsets.length := by
  rw [card_stretches]
  exact (Finset.card_filter_le _ _).trans (List.toFinset_card_le offsets)

/-! ### Rows skipped in front of an offset -/

/-- In front of the first offset all rows are skipped. -/
theorem skippedRows_first (first : ∀ q ∈ offsets, p ≤ q) : skippedRows offsets p = p := by
  rw [skippedRows, Finset.filter_true_of_mem, Finset.card_range]
  intro row _ q mem earlier
  exact absurd earlier (Nat.not_lt.mpr (first q mem))

/-- In front of a later offset the rows between it and the one before are skipped. -/
theorem skippedRows_later (mem : q ∈ offsets) (earlier : q < p)
    (latest : ∀ r ∈ offsets, r < p → r ≤ q) : skippedRows offsets p = p - q - 1 := by
  have between : (Finset.range p).filter (fun row => ∀ r ∈ offsets, r < p → r < row) =
      Finset.Ioo q p := by
    ext row
    rw [Finset.mem_filter, Finset.mem_range, Finset.mem_Ioo, and_comm]
    refine and_congr_left fun _ => ⟨fun below => below q mem earlier, ?_⟩
    intro after r listed smaller
    exact (latest r listed smaller).trans_lt after
  rw [skippedRows, between, Nat.card_Ioo]

/-- The gap leads back to the last smaller offset, or to two rows before the table. -/
theorem gap_eq (increasing : offsets.Pairwise (· < ·)) (p : ℕ) : gap offsets p =
    match (offsets.filter (· < p)).getLast? with
    | none => p + 2
    | some q => p - q := by
  cases before : (offsets.filter (· < p)).getLast? with
  | none =>
    have first := le_of_before_eq_none before
    rw [gap, skippedRows_first first, lead, if_pos first]
  | some q =>
    obtain ⟨listed, earlier, latest⟩ := of_before_eq_some increasing before
    have later : ¬ ∀ r ∈ offsets, p ≤ r := fun first => absurd (first q listed) (by omega)
    rw [gap, skippedRows_later listed earlier latest, lead, if_neg later]
    show p - q - 1 + 1 = p - q
    omega

end Bitmap

end Columnar
