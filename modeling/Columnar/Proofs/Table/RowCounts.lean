import Columnar.Factors
import Columnar.Proofs.Bitmap.Extraction
import Columnar.Proofs.Bitmap.Stretches

/-!
# Counts taken on the rows of a table

The factors of a column subset, counted without a bitmap. Rows are compared by their `content`, the
tuple with both zeros written alike, and all NaNs. `View.rowCounts` counts the different listed
contents, the rows that hold one, and the rows that no other row repeats; it takes the segments of
a content from its last row, and the runs from the rows at which the content changes (`heads`),
with the gap in front of each. A head is the first row of exactly one stretch of equal rows
(`card_stretches`), so with blocks longer than the table the runs are the stretches
(`runs_eq_card_stretches`).
-/

namespace Columnar.View

/-! ### Contents and heads -/

section Counts

variable (view : View) (columns : List ℕ)

/-- The tuple of a row, with both zeros written alike, and all NaNs. -/
def content (row : ℕ) : List Cell := (view.tuple columns row).map Cell.normal

instance (tuple : List Cell) : Decidable (Bitmap.IsListed tuple) := by
  unfold Bitmap.IsListed
  infer_instance

/-- The rows with a cell that is no zero. -/
def listedRows : Finset ℕ :=
  (Finset.range view.rows).filter fun p => Bitmap.IsListed (view.tuple columns p)

/-- The different contents of the listed rows. -/
def contents : Finset (List Cell) := (view.listedRows columns).image (view.content columns)

/-- The rows with a content, in order. -/
def rowsOf (c : List Cell) : List ℕ :=
  (List.range view.rows).filter fun p => view.content columns p = c

def lastRow (c : List Cell) : ℕ := (view.rowsOf columns c).getLastD 0

/-- The listed rows whose content no other row holds. -/
def onlyRows : Finset ℕ := (view.listedRows columns).filter fun p =>
  ∀ q < view.rows, view.content columns q = view.content columns p → q = p

/-- The listed rows whose content differs from that of the row above them. -/
def heads : Finset ℕ := (view.listedRows columns).filter fun p =>
  p = 0 ∨ view.content columns (p - 1) ≠ view.content columns p

/-- The last earlier row with the same content. -/
def previous? (p : ℕ) : Option ℕ :=
  ((view.rowsOf columns (view.content columns p)).filter (· < p)).getLast?

/-- The distance to the last earlier row with the same content. Without one it is counted from two
rows before the table. -/
def gap (p : ℕ) : ℕ :=
  match view.previous? columns p with
  | none => p + 2
  | some q => p - q

/-- The factors of a column subset, counted on the rows. -/
def rowCounts (block : ℕ) : Factors where
  vals := (view.contents columns).card
  offs := (view.listedRows columns).card
  segs := ∑ c ∈ view.contents columns, (view.lastRow columns c / block + 1)
  runs := (view.heads columns).card + ∑ p ∈ view.heads columns, view.gap columns p / block
  singles := (view.onlyRows columns).card
  rows := view.rows
  cols := view.cols
  groupCols := low32 columns.length

/-- The first and the last row of a stretch of listed rows with one content that is not part of a
longer one. -/
structure IsStretch (first last : ℕ) : Prop where
  le : first ≤ last
  inTable : last < view.rows
  listed : first ∈ view.listedRows columns
  constant : ∀ p ∈ Finset.Icc first last, view.content columns p = view.content columns first
  above : first = 0 ∨ view.content columns (first - 1) ≠ view.content columns first
  below : last + 1 = view.rows ∨ view.content columns (last + 1) ≠ view.content columns first

instance (first last : ℕ) : Decidable (view.IsStretch columns first last) :=
  decidable_of_iff (first ≤ last ∧ last < view.rows ∧ first ∈ view.listedRows columns ∧
      (∀ p ∈ Finset.Icc first last, view.content columns p = view.content columns first) ∧
      (first = 0 ∨ view.content columns (first - 1) ≠ view.content columns first) ∧
      (last + 1 = view.rows ∨ view.content columns (last + 1) ≠ view.content columns first))
    ⟨fun ⟨a, b, c, d, e, f⟩ => ⟨a, b, c, d, e, f⟩, fun ⟨a, b, c, d, e, f⟩ => ⟨a, b, c, d, e, f⟩⟩

/-- The maximal stretches of listed rows with one content, by their first and last rows. -/
def stretches : Finset (ℕ × ℕ) :=
  (Finset.range view.rows ×ˢ Finset.range view.rows).filter fun s =>
    view.IsStretch columns s.1 s.2

end Counts

section Facts

variable {view : View} {columns : List ℕ} {p q : ℕ}

theorem isListed_tuple_iff : Bitmap.IsListed (view.tuple columns p) ↔
    ∃ column ∈ columns, Cell.isDefault (view.get p column) = false := by
  simp only [Bitmap.IsListed, tuple, List.mem_map, exists_exists_and_eq_and,
    Cell.isDefault_eq_false_iff]

theorem same_tuple_iff : List.Forall₂ Cell.Same (view.tuple columns p) (view.tuple columns q) ↔
    ∀ column ∈ columns, Cell.Same (view.get p column) (view.get q column) := by
  rw [tuple, tuple, List.forall₂_map_left_iff, List.forall₂_map_right_iff, List.forall₂_same]

theorem content_eq_iff : view.content columns p = view.content columns q ↔
    List.Forall₂ Cell.Same (view.tuple columns p) (view.tuple columns q) := by
  have written : (fun x y => Cell.normal x = Cell.normal y) = Cell.Same := by
    funext x y
    exact propext Cell.normal_eq_normal_iff
  rw [content, content, ← List.forall₂_eq_eq_eq, List.forall₂_map_left_iff,
    List.forall₂_map_right_iff, written]

/-- Whether a row is listed shows in its content. -/
theorem isListed_iff : Bitmap.IsListed (view.tuple columns p) ↔
    ∃ cell ∈ view.content columns p, cell ≠ 0 := by
  have nonzero : ∀ cell : Cell, cell.normal ≠ 0 ↔ cell.value ≠ 0 ∧ cell.value ≠ -0 := by
    intro cell
    rw [ne_eq, Cell.normal_eq_zero_iff, Bool.not_eq_true, Cell.isDefault_eq_false_iff]
  simp only [content, List.mem_map, exists_exists_and_eq_and, nonzero]
  rfl

theorem mem_listedRows : p ∈ view.listedRows columns ↔
    p < view.rows ∧ Bitmap.IsListed (view.tuple columns p) := by
  simp [listedRows]

theorem card_listedRows_le_rows (view : View) (columns : List ℕ) :
    (view.listedRows columns).card ≤ view.rows :=
  (Finset.card_filter_le _ _).trans (Finset.card_range _).le

theorem listed_of_same (listed : q ∈ view.listedRows columns) (inTable : p < view.rows)
    (same : view.content columns p = view.content columns q) : p ∈ view.listedRows columns := by
  have lists := (mem_listedRows.mp listed).2
  rw [isListed_iff, ← same, ← isListed_iff] at lists
  exact mem_listedRows.mpr ⟨inTable, lists⟩

theorem mem_rowsOf {c : List Cell} :
    p ∈ view.rowsOf columns c ↔ p < view.rows ∧ view.content columns p = c := by
  simp [rowsOf]

theorem pairwise_rowsOf (c : List Cell) : (view.rowsOf columns c).Pairwise (· < ·) :=
  List.pairwise_lt_range.filter _

theorem mem_heads : p ∈ view.heads columns ↔ p ∈ view.listedRows columns ∧
    (p = 0 ∨ view.content columns (p - 1) ≠ view.content columns p) := by
  simp [heads]

theorem previous?_mem (h : view.previous? columns p = some q) :
    q < p ∧ view.content columns q = view.content columns p := by
  have mem := List.mem_of_getLast? h
  rw [List.mem_filter, mem_rowsOf] at mem
  exact ⟨of_decide_eq_true mem.2, mem.1.2⟩

/-! ### Stretches -/

theorem mem_stretches {s : ℕ × ℕ} :
    s ∈ view.stretches columns ↔ view.IsStretch columns s.1 s.2 := by
  simp only [stretches, Finset.mem_filter, Finset.mem_product, Finset.mem_range,
    and_iff_right_iff_imp]
  intro stretch
  exact ⟨stretch.le.trans_lt stretch.inTable, stretch.inTable⟩

/-- A head begins a stretch. -/
theorem exists_isStretch (head : p ∈ view.heads columns) :
    ∃ last, view.IsStretch columns p last := by
  obtain ⟨listed, above⟩ := mem_heads.mp head
  have inTable := (mem_listedRows.mp listed).1
  -- the content stays up to some row, and not beyond the table
  let Stays (row : ℕ) : Prop :=
    row < view.rows ∧ view.content columns row = view.content columns p
  obtain ⟨last, first, inTable', stays, ends⟩ := exists_last inTable.le
    (show Stays p from ⟨inTable, rfl⟩) fun stay => lt_irrefl view.rows stay.1
  refine ⟨last, first, inTable', listed, fun r mem => (stays r mem).2, above, ?_⟩
  by_contra longer
  obtain ⟨notLast, same⟩ := not_or.mp longer
  exact ends ⟨by omega, not_not.mp same⟩

/-- A stretch ends before the row at which another one with the same first row goes on. -/
theorem IsStretch.le_of_same_first {last last' : ℕ} (stretch : view.IsStretch columns p last)
    (other : view.IsStretch columns p last') : last' ≤ last := by
  by_contra longer
  have inTable := other.inTable
  have le := stretch.le
  rcases stretch.below with atEnd | differs
  · omega
  · exact differs (other.constant (last + 1) (Finset.mem_Icc.mpr (by omega)))

/-- Every head begins one stretch, and every stretch begins with a head. -/
theorem card_stretches : (view.stretches columns).card = (view.heads columns).card := by
  have firsts : (view.stretches columns).image Prod.fst = view.heads columns := by
    ext p
    rw [Finset.mem_image]
    constructor
    · rintro ⟨⟨first, last⟩, mem, rfl⟩
      have stretch := mem_stretches.mp mem
      exact mem_heads.mpr ⟨stretch.listed, stretch.above⟩
    · intro head
      obtain ⟨last, stretch⟩ := exists_isStretch head
      exact ⟨(p, last), mem_stretches.mpr stretch, rfl⟩
  rw [← firsts, Finset.card_image_of_injOn]
  rintro ⟨first, last⟩ mem ⟨first', last'⟩ mem' (rfl : first = first')
  have stretch : view.IsStretch columns first last := mem_stretches.mp mem
  have other : view.IsStretch columns first last' := mem_stretches.mp mem'
  rw [Nat.le_antisymm (other.le_of_same_first stretch) (stretch.le_of_same_first other)]

theorem gap_le (view : View) (columns : List ℕ) (p : ℕ) : view.gap columns p ≤ p + 2 := by
  unfold gap
  split
  · exact Nat.le_refl _
  · omega

/-- Every head adds its own run and the empty ones in the gap in front of it. -/
theorem runs_eq_sum (view : View) (columns : List ℕ) (block : ℕ) :
    (view.rowCounts columns block).runs =
      ∑ p ∈ view.heads columns, (1 + view.gap columns p / block) := by
  rw [Finset.sum_add_distrib, ← Finset.card_eq_sum_ones]
  rfl

/-- With blocks that are longer than the table and the two rows before it, no gap adds a run. -/
theorem runs_eq_card_stretches {block : ℕ} (long : view.rows + 1 < block) :
    (view.rowCounts columns block).runs = (view.stretches columns).card := by
  rw [card_stretches]
  show (view.heads columns).card + ∑ p ∈ view.heads columns, view.gap columns p / block = _
  rw [Finset.sum_eq_zero, Nat.add_zero]
  intro p head
  have inTable := (mem_listedRows.mp (mem_heads.mp head).1).1
  have short := view.gap_le columns p
  exact Nat.div_eq_of_lt (by omega)

/-- The last two rows differ in the sign of a zero only. -/
example : (Bitmap.mixedZeros.rowCounts [1, 0] 7).runs = 3 ∧
    Bitmap.mixedZeros.stretches [1, 0] = {(0, 0), (2, 2), (3, 4)} := by decide +kernel

end Facts

end Columnar.View
