import Columnar.Proofs.Estimator.ExactCounts
import Columnar.Proofs.Float.Value
import Columnar.Proofs.Table.Tabulate

/-!
# When the counters fit

Segments and runs are counted in 32 bits, and a table of 32-bit dimensions may have more of them. A
row adds at most one run and the empty ones in front of it, counted from two rows before the table;
so `mostRuns` bounds the runs, and the segments as well (`View.runs_le`, `View.segs_le`). A column
in which no value repeats takes as many (`runs_allDifferent`). So for tables of so many rows and
blocks of that size no count leaves 32 bits exactly if `mostRuns` does not (`countersFit_iff`).

Where it does, one listed row may be enough: the gap in front of the last row of the longest tables
is cut to nothing (`lastRowListed_exceeds`).
-/

namespace Columnar

/-- The runs of a column without repeated values, one for each row and the empty ones in front. -/
def mostRuns (rows block : ℕ) : ℕ := ∑ row ∈ Finset.range rows, (1 + (row + 2) / block)

/-! ### Bounds -/

namespace View

variable {view : View} {columns : List ℕ} {p q : ℕ}

theorem lt_of_mem_heads (head : p ∈ view.heads columns) : p < view.rows :=
  (mem_listedRows.mp (mem_heads.mp head).1).1

theorem runs_le (view : View) (columns : List ℕ) (block : ℕ) :
    (view.rowCounts columns block).runs ≤ mostRuns view.rows block := by
  have within : view.heads columns ⊆ Finset.range view.rows :=
    fun p head => Finset.mem_range.mpr (lt_of_mem_heads head)
  calc (view.rowCounts columns block).runs
      = ∑ p ∈ view.heads columns, (1 + view.gap columns p / block) := view.runs_eq_sum columns block
    _ ≤ ∑ p ∈ view.heads columns, (1 + (p + 2) / block) := by
        gcongr with p
        exact view.gap_le columns p
    _ ≤ mostRuns view.rows block := Finset.sum_le_sum_of_subset within

theorem lastRow_mem {c : List Cell} (hc : c ∈ view.contents columns) :
    view.lastRow columns c ∈ view.rowsOf columns c := by
  rw [lastRow, List.getLastD_eq_getLast?, List.getLast?_eq_some_getLast (rowsOf_ne_nil hc)]
  exact List.getLast_mem _

/-- Different contents have different last rows. -/
theorem segs_le (view : View) (columns : List ℕ) (block : ℕ) :
    (view.rowCounts columns block).segs ≤ mostRuns view.rows block := by
  have row : ∀ c ∈ view.contents columns, view.lastRow columns c < view.rows ∧
      view.content columns (view.lastRow columns c) = c :=
    fun c hc => mem_rowsOf.mp (lastRow_mem hc)
  have different : Set.InjOn (view.lastRow columns) (view.contents columns) := by
    intro c hc c' hc' same
    rw [← (row c hc).2, same, (row c' hc').2]
  have within : (view.contents columns).image (view.lastRow columns) ⊆
      Finset.range view.rows := by
    intro p mem
    obtain ⟨c, hc, rfl⟩ := Finset.mem_image.mp mem
    exact Finset.mem_range.mpr (row c hc).1
  calc (view.rowCounts columns block).segs
      = ∑ p ∈ (view.contents columns).image (view.lastRow columns), (p / block + 1) :=
        (Finset.sum_image (f := fun p => p / block + 1) different).symm
    _ ≤ ∑ p ∈ Finset.range view.rows, (p / block + 1) := Finset.sum_le_sum_of_subset within
    _ ≤ mostRuns view.rows block := by
        refine Finset.sum_le_sum fun p _ => ?_
        have later : p / block ≤ (p + 2) / block := Nat.div_le_div_right (Nat.le_add_right p 2)
        omega

end View

/-! ### Columns without repeated values -/

section AllDifferent

variable {rows p q : ℕ} {countable : rows ≤ maxCount}

/-- The table of one column with the numbers from one on. -/
def allDifferent (countable : rows ≤ maxCount) : View :=
  .ofColumn countable fun row => .ofFloat (asFloat (row + 1))

theorem tuple_allDifferent (inTable : p < rows) :
    (allDifferent countable).tuple [0] p = [.ofFloat (asFloat (p + 1))] :=
  View.tuple_ofColumn inTable

theorem value_succ_nonzero (small : p + 1 < 2 ^ 53) :
    (Cell.ofFloat (asFloat (p + 1))).value ≠ 0 ∧ (Cell.ofFloat (asFloat (p + 1))).value ≠ -0 := by
  rw [Cell.value_ofFloat]
  have denotes := denotes_asFloat small
  have nonzero : ((p + 1 : ℕ) : ℚ) ≠ 0 := by exact_mod_cast p.succ_ne_zero
  constructor
  · intro zero
    rw [zero] at denotes
    exact nonzero denotes
  · intro zero
    rw [zero] at denotes
    exact nonzero denotes

theorem small_of_inTable (inTable : p < rows) (countable : rows ≤ maxCount) : p + 1 < 2 ^ 53 := by
  simp only [maxCount] at countable
  omega

theorem listed_allDifferent (inTable : p < rows) :
    p ∈ (allDifferent countable).listedRows [0] := by
  refine View.mem_listedRows.mpr ⟨inTable, ?_⟩
  rw [tuple_allDifferent inTable]
  exact ⟨_, List.mem_cons_self, value_succ_nonzero (small_of_inTable inTable countable)⟩

theorem eq_of_content_allDifferent (hp : p < rows) (hq : q < rows)
    (same : (allDifferent countable).content [0] p = (allDifferent countable).content [0] q) :
    p = q := by
  rw [View.content_eq_iff, tuple_allDifferent hp, tuple_allDifferent hq, List.forall₂_cons] at same
  have smallP := small_of_inTable hp countable
  have listed : Cell.isDefault (.ofFloat (asFloat (p + 1))) = false :=
    Cell.isDefault_eq_false_iff.mpr (value_succ_nonzero smallP)
  have equal := (Cell.same_iff_of_not_isDefault listed).mp same.1
  rw [Cell.value_ofFloat, Cell.value_ofFloat] at equal
  exact Nat.succ_injective ((asFloat_inj smallP (small_of_inTable hq countable)).mp equal)

theorem gap_allDifferent (inTable : p < rows) : (allDifferent countable).gap [0] p = p + 2 := by
  cases previous : (allDifferent countable).previous? [0] p with
  | none => rw [View.gap, previous]
  | some q =>
    obtain ⟨earlier, same⟩ := View.previous?_mem previous
    exact absurd (eq_of_content_allDifferent (earlier.trans inTable) inTable same) earlier.ne

theorem heads_allDifferent : (allDifferent countable).heads [0] = Finset.range rows := by
  ext p
  rw [Finset.mem_range]
  refine ⟨View.lt_of_mem_heads, fun inTable => ?_⟩
  refine View.mem_heads.mpr ⟨listed_allDifferent inTable, ?_⟩
  by_contra repeated
  obtain ⟨later, same⟩ := not_or.mp repeated
  have equal := eq_of_content_allDifferent ((Nat.sub_le p 1).trans_lt inTable) inTable
    (not_not.mp same)
  omega

theorem runs_allDifferent (block : ℕ) :
    ((allDifferent countable).rowCounts [0] block).runs = mostRuns rows block := by
  rw [View.runs_eq_sum, heads_allDifferent]
  exact Finset.sum_congr rfl fun p inTable => by
    rw [gap_allDifferent (Finset.mem_range.mp inTable)]

end AllDifferent

/-! ### Tables that are counted in 32 bits -/

/-- Every column subset of every table of so many rows is counted within 32 bits: no sum is larger,
and nothing is cut. -/
def CountersFit (rows blockSize : ℕ) : Prop :=
  ∀ view : View, view.rows = rows → ∀ columns, columns ≠ [] →
    (∀ column ∈ columns, column < view.cols) →
    ∃ b, Bitmap.extract columns view none = .ok b ∧
      Factors.plainSegments b blockSize ≤ maxCount ∧ Factors.plainRuns b blockSize ≤ maxCount ∧
      ∃ f, Factors.compute b true view.rows view.cols blockSize = .ok f ∧
        f.segs = Factors.plainSegments b blockSize ∧ f.runs = Factors.plainRuns b blockSize

/-- **Counting stays within 32 bits for the tables of so many rows exactly if the runs of a column
without repeated values do.** -/
theorem countersFit_iff {rows blockSize : ℕ} (countable : rows ≤ maxCount)
    (positive : 1 ≤ blockSize) :
    CountersFit rows blockSize ↔ mostRuns rows blockSize ≤ maxCount := by
  constructor
  · intro fit
    have inRange : ∀ column ∈ [0], column < (allDifferent countable).cols := by
      simp [allDifferent]
    obtain ⟨b, read, -, runsFit, -⟩ :=
      fit (allDifferent countable) rfl [0] (List.cons_ne_nil _ _) inRange
    have runs := View.plainRuns_eq (Bitmap.isGrouping_of_extract read) b.width blockSize
    rw [runs_allDifferent] at runs
    exact runs ▸ runsFit
  · rintro fits view rfl columns subset inRange
    have read := Bitmap.extract_all_eq_ok subset inRange
    have grouping := Bitmap.isGrouping_ofTuples columns.length
      (Bitmap.tuplesRead view columns none)
    have segs := View.plainSegments_eq grouping columns.length blockSize
    have runs := View.plainRuns_eq grouping columns.length blockSize
    have fit : view.SumsFit columns (max blockSize 1) := by
      rw [Nat.max_eq_left positive]
      exact ⟨(view.segs_le columns blockSize).trans fits,
        (view.runs_le columns blockSize).trans fits⟩
    have counted := View.compute_groups grouping fit
    rw [Nat.max_eq_left positive] at fit counted
    exact ⟨_, read, segs.trans_le fit.segs, runs.trans_le fit.runs, _, counted, segs.symm,
      runs.symm⟩

theorem mostRuns_one (rows : ℕ) : mostRuns rows 1 * 2 = rows * (rows + 5) := by
  induction rows with
  | zero => rfl
  | succ rows ih =>
    rw [mostRuns, Finset.sum_range_succ, ← mostRuns, Nat.add_mul, ih, Nat.div_one]
    ring

/-- In blocks of one row, 92,679 rows are the most. -/
theorem countersFit_iff_single_rows : CountersFit 92679 1 ∧ ¬ CountersFit 92680 1 := by
  have most := mostRuns_one 92679
  have more := mostRuns_one 92680
  constructor
  · exact (countersFit_iff (by decide) (by decide)).mpr (by simp only [maxCount]; omega)
  · intro fit
    have fits := (countersFit_iff (by decide) (by decide)).mp fit
    simp only [maxCount] at fits
    omega

/-! ### A gap that is cut to nothing -/

section LastRow

variable {before : ℕ}

/-- The table of one column in which the last row alone is no zero. -/
def lastRowListed (countable : before + 1 ≤ maxCount) : View :=
  .ofColumn countable fun row => if row = before then 1 else 0

theorem ofTuples_zeros (n : ℕ) : Grouping.ofTuples (List.replicate n [0]) = Grouping.empty := by
  induction n with
  | zero => rfl
  | succ n ih =>
    rw [List.replicate_succ', Grouping.ofTuples_concat, ih]
    rfl

theorem toTuples_add_empty {tuple : List Cell} {position : ℕ}
    (listed : tuple.all Cell.isDefault = false) :
    (Grouping.empty.add tuple position).toTuples = [⟨tuple, [position]⟩] := by
  simp [Grouping.add, Grouping.empty, Grouping.toTuples, listed]

theorem tuplesRead_lastRowListed (countable : before + 1 ≤ maxCount) :
    Bitmap.tuplesRead (lastRowListed countable) [0] none = List.replicate before [0] ++ [[1]] := by
  have tuple : ∀ p < before + 1, (lastRowListed countable).tuple [0] p =
      [if p = before then 1 else 0] := fun p => View.tuple_ofColumn
  have zeros : (List.range before).map ((lastRowListed countable).tuple [0]) =
      List.replicate before [0] := by
    refine List.eq_replicate_iff.mpr ⟨by simp, fun row mem => ?_⟩
    obtain ⟨p, inFront, rfl⟩ := List.mem_map.mp mem
    have earlier := List.mem_range.mp inFront
    rw [tuple p (earlier.trans (Nat.lt_succ_self _)), if_neg earlier.ne]
  have rows : (lastRowListed countable).rows = before + 1 := rfl
  rw [Bitmap.tuplesRead, Option.getD_none, rows, List.range_succ, List.map_append, zeros,
    List.map_singleton, tuple before (Nat.lt_succ_self _), if_pos rfl]

theorem inRange_lastRowListed (countable : before + 1 ≤ maxCount) :
    ∀ column ∈ [0], column < (lastRowListed countable).cols := by
  simp [lastRowListed]

theorem extract_lastRowListed (countable : before + 1 ≤ maxCount) :
    Bitmap.extract [0] (lastRowListed countable) none = .ok ⟨1, [⟨[1], [before]⟩]⟩ := by
  rw [Bitmap.extract_all_eq_ok (List.cons_ne_nil _ _) (inRange_lastRowListed countable),
    tuplesRead_lastRowListed, Bitmap.ofTuples, Grouping.ofTuples_concat, ofTuples_zeros,
    List.length_replicate, toTuples_add_empty (by decide)]
  rfl

/-- **One listed row can be too many runs.** If it is the last row of the longest tables, and blocks
have one row, the gap in front of it is more than a counter holds; it is cut to nothing, and one run
is counted. -/
theorem lastRowListed_exceeds :
    let view := lastRowListed (le_refl maxCount)
    let b : Bitmap := ⟨1, [⟨[1], [4294967294]⟩]⟩
    view.rows = 4294967295 ∧ view.cols = 1 ∧ Bitmap.extract [0] view none = .ok b ∧
      Factors.plainRuns b 1 = 4294967297 ∧
      (∃ f, Factors.compute b true view.rows view.cols 1 = .ok f ∧ f.runs = 1) ∧
      ¬ CountersFit view.rows 1 := by
  intro view b
  have read : Bitmap.extract [0] view none = .ok b := extract_lastRowListed (le_refl maxCount)
  have runs : Factors.plainRuns b 1 = 4294967297 := by decide
  have beyond : ¬ Factors.plainRuns b 1 ≤ maxCount := by rw [runs]; decide
  refine ⟨rfl, rfl, read, runs, ⟨_, rfl, by decide⟩, fun fit => ?_⟩
  obtain ⟨b', read', -, runsFit, -⟩ :=
    fit view rfl [0] (List.cons_ne_nil _ _) (inRange_lastRowListed (le_refl maxCount))
  cases read.symm.trans read'
  exact beyond runsFit

end LastRow

end Columnar
