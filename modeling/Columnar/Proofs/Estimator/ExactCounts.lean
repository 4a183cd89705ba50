import Columnar.Estimator.Basic
import Columnar.Proofs.Bitmap.Steps
import Columnar.Proofs.Factors.Runs
import Columnar.Proofs.Footprint.Sizes
import Columnar.Proofs.Table.RowCounts

/-!
# The exact estimator counts rows

The exact estimator sums over the tuples of a bitmap, each with the list of its offsets; the counts
of `View.rowCounts` are taken on the rows. The groups of an extraction are the contents of the
listed rows, each with the rows that hold it (`IsGrouping.offsets_eq`), so a sum over groups is a
sum over contents (`IsGrouping.total_map`), and a sum over contents of sums over their rows is a sum
over the listed rows (`View.sum_contents`). The step in front of an offset is the gap in front of
the row (`steps_rowsOf`), and a run begins at the heads (`plainRunsAt_previous`). So the plain sums
over a bitmap are those of the rows (`plainSegments_eq`, `plainRuns_eq`).

Where segments and runs fit 32 bits, the exact estimator answers with the counts of the rows
(`View.SumsFit.exactAnswer`); and whenever it answers (`View.ExactAnswer`), all other factors are
these counts (`View.ExactAnswer.eq_rowCounts`).
-/

namespace Columnar

variable {view : View} {columns : List ℕ}

theorem countP_eq_total {α : Type} (p : α → Bool) (l : List α) :
    l.countP p = total (l.map fun x => if p x then 1 else 0) := by
  induction l with
  | nil => rfl
  | cons x rest ih => rw [List.countP_cons, List.map_cons, total_cons, ih, Nat.add_comm]

/-! ### Groups and contents -/

namespace Bitmap

theorem getElem?_tuplesRead {p : ℕ} {tuple : List Cell} :
    (tuplesRead view columns none)[p]? = some tuple ↔
      p < view.rows ∧ view.tuple columns p = tuple := by
  rw [tuplesRead, Option.getD_none, List.getElem?_map, Option.map_eq_some_iff]
  simp [List.getElem?_eq_some_iff]

/-- What the tuple of a group is written as. -/
def content (g : TupleOffsets) : List Cell := g.values.map Cell.normal

namespace IsGrouping

variable {groups : List TupleOffsets} {g g' : TupleOffsets} {p q : ℕ}

section Rows

variable (grouping : IsGrouping (tuplesRead view columns none) groups)
include grouping

theorem mem_positions_iff : p ∈ positions groups ↔ p ∈ view.listedRows columns := by
  rw [grouping.listed, View.mem_listedRows]
  simp only [getElem?_tuplesRead]
  constructor
  · rintro ⟨_, ⟨inTable, rfl⟩, listed⟩
    exact ⟨inTable, listed⟩
  · rintro ⟨inTable, listed⟩
    exact ⟨_, ⟨inTable, rfl⟩, listed⟩

theorem listed_of_mem (hg : g ∈ groups) (mem : p ∈ g.offsets) : p ∈ view.listedRows columns :=
  grouping.mem_positions_iff.mp (List.mem_flatMap.mpr ⟨g, hg, mem⟩)

/-- A group has a first row, which holds the content of the group. -/
theorem exists_first (hg : g ∈ groups) :
    ∃ p ∈ g.offsets, view.content columns p = content g := by
  obtain ⟨p, head, place⟩ := grouping.first g hg
  obtain ⟨-, tuple⟩ := getElem?_tuplesRead.mp place
  refine ⟨p, List.mem_of_head? head, ?_⟩
  rw [View.content, tuple, content]

/-- Listed rows share a group if they have the same content. -/
theorem together_iff (hp : p ∈ view.listedRows columns) (hq : q ∈ view.listedRows columns) :
    (∃ g ∈ groups, p ∈ g.offsets ∧ q ∈ g.offsets) ↔
      view.content columns p = view.content columns q := by
  rw [View.content_eq_iff]
  exact grouping.shared p q _ _ (grouping.mem_positions_iff.mpr hp)
    (grouping.mem_positions_iff.mpr hq)
    (getElem?_tuplesRead.mpr ⟨(View.mem_listedRows.mp hp).1, rfl⟩)
    (getElem?_tuplesRead.mpr ⟨(View.mem_listedRows.mp hq).1, rfl⟩)

/-- The offsets of a group are the rows that hold its content. -/
theorem offsets_eq (hg : g ∈ groups) : g.offsets = view.rowsOf columns (content g) := by
  obtain ⟨first, memFirst, same⟩ := grouping.exists_first hg
  have listedFirst := grouping.listed_of_mem hg memFirst
  refine (grouping.increasing g hg).eq_of_mem_iff (View.pairwise_rowsOf _) fun {p} => ?_
  rw [View.mem_rowsOf, ← same]
  constructor
  · intro mem
    have listed := grouping.listed_of_mem hg mem
    exact ⟨(View.mem_listedRows.mp listed).1,
      (grouping.together_iff listed listedFirst).mp ⟨g, hg, mem, memFirst⟩⟩
  · rintro ⟨inTable, alike⟩
    have listed := View.listed_of_same listedFirst inTable alike
    obtain ⟨g', hg', mem, memFirst'⟩ := (grouping.together_iff listed listedFirst).mpr alike
    rwa [grouping.eq_of_mem_offsets hg hg' memFirst memFirst']

theorem nodup_contents : (groups.map content).Nodup := by
  refine List.pairwise_map.mpr (grouping.disjoint.imp_of_mem fun {g g'} hg hg' apart same => ?_)
  obtain ⟨p, mem, -⟩ := grouping.exists_first hg
  have mem' := mem
  rw [grouping.offsets_eq hg, same, ← grouping.offsets_eq hg'] at mem'
  exact apart mem mem'

theorem toFinset_contents : (groups.map content).toFinset = view.contents columns := by
  ext c
  rw [List.mem_toFinset, List.mem_map, View.contents, Finset.mem_image]
  constructor
  · rintro ⟨g, hg, rfl⟩
    obtain ⟨p, mem, same⟩ := grouping.exists_first hg
    exact ⟨p, grouping.listed_of_mem hg mem, same⟩
  · rintro ⟨p, listed, rfl⟩
    obtain ⟨g, hg, mem⟩ := List.mem_flatMap.mp (grouping.mem_positions_iff.mpr listed)
    rw [grouping.offsets_eq hg] at mem
    exact ⟨g, hg, (View.mem_rowsOf.mp mem).2.symm⟩

/-- A sum over the groups is a sum over the contents. -/
theorem total_map (count : List ℕ → ℕ) : total (groups.map fun g => count g.offsets) =
    ∑ c ∈ view.contents columns, count (view.rowsOf columns c) := by
  have counted : groups.map (fun g => count g.offsets) =
      (groups.map content).map fun c => count (view.rowsOf columns c) := by
    rw [List.map_map]
    exact List.map_congr_left fun g hg => by rw [grouping.offsets_eq hg]; rfl
  rw [counted, ← grouping.toFinset_contents, List.sum_toFinset _ grouping.nodup_contents]
  rfl

end Rows

end IsGrouping

end Bitmap

/-! ### Steps and gaps -/

namespace View

variable {p : ℕ}

/-- The steps through the rows of a content lead to each row from the last earlier one. -/
theorem steps_rowsOf (c : List Cell) : Bitmap.steps (view.rowsOf columns c) =
    (view.rowsOf columns c).map fun p => (view.previous? columns p, p) := by
  rw [Bitmap.steps_eq (pairwise_rowsOf c)]
  refine List.map_congr_left fun p mem => ?_
  rw [previous?, (mem_rowsOf.mp mem).2]

/-- The heads are where the rows of their content begin a stretch. -/
theorem mem_heads_iff_starts (listed : p ∈ view.listedRows columns) : p ∈ view.heads columns ↔
    p ∈ Bitmap.starts (view.rowsOf columns (view.content columns p)) := by
  have inTable := (mem_listedRows.mp listed).1
  have above : p - 1 < view.rows := (Nat.sub_le p 1).trans_lt inTable
  rw [mem_heads, Bitmap.mem_starts, mem_rowsOf, mem_rowsOf, and_iff_right listed,
    and_iff_right ⟨inTable, rfl⟩, and_iff_right above]

theorem gap_eq_gap_rowsOf (p : ℕ) : view.gap columns p =
    Bitmap.gap (view.rowsOf columns (view.content columns p)) p := by
  rw [Bitmap.gap_eq (pairwise_rowsOf _)]
  rfl

/-- A run begins at the heads, with the empty ones in the gap in front of it. -/
theorem plainRunsAt_previous (block : ℕ) (listed : p ∈ view.listedRows columns) :
    Factors.plainRunsAt block (view.previous? columns p, p) =
      if p ∈ view.heads columns then 1 + view.gap columns p / block else 0 := by
  have mem : p ∈ view.rowsOf columns (view.content columns p) :=
    mem_rowsOf.mpr ⟨(mem_listedRows.mp listed).1, rfl⟩
  rw [previous?, Factors.plainRunsAt_before (pairwise_rowsOf _) mem, gap_eq_gap_rowsOf]
  simp only [mem_heads_iff_starts listed]

/-! ### Sums over the rows -/

theorem mem_contents_of_mem {c : List Cell} (hc : c ∈ view.contents columns)
    (mem : p ∈ view.rowsOf columns c) : p ∈ view.listedRows columns := by
  obtain ⟨first, listed, rfl⟩ := Finset.mem_image.mp hc
  obtain ⟨inTable, same⟩ := mem_rowsOf.mp mem
  exact listed_of_same listed inTable same

theorem toFinset_rowsOf {c : List Cell} (hc : c ∈ view.contents columns) :
    (view.rowsOf columns c).toFinset =
      (view.listedRows columns).filter (view.content columns · = c) := by
  ext p
  rw [List.mem_toFinset, Finset.mem_filter]
  constructor
  · exact fun mem => ⟨mem_contents_of_mem hc mem, (mem_rowsOf.mp mem).2⟩
  · exact fun ⟨listed, same⟩ => mem_rowsOf.mpr ⟨(mem_listedRows.mp listed).1, same⟩

/-- A sum over the contents of sums over their rows is a sum over the listed rows. -/
theorem sum_contents (count : ℕ → ℕ) :
    ∑ c ∈ view.contents columns, total ((view.rowsOf columns c).map count) =
      ∑ p ∈ view.listedRows columns, count p := by
  rw [← Finset.sum_fiberwise_of_maps_to (fun p => Finset.mem_image_of_mem (view.content columns))]
  refine Finset.sum_congr rfl fun c hc => ?_
  rw [← toFinset_rowsOf hc, List.sum_toFinset _ ((pairwise_rowsOf c).imp Nat.ne_of_lt)]
  rfl

theorem rowsOf_ne_nil {c : List Cell} (hc : c ∈ view.contents columns) :
    view.rowsOf columns c ≠ [] := by
  obtain ⟨p, listed, same⟩ := Finset.mem_image.mp hc
  exact List.ne_nil_of_mem (mem_rowsOf.mpr ⟨(mem_listedRows.mp listed).1, same⟩)

/-- No other row repeats a row that is the only one with its content. -/
theorem mem_onlyRows_iff (listed : p ∈ view.listedRows columns) :
    p ∈ view.onlyRows columns ↔ view.rowsOf columns (view.content columns p) = [p] := by
  rw [onlyRows, Finset.mem_filter, and_iff_right listed]
  have mem : p ∈ view.rowsOf columns (view.content columns p) :=
    mem_rowsOf.mpr ⟨(mem_listedRows.mp listed).1, rfl⟩
  constructor
  · intro only
    have distinct : (view.rowsOf columns (view.content columns p)).Nodup :=
      (pairwise_rowsOf _).imp Nat.ne_of_lt
    refine List.perm_singleton.mp
      ((List.perm_ext_iff_of_nodup distinct (List.nodup_singleton p)).mpr fun q => ?_)
    rw [List.mem_singleton]
    constructor
    · exact fun same => only q (mem_rowsOf.mp same).1 (mem_rowsOf.mp same).2
    · rintro rfl
      exact mem
  · intro alone q inTable same
    have repeated := mem_rowsOf.mpr ⟨inTable, same⟩
    rw [alone] at repeated
    exact List.mem_singleton.mp repeated

/-! ### The counts -/

theorem sum_length_rowsOf : ∑ c ∈ view.contents columns, (view.rowsOf columns c).length =
    (view.listedRows columns).card := by
  rw [Finset.card_eq_sum_ones, ← sum_contents]
  exact Finset.sum_congr rfl fun c _ => (total_map_one _).symm

theorem sum_singles : ∑ c ∈ view.contents columns,
    (if (view.rowsOf columns c).length == 1 then 1 else 0) = (view.onlyRows columns).card := by
  have perContent : ∀ c ∈ view.contents columns,
      (if (view.rowsOf columns c).length == 1 then 1 else 0) =
        total ((view.rowsOf columns c).map
          fun p => if p ∈ view.onlyRows columns then 1 else 0) := by
    intro c hc
    have only_iff : ∀ p ∈ view.rowsOf columns c,
        p ∈ view.onlyRows columns ↔ view.rowsOf columns c = [p] := by
      intro p mem
      rw [mem_onlyRows_iff (mem_contents_of_mem hc mem), (mem_rowsOf.mp mem).2]
    by_cases single : (view.rowsOf columns c).length = 1
    · obtain ⟨p, alone⟩ := List.length_eq_one_iff.mp single
      have only : p ∈ view.onlyRows columns :=
        (only_iff p (by rw [alone]; exact List.mem_cons_self)).mpr alone
      rw [alone, List.map_singleton, if_pos only]
      rfl
    · have several : ∀ p ∈ view.rowsOf columns c, p ∉ view.onlyRows columns :=
        fun p mem only => single (by rw [(only_iff p mem).mp only]; rfl)
      rw [if_neg (by simpa using single), List.map_congr_left fun p mem => if_neg (several p mem),
        List.map_const']
      exact ((List.sum_replicate_nat ..).trans (Nat.mul_zero _)).symm
  have within : view.onlyRows columns ⊆ view.listedRows columns := Finset.filter_subset _ _
  rw [Finset.sum_congr rfl perContent, sum_contents, ← Finset.card_filter,
    Finset.filter_mem_eq_inter, Finset.inter_eq_right.mpr within]

theorem sum_plainSegmentsOf (block : ℕ) :
    ∑ c ∈ view.contents columns, Factors.plainSegmentsOf block (view.rowsOf columns c) =
      (view.rowCounts columns block).segs := by
  refine Finset.sum_congr rfl fun c hc => ?_
  have last := List.getLast?_eq_some_getLast (rowsOf_ne_nil hc)
  rw [Factors.plainSegmentsOf, last, lastRow, List.getLastD_eq_getLast?, last, Option.getD_some]

theorem sum_plainRunsOf (block : ℕ) :
    ∑ c ∈ view.contents columns, Factors.plainRunsOf block (view.rowsOf columns c) =
      (view.rowCounts columns block).runs := by
  have steps : ∀ c, Factors.plainRunsOf block (view.rowsOf columns c) =
      total ((view.rowsOf columns c).map fun p =>
        Factors.plainRunsAt block (view.previous? columns p, p)) := by
    intro c
    rw [Factors.plainRunsOf, steps_rowsOf, List.map_map]
    rfl
  calc ∑ c ∈ view.contents columns, Factors.plainRunsOf block (view.rowsOf columns c)
      = ∑ p ∈ view.listedRows columns,
          Factors.plainRunsAt block (view.previous? columns p, p) := by
        rw [← sum_contents]
        exact Finset.sum_congr rfl fun c _ => steps c
    _ = ∑ p ∈ view.listedRows columns,
          if p ∈ view.heads columns then 1 + view.gap columns p / block else 0 :=
        Finset.sum_congr rfl fun p listed => plainRunsAt_previous block listed
    _ = ∑ p ∈ view.heads columns, (1 + view.gap columns p / block) := by
        rw [← Finset.sum_filter, Finset.filter_mem_eq_inter, Finset.inter_eq_right.mpr]
        exact Finset.filter_subset _ _
    _ = (view.rowCounts columns block).runs := (view.runs_eq_sum columns block).symm

/-- The segments and the runs of a column subset fit 32 bits. -/
structure SumsFit (view : View) (columns : List ℕ) (block : ℕ) : Prop where
  segs : (view.rowCounts columns block).segs ≤ maxCount
  runs : (view.rowCounts columns block).runs ≤ maxCount

section Grouped

variable {groups : List TupleOffsets}
  (grouping : Bitmap.IsGrouping (Bitmap.tuplesRead view columns none) groups)
include grouping

theorem plainSegments_eq (width block : ℕ) :
    Factors.plainSegments ⟨width, groups⟩ block = (view.rowCounts columns block).segs :=
  (grouping.total_map (Factors.plainSegmentsOf block)).trans (sum_plainSegmentsOf block)

theorem plainRuns_eq (width block : ℕ) :
    Factors.plainRuns ⟨width, groups⟩ block = (view.rowCounts columns block).runs :=
  (grouping.total_map (Factors.plainRunsOf block)).trans (sum_plainRunsOf block)

theorem length_groups : groups.length = (view.contents columns).card := by
  rw [← grouping.toFinset_contents, List.toFinset_card_of_nodup grouping.nodup_contents,
    List.length_map]

theorem occurrences_groups (width : ℕ) :
    Bitmap.occurrences ⟨width, groups⟩ = (view.listedRows columns).card :=
  (grouping.total_map List.length).trans sum_length_rowsOf

theorem countP_groups :
    groups.countP (fun g => g.offsets.length == 1) = (view.onlyRows columns).card := by
  rw [countP_eq_total]
  exact (grouping.total_map fun offsets => if offsets.length == 1 then 1 else 0).trans sum_singles

/-- There are no more groups than rows, so a count numbers them all. -/
theorem length_groups_le : groups.length ≤ maxCount := by
  rw [length_groups grouping]
  exact (Finset.card_image_le.trans (view.card_listedRows_le_rows columns)).trans view.rows_le

theorem plainCounts_groups (block : ℕ) :
    Factors.plainCounts ⟨columns.length, groups⟩ true view.rows view.cols block =
      view.rowCounts columns block :=
  Factors.mk.injEq .. ▸ ⟨length_groups grouping, occurrences_groups grouping columns.length,
    plainSegments_eq grouping columns.length block, plainRuns_eq grouping columns.length block,
    countP_groups grouping, rfl, rfl, rfl⟩

/-- What is counted over the groups of a table is counted on its rows, segments and runs apart. -/
theorem eq_rowCounts_of_compute {blockSize : ℕ} {f : Factors}
    (counted : Factors.compute ⟨columns.length, groups⟩ true view.rows view.cols blockSize =
      .ok f) (block : ℕ) :
    f = { view.rowCounts columns block with segs := f.segs, runs := f.runs } := by
  have few := length_groups_le grouping
  obtain ⟨-, rfl⟩ := Factors.compute_eq_ok_iff.mp counted
  rw [← plainCounts_groups grouping, Factors.counts, Factors.plainCounts,
    Bitmap.numbered_eq_self few, Bitmap.count, low32_of_le few]

/-- Sums that fit are counted over the groups of a table as on its rows. -/
theorem compute_groups {blockSize : ℕ} (fit : view.SumsFit columns (max blockSize 1)) :
    Factors.compute ⟨columns.length, groups⟩ true view.rows view.cols blockSize =
      .ok (view.rowCounts columns (max blockSize 1)) := by
  have occurrences : Bitmap.occurrences ⟨columns.length, groups⟩ ≤ maxSize := by
    rw [occurrences_groups grouping]
    exact ((view.card_listedRows_le_rows columns).trans view.rows_le).trans (by decide)
  have fits : Factors.CountsFit ⟨columns.length, groups⟩ true (max blockSize 1) := {
    vals := length_groups_le grouping
    offs := occurrences
    segs := (plainSegments_eq grouping _ _).trans_le fit.segs
    runs := fun _ => (plainRuns_eq grouping _ _).trans_le fit.runs }
  rw [Factors.compute_of_fits fits, plainCounts_groups grouping]

end Grouped

end View

/-! ### What the exact estimator counts -/

/-- What is counted fits its counters. -/
theorem Factors.fits_of_compute {b : Bitmap} {includeRuns : Bool} {rows cols blockSize : ℕ}
    {f : Factors} (counted : compute b includeRuns rows cols blockSize = .ok f)
    (rowsFit : rows ≤ maxCount) (colsFit : cols ≤ maxCount) : f.Fits := by
  obtain ⟨held, rfl⟩ := compute_eq_ok_iff.mp counted
  have numbered : b.count ≤ maxCount := Nat.le_of_lt_succ (Nat.mod_lt _ (Nat.succ_pos maxCount))
  exact {
    vals := numbered
    offs := held.offs
    segs := held.segs
    runs := held.runs
    singles := List.countP_le_length.trans b.length_numbered_le
    rows := rowsFit
    cols := colsFit
    groupCols := Nat.le_of_lt_succ (Nat.mod_lt _ (Nat.succ_pos maxCount)) }

/-- The exact estimator prices a column subset by these factors, whatever the model. -/
def View.ExactAnswer (view : View) (blockSize : ℕ) (columns : List ℕ) (f : Factors) : Prop :=
  ∀ model, ({ view, model, blockSize } : Binding).exact.estimate columns =
    Pricing.ofFactors f model blockSize

section Exact

variable {blockSize : ℕ} {f : Factors}

/-- It does so where it extracts a bitmap whose counters hold. -/
theorem exactAnswer_iff : view.ExactAnswer blockSize columns f ↔
    ∃ b, Bitmap.extract columns view none = .ok b ∧
      Factors.compute b true view.rows view.cols blockSize = .ok f := by
  constructor
  · intro answer
    have priced : Pricing.ofFactors f (fun _ _ => .ok 0) blockSize =
        .ok ⟨f, Pricing.sizesOf (fun _ => 0) f.vals blockSize⟩ :=
      Pricing.ofFactors_of_answers fun _ _ => rfl
    obtain ⟨b, read, counted⟩ := exists_of_bind_eq_ok ((answer _).trans priced)
    obtain ⟨f', computed, price⟩ := exists_of_bind_eq_ok counted
    obtain rfl : f = f' := Pricing.factors_of_ofFactors price
    exact ⟨b, read, computed⟩
  · rintro ⟨b, read, computed⟩ model
    show Bitmap.extract columns view none >>= _ = _
    rw [read]
    show Factors.compute b true view.rows view.cols blockSize >>= _ = _
    rw [computed]
    rfl

/-- Sums that fit are what the exact estimator answers with. -/
theorem View.SumsFit.exactAnswer (fit : view.SumsFit columns (max blockSize 1))
    (subset : columns ≠ []) (inRange : ∀ column ∈ columns, column < view.cols) :
    view.ExactAnswer blockSize columns (view.rowCounts columns (max blockSize 1)) :=
  exactAnswer_iff.mpr ⟨_, Bitmap.extract_all_eq_ok subset inRange,
    View.compute_groups (Bitmap.isGrouping_ofTuples columns.length _) fit⟩

namespace View.ExactAnswer

variable (answer : view.ExactAnswer blockSize columns f)
include answer

/-- Segments and runs may be cut to 32 bits; all other factors are those of the rows. -/
theorem eq_rowCounts (block : ℕ) :
    f = { view.rowCounts columns block with segs := f.segs, runs := f.runs } := by
  obtain ⟨b, read, computed⟩ := exactAnswer_iff.mp answer
  obtain rfl := Bitmap.eq_ofTuples_of_extract read
  exact View.eq_rowCounts_of_compute (Bitmap.isGrouping_ofTuples columns.length _) computed block

theorem vals_eq : f.vals = (view.contents columns).card :=
  congrArg Factors.vals (answer.eq_rowCounts 1)

theorem offs_eq : f.offs = (view.listedRows columns).card :=
  congrArg Factors.offs (answer.eq_rowCounts 1)

theorem singles_eq : f.singles = (view.onlyRows columns).card :=
  congrArg Factors.singles (answer.eq_rowCounts 1)

theorem rows_eq : f.rows = view.rows := congrArg Factors.rows (answer.eq_rowCounts 1)

theorem cols_eq : f.cols = view.cols := congrArg Factors.cols (answer.eq_rowCounts 1)

theorem groupCols_eq : f.groupCols = low32 columns.length :=
  congrArg Factors.groupCols (answer.eq_rowCounts 1)

theorem offs_le : f.offs ≤ view.rows :=
  answer.offs_eq.trans_le (view.card_listedRows_le_rows columns)

theorem fits : f.Fits := by
  obtain ⟨b, -, computed⟩ := exactAnswer_iff.mp answer
  exact Factors.fits_of_compute computed view.rows_le view.cols_le

/-- The footprints of such factors are found for up to `2 ^ 60` cells. -/
theorem footprints (cells : f.rows * f.groupCols ≤ 2 ^ 60) :
    ({ view, blockSize } : Binding).exact.estimate columns =
      .ok (Footprint.price f blockSize) := by
  have offs : f.offs ≤ f.rows := answer.offs_le.trans answer.rows_eq.ge
  exact (answer SizeModel.footprint).trans (Pricing.ofFactors_footprint answer.fits
    (Footprint.within_table answer.fits offs cells) blockSize)

end View.ExactAnswer

end Exact

/-- **The exact estimator counts rows.** For a column subset in range and a block size for which
the segments and the runs fit 32 bits, the factors that are priced are the counts taken on the
rows, whatever prices them; up to `2 ^ 60` cells the footprints of these are found. With blocks
longer than the table the runs are the stretches of equal rows. -/
theorem exact_counts_rows (view : View) (model : SizeModel) {columns : List ℕ} {blockSize : ℕ}
    (subset : columns ≠ []) (inRange : ∀ column ∈ columns, column < view.cols)
    (positive : 1 ≤ blockSize) (segsFit : (view.rowCounts columns blockSize).segs ≤ maxCount)
    (runsFit : (view.rowCounts columns blockSize).runs ≤ maxCount) :
    let counts := view.rowCounts columns blockSize
    ({ view, model, blockSize } : Binding).exact.estimate columns =
        Pricing.ofFactors counts model blockSize ∧
      (∀ priced, ({ view, model, blockSize } : Binding).exact.estimate columns = .ok priced →
        priced.factors = counts) ∧
      (counts.rows * counts.groupCols ≤ 2 ^ 60 →
        ∃ priced, ({ view, blockSize } : Binding).exact.estimate columns = .ok priced ∧
          priced.factors = counts) ∧
      (view.rows + 1 < blockSize → counts.runs = (view.stretches columns).card) := by
  intro counts
  have fit : view.SumsFit columns (max blockSize 1) := by
    rw [Nat.max_eq_left positive]
    exact ⟨segsFit, runsFit⟩
  have answer := fit.exactAnswer subset inRange
  rw [Nat.max_eq_left positive] at answer
  exact ⟨answer model,
    fun _ priced => Pricing.factors_of_ofFactors ((answer model).symm.trans priced),
    fun cells => ⟨_, answer.footprints cells, rfl⟩, View.runs_eq_card_stretches⟩

theorem exact_counts_rows_mixed_zeros :
    (∀ column ∈ [1, 0], column < Bitmap.mixedZeros.cols) ∧
      (Bitmap.mixedZeros.rowCounts [1, 0] 7).segs ≤ maxCount ∧
      (Bitmap.mixedZeros.rowCounts [1, 0] 7).runs ≤ maxCount ∧
      let counts := Bitmap.mixedZeros.rowCounts [1, 0] 7
      ({ view := Bitmap.mixedZeros, blockSize := 7 } : Binding).exact.estimate [1, 0] =
          Pricing.ofFactors counts SizeModel.footprint 7 ∧
        (∃ priced, ({ view := Bitmap.mixedZeros, blockSize := 7 } : Binding).exact.estimate [1, 0] =
          .ok priced ∧ priced.factors = counts) ∧
        (Bitmap.mixedZeros.rows + 1 < 7 →
          counts.runs = (Bitmap.mixedZeros.stretches [1, 0]).card) := by
  have inRange : ∀ column ∈ [1, 0], column < Bitmap.mixedZeros.cols := by decide
  have segsFit : (Bitmap.mixedZeros.rowCounts [1, 0] 7).segs ≤ maxCount := by decide +kernel
  have runsFit : (Bitmap.mixedZeros.rowCounts [1, 0] 7).runs ≤ maxCount := by decide +kernel
  obtain ⟨answer, -, priced, stretches⟩ := exact_counts_rows Bitmap.mixedZeros SizeModel.footprint
    (List.cons_ne_nil _ _) inRange (by decide) segsFit runsFit
  exact ⟨inRange, segsFit, runsFit, answer, priced (by decide), stretches⟩

end Columnar
