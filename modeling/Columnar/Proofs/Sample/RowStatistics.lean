import Columnar.Proofs.Sample.SampledRows

/-!
# Statistics taken on the sampled rows

The statistics of a sample, counted in one pass over its positions and without a bitmap. A position
holds a tuple if its row is listed, and `earlier` are the positions before it with the same tuple.
If the last of them is the position just before, the position goes on with its tuple; if it is
another one, the tuple breaks; and unless it goes on, the rows between it and that one are measured
in blocks. `Counts` says of each statistic what it counts.

The statistics of an extracted bitmap are these (`counts_collect`): its groups are those of the
table of the sampled rows, so a sum over groups of sums over their offsets is a sum over positions,
and what a step through a group comes from is the last of the earlier positions
(`previous?_of_listed`). The shares that an extrapolation takes from them are therefore shares
(`collect_counts_rows`).
-/

namespace Columnar

namespace RowSample

/-! ### Counting by positions -/

section Positions

variable {view : View} (s : RowSample view) (columns : List ℕ)

/-- What the row at a position holds. -/
def content (p : ℕ) : List Cell := view.content columns (s.row p)

/-- The positions whose rows hold a tuple. -/
def listed : Finset ℕ :=
  (Finset.range s.rows.length).filter fun p => s.row p ∈ view.listedRows columns

/-- The different tuples that were sampled. -/
def contents : Finset (List Cell) := (s.listed columns).image (s.content columns)

/-- The positions of a tuple. -/
def positionsOf (c : List Cell) : Finset ℕ := (s.listed columns).filter (s.content columns · = c)

/-- The positions before one that hold the same tuple. -/
def earlier (p : ℕ) : Finset ℕ := (s.positionsOf columns (s.content columns p)).filter (· < p)

/-- The last earlier row with the same tuple. Without one it is two rows before the table. -/
def rowBefore (p : ℕ) : ℤ :=
  if again : (s.earlier columns p).Nonempty then s.row ((s.earlier columns p).max' again) else -2

/-- The positions whose row is the next one of the table after the row before them, if that one
holds a tuple. -/
def neighbours : Finset ℕ := (Finset.range s.rows.length).filter fun i =>
  1 ≤ i ∧ s.row i = s.row (i - 1) + 1 ∧ i - 1 ∈ s.listed columns

/-- What statistics count on the sampled rows. -/
structure Counts (block : ℕ) (stats : SampleStats) : Prop where
  /-- The sampled rows with a tuple. -/
  occurrences : stats.occurrences = (s.listed columns).card
  distinct : stats.distinct = (s.contents columns).card
  /-- The tuples with a single position. -/
  singletons : stats.singletons =
    ((s.contents columns).filter fun c => (s.positionsOf columns c).card = 1).card
  /-- The blocks up to the last row of each tuple. -/
  segments : stats.segments =
    ∑ c ∈ s.contents columns, (s.row ((s.positionsOf columns c).sup id) / block + 1)
  /-- The positions whose tuple occurs earlier, but not just before. -/
  breaks : stats.breaks = ((s.listed columns).filter fun p =>
    (s.earlier columns p).Nonempty ∧ p - 1 ∉ s.earlier columns p).card
  adjacentPairs : stats.adjacentPairs = (s.neighbours columns).card
  /-- The neighbours that hold the tuple of the row before. -/
  continuations : stats.continuations = ((s.neighbours columns).filter fun i =>
    s.content columns i = s.content columns (i - 1)).card
  /-- The whole blocks in front of the positions whose tuple does not occur just before. -/
  emptyRuns : (stats.emptyRuns : ℤ) =
    ∑ p ∈ (s.listed columns).filter fun p => p - 1 ∉ s.earlier columns p,
      (s.row p - s.rowBefore columns p) / (block : ℤ)

end Positions

/-! ### The positions of the table of the sampled rows -/

section Table

variable {view : View} {s : RowSample view} {columns : List ℕ} {p q : ℕ} {c : List Cell}

theorem mem_earlier : q ∈ s.earlier columns p ↔
    (q ∈ s.listed columns ∧ s.content columns q = s.content columns p) ∧ q < p := by
  rw [earlier, Finset.mem_filter, positionsOf, Finset.mem_filter]

theorem lt_of_mem_listed (listed : p ∈ s.listed columns) : p < s.rows.length :=
  Finset.mem_range.mp (Finset.mem_filter.mp listed).1

variable (inRange : ∀ column ∈ columns, column < view.cols)
include inRange

theorem listedRows_table : s.table.listedRows columns = s.listed columns := by
  ext p
  rw [mem_listedRows_table inRange, listed, Finset.mem_filter, Finset.mem_range]

theorem contents_table : s.table.contents columns = s.contents columns := by
  rw [View.contents, listedRows_table inRange]
  exact Finset.image_congr fun p listed => content_table inRange (lt_of_mem_listed listed)

theorem toFinset_rowsOf_table (hc : c ∈ s.table.contents columns) :
    (s.table.rowsOf columns c).toFinset = s.positionsOf columns c := by
  rw [View.toFinset_rowsOf hc, listedRows_table inRange]
  exact Finset.filter_congr fun p listed =>
    by rw [content_table inRange (lt_of_mem_listed listed), content]

/-- The step to a position comes from the last of the earlier ones. -/
theorem previous?_of_listed (listed : p ∈ s.listed columns) :
    (s.table.previous? columns p = none ∧ s.earlier columns p = ∅) ∨
      ∃ q, s.table.previous? columns p = some q ∧ IsGreatest (s.earlier columns p : Set ℕ) q := by
  have listed' := listedRows_table inRange ▸ listed
  have content := content_table (s := s) inRange (lt_of_mem_listed listed)
  have hc : s.content columns p ∈ s.table.contents columns :=
    Finset.mem_image.mpr ⟨p, listed', content⟩
  have mem : ∀ q, q ∈ s.earlier columns p ↔
      q ∈ s.table.rowsOf columns (s.content columns p) ∧ q < p := by
    intro q
    rw [earlier, Finset.mem_filter, ← toFinset_rowsOf_table inRange hc, List.mem_toFinset]
  have previous : s.table.previous? columns p =
      ((s.table.rowsOf columns (s.content columns p)).filter (· < p)).getLast? := by
    rw [View.previous?, content, RowSample.content]
  rw [previous]
  cases last : ((s.table.rowsOf columns (s.content columns p)).filter (· < p)).getLast? with
  | none =>
    refine .inl ⟨rfl, Finset.eq_empty_of_forall_notMem fun q before => ?_⟩
    obtain ⟨same, less⟩ := (mem q).mp before
    exact Nat.not_le_of_lt less (Bitmap.le_of_before_eq_none last q same)
  | some q =>
    obtain ⟨same, less, greatest⟩ := Bitmap.of_before_eq_some (View.pairwise_rowsOf _) last
    refine .inr ⟨q, rfl, (mem q).mpr ⟨same, less⟩, fun r before => ?_⟩
    obtain ⟨same', less'⟩ := (mem r).mp before
    exact greatest r same' less'

omit inRange in
/-- The last earlier position is the one just before, or that one is not among them. -/
theorem mem_earlier_pred_iff (greatest : IsGreatest (s.earlier columns p : Set ℕ) q) :
    p - 1 ∈ s.earlier columns p ↔ p = q + 1 := by
  have less : q < p := (mem_earlier.mp greatest.1).2
  constructor
  · intro before
    have le := greatest.2 before
    have less' := (mem_earlier.mp before).2
    omega
  · rintro rfl
    exact greatest.1

/-- A tuple breaks where it occurred earlier but not just before. -/
theorem isBreak_previous? (listed : p ∈ s.listed columns) :
    SampleStats.isBreak (s.table.previous? columns p, p) = true ↔
      (s.earlier columns p).Nonempty ∧ p - 1 ∉ s.earlier columns p := by
  obtain ⟨previous, first⟩ | ⟨q, previous, greatest⟩ := previous?_of_listed inRange listed
  · simp [previous, first, SampleStats.isBreak]
  · have again : (s.earlier columns p).Nonempty := ⟨q, greatest.1⟩
    rw [previous, and_iff_right again, mem_earlier_pred_iff greatest]
    simp [SampleStats.isBreak]

theorem emptyStride_of_listed (listed : p ∈ s.listed columns) (block : ℕ) :
    (s.emptyStride columns block p : ℤ) =
      if p - 1 ∉ s.earlier columns p then (s.row p - s.rowBefore columns p) / (block : ℤ)
      else 0 := by
  unfold emptyStride rowBefore
  obtain ⟨previous, first⟩ | ⟨q, previous, greatest⟩ := previous?_of_listed inRange listed
  · simp [previous, first]
  · have again : (s.earlier columns p).Nonempty := ⟨q, greatest.1⟩
    have last : (s.earlier columns p).max' again = q :=
      (Finset.isGreatest_max' _ again).unique greatest
    have less := row_lt_row (mem_earlier.mp greatest.1).2 (lt_of_mem_listed listed)
    simp only [previous, mem_earlier_pred_iff greatest, dif_pos again, last]
    split
    · rfl
    · push_cast [Nat.cast_sub less.le]
      rfl

end Table

/-! ### What the statistics of an extraction count -/

section Collected

variable {view : View} {s : RowSample view} {columns : List ℕ} {groups : List TupleOffsets}

theorem segmentsOf_eq (block : ℕ) {offsets : List ℕ} (occurs : offsets ≠ [])
    (increasing : offsets.Pairwise (· < ·)) :
    SampleStats.segmentsOf s.rows.toArray block offsets =
      s.row (offsets.toFinset.sup id) / block + 1 := by
  have last := List.getLast?_eq_some_getLast occurs
  have greatest : offsets.toFinset.sup id = offsets.getLast occurs := by
    refine le_antisymm (Finset.sup_le fun p mem => ?_) (Finset.le_sup (f := id) ?_)
    · exact Bitmap.le_of_getLast? increasing last (List.mem_toFinset.mp mem)
    · exact List.mem_toFinset.mpr (List.getLast_mem occurs)
  rw [SampleStats.segmentsOf, last, greatest, ← rowAt_eq]

theorem neighbours_eq (inRange : ∀ column ∈ columns, column < view.cols) :
    s.neighbours columns = (s.pairPositions columns).image (· + 1) := by
  ext i
  rw [neighbours, Finset.mem_filter, Finset.mem_range, Finset.mem_image]
  constructor
  · rintro ⟨inside, later, next, listed⟩
    obtain ⟨p, rfl⟩ := Nat.exists_eq_add_of_le' later
    rw [Nat.add_sub_cancel] at next listed
    exact ⟨p, mem_pairPositions.mpr ⟨inside, next, listedRows_table inRange ▸ listed⟩, rfl⟩
  · rintro ⟨p, pair, rfl⟩
    obtain ⟨inside, next, listed⟩ := mem_pairPositions.mp pair
    exact ⟨inside, Nat.le_add_left 1 p, next, listedRows_table inRange ▸ listed⟩

theorem card_filter_neighbours (inRange : ∀ column ∈ columns, column < view.cols) (P : ℕ → Prop)
    [DecidablePred P] : ((s.neighbours columns).filter P).card =
      ((s.pairPositions columns).filter fun p => P (p + 1)).card := by
  rw [neighbours_eq inRange, Finset.filter_image,
    Finset.card_image_of_injective _ (add_left_injective 1)]

variable (inRange : ∀ column ∈ columns, column < view.cols)
  (grouping : Bitmap.IsGrouping (Bitmap.tuplesRead view columns (some s.rows)) groups)
include inRange grouping

/-- A sum over the groups is a sum over the tuples. -/
theorem total_groups (count : List ℕ → ℕ) (counted : Finset ℕ → ℕ)
    (agree : ∀ offsets : List ℕ, offsets ≠ [] → offsets.Pairwise (· < ·) →
      count offsets = counted offsets.toFinset) :
    total (groups.map fun g => count g.offsets) =
      ∑ c ∈ s.contents columns, counted (s.positionsOf columns c) := by
  rw [(grouping_table inRange grouping).total_map, ← contents_table inRange]
  refine Finset.sum_congr rfl fun c hc => ?_
  rw [agree _ (View.rowsOf_ne_nil hc) (View.pairwise_rowsOf c), toFinset_rowsOf_table inRange hc]

variable (width blockSize : ℕ)

theorem breaks_eq : (SampleStats.collect ⟨width, groups⟩ s.rows.toArray blockSize).breaks =
    ((s.listed columns).filter fun p =>
      (s.earlier columns p).Nonempty ∧ p - 1 ∉ s.earlier columns p).card := by
  have counted := total_steps inRange grouping fun step => if SampleStats.isBreak step then 1 else 0
  rw [collect_groups inRange grouping]
  calc (SampleStats.ofLists (groups.map (·.offsets)) s.rows.toArray blockSize).breaks
      = total (groups.map fun g => (Bitmap.steps g.offsets).countP SampleStats.isBreak) :=
        congrArg total List.map_map
    _ = ∑ p ∈ s.listed columns,
          if SampleStats.isBreak (s.table.previous? columns p, p) then 1 else 0 := by
        rw [← listedRows_table inRange, ← counted]
        simp only [countP_eq_total]
    _ = _ := by
        rw [Finset.card_filter]
        exact Finset.sum_congr rfl fun p listed => by simp only [isBreak_previous? inRange listed]

theorem singletons_eq : (SampleStats.collect ⟨width, groups⟩ s.rows.toArray blockSize).singletons =
    ((s.contents columns).filter fun c => (s.positionsOf columns c).card = 1).card := by
  have counted := total_groups inRange grouping
    (fun offsets => if offsets.length == 1 then 1 else 0)
    (fun positions => if positions.card = 1 then 1 else 0) fun offsets _ increasing => by
      rw [List.toFinset_card_of_nodup (increasing.imp Nat.ne_of_lt)]
      simp only [beq_iff_eq]
  rw [collect_groups inRange grouping, Finset.card_filter, ← counted,
    ← countP_eq_total (fun g : TupleOffsets => g.offsets.length == 1) groups]
  exact List.countP_map

/-- **The statistics of an extracted bitmap are those of the sampled rows.** -/
theorem counts_collect : s.Counts columns (max blockSize 1)
    (SampleStats.collect ⟨width, groups⟩ s.rows.toArray blockSize) where
  occurrences := by
    rw [collect_groups inRange grouping, ← listedRows_table inRange,
      ← View.occurrences_groups (grouping_table inRange grouping) width]
    exact congrArg total List.map_map
  distinct := by
    rw [collect_groups inRange grouping, ← contents_table inRange,
      ← View.length_groups (grouping_table inRange grouping)]
    exact List.length_map _
  singletons := singletons_eq inRange grouping width blockSize
  segments := by
    have counted := total_groups inRange grouping
      (SampleStats.segmentsOf s.rows.toArray (max blockSize 1))
      (fun positions => s.row (positions.sup id) / max blockSize 1 + 1) fun _ => segmentsOf_eq _
    rw [collect_groups inRange grouping, ← counted]
    exact congrArg total List.map_map
  breaks := breaks_eq inRange grouping width blockSize
  adjacentPairs := by
    rw [adjacentPairs_eq inRange grouping, ← image_pairPositions inRange, neighbours_eq inRange,
      Finset.card_image_of_injective _ (add_left_injective 1), Finset.card_image_of_injOn]
    exact row_injOn.mono fun p => lt_of_mem_pairPositions
  continuations := by
    rw [continuations_eq inRange grouping, card_filter_pairs inRange,
      card_filter_neighbours inRange]
    refine congrArg Finset.card (Finset.filter_congr fun p pair => ?_)
    rw [← (mem_pairPositions.mp pair).2.1, Nat.add_sub_cancel]
    rfl
  emptyRuns := by
    rw [emptyRuns_eq inRange grouping, emptyStrides, listedRows_table inRange, Nat.cast_sum,
      Finset.sum_filter]
    exact Finset.sum_congr rfl fun p listed => emptyStride_of_listed inRange listed _

end Collected

/-! ### Shares -/

theorem card_filter_range_le {view : View} (s : RowSample view) (P : ℕ → Prop) [DecidablePred P] :
    ((Finset.range s.rows.length).filter P).card ≤ maxCount := by
  calc ((Finset.range s.rows.length).filter P).card
      ≤ (Finset.range s.rows.length).card := Finset.card_filter_le _ _
    _ = s.rows.length := Finset.card_range _
    _ ≤ maxCount := s.length_le.trans view.rows_le

section Shares

variable {view : View} {s : RowSample view} {columns : List ℕ} {block : ℕ} {stats : SampleStats}
  (counts : s.Counts columns block stats)
include counts

theorem Counts.continuations_le : stats.continuations ≤ stats.adjacentPairs := by
  rw [counts.continuations, counts.adjacentPairs]
  exact Finset.card_filter_le _ _

theorem Counts.occurrences_le : stats.occurrences ≤ maxCount := by
  rw [counts.occurrences]
  exact s.card_filter_range_le _

theorem Counts.adjacentPairs_le : stats.adjacentPairs ≤ maxCount := by
  rw [counts.adjacentPairs]
  exact s.card_filter_range_le _

end Shares

end RowSample

/-- A float from zero to one. -/
def IsShare (x : Float) : Prop := 0 ≤ x ∧ x ≤ 1

/-- A part of a count is a share of it, as floats. -/
theorem isShare_div {part whole : ℕ} (positive : 0 < whole) (le : part ≤ whole)
    (countable : whole ≤ maxCount) : IsShare (asFloat part / asFloat whole) := by
  obtain ⟨q, denotes, -, nonneg, atMostOne⟩ :=
    exists_share positive le (countable.trans_lt (by decide))
  exact ⟨(denotes_zero.le_iff denotes).mpr nonneg, (denotes.le_iff denotes_one).mpr atMostOne⟩

/-- **The statistics of a sampled bitmap are counts of the sampled rows.** For every column subset
in range, every block size and every sample, they count what one pass over the sampled rows counts.
So no more neighbours repeat their tuple than there are, no more occurrences break than repeat a
tuple, and both shares that an extrapolation takes are floats from zero to one. -/
theorem collect_counts_rows {view : View} (s : RowSample view) {columns : List ℕ}
    (subset : columns ≠ []) (inRange : ∀ column ∈ columns, column < view.cols) (blockSize : ℕ) :
    ∃ b, Bitmap.extract columns view (some s.rows) = .ok b ∧
      let stats := SampleStats.collect b s.rows.toArray blockSize
      s.Counts columns (max blockSize 1) stats ∧
        stats.continuations ≤ stats.adjacentPairs ∧
        stats.distinct ≤ stats.occurrences ∧
        stats.breaks ≤ stats.occurrences - stats.distinct ∧
        (0 < stats.adjacentPairs →
          IsShare (asFloat stats.continuations / asFloat stats.adjacentPairs)) ∧
        (0 < stats.occurrences - stats.distinct →
          IsShare (asFloat stats.breaks / asFloat (stats.occurrences - stats.distinct))) := by
  have rowsInRange : ∀ selected, some s.rows = some selected →
      ∀ row ∈ selected, row < view.rows := by
    rintro _ ⟨⟩
    exact s.inTable
  have read := Bitmap.extract_eq_ok subset inRange rowsInRange
  refine ⟨_, read, ?_⟩
  generalize Bitmap.ofTuples columns.length _ = b at read
  intro stats
  have counts : s.Counts columns (max blockSize 1) stats :=
    RowSample.counts_collect inRange (Bitmap.isGrouping_of_extract read) b.width blockSize
  have consistent : stats.Consistent :=
    SampleStats.consistent_collect (Bitmap.wellFormed_of_extract read) _ _
  have breaks : stats.breaks ≤ stats.occurrences - stats.distinct :=
    Nat.le_sub_of_add_le consistent.breaks
  have repeats : stats.occurrences - stats.distinct ≤ maxCount :=
    (Nat.sub_le ..).trans counts.occurrences_le
  exact ⟨counts, counts.continuations_le, consistent.occurrences, breaks,
    fun pairs => isShare_div pairs counts.continuations_le counts.adjacentPairs_le,
    fun again => isShare_div again breaks repeats⟩

/-- One tuple breaks at a row of zeros, and another one goes on. -/
theorem collect_counts_rows_mixed_zeros :
    let view := Bitmap.mixedZeros
    ∃ s : RowSample view, s.rows = [0, 1, 2, 3, 4] ∧ (∀ column ∈ [1, 0], column < view.cols) ∧
      ∃ b, Bitmap.extract [1, 0] view (some s.rows) = .ok b ∧
        let stats := SampleStats.collect b s.rows.toArray 2
        s.Counts [1, 0] 2 stats ∧ stats.breaks = 1 ∧ stats.occurrences - stats.distinct = 2 ∧
          IsShare (asFloat stats.breaks / asFloat (stats.occurrences - stats.distinct)) ∧
          stats.continuations = 1 ∧ stats.adjacentPairs = 3 ∧
          IsShare (asFloat stats.continuations / asFloat stats.adjacentPairs) := by
  intro view
  let s : RowSample view := ⟨[0, 1, 2, 3, 4], by decide, by decide⟩
  have inRange : ∀ column ∈ [1, 0], column < view.cols := by decide
  obtain ⟨b, read, counts, -, -, -, neighbours, breaks⟩ :=
    collect_counts_rows s (List.cons_ne_nil 1 [0]) inRange 2
  have occurrences := counts.occurrences.trans (by decide +kernel : (s.listed [1, 0]).card = 4)
  have distinct := counts.distinct.trans (by decide +kernel : (s.contents [1, 0]).card = 2)
  have pairs := counts.adjacentPairs.trans (by decide +kernel : (s.neighbours [1, 0]).card = 3)
  have repeats : 0 < 4 - 2 := by decide
  rw [← occurrences, ← distinct] at repeats
  refine ⟨s, rfl, inRange, b, read, counts, counts.breaks.trans (by decide +kernel), ?_,
    breaks repeats, counts.continuations.trans (by decide +kernel), pairs,
    neighbours (pairs ▸ Nat.succ_pos 2)⟩
  rw [occurrences, distinct]

end Columnar
