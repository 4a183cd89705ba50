import Columnar.Proofs.Estimator.ExactCounts
import Columnar.Proofs.Sample.Checked
import Columnar.Proofs.Table.Tabulate
import Columnar.Proofs.WorkerPool

/-!
# Statistics of sampled rows

A sample selects rows of a table in increasing order. The sampled rows are a table of their own
(`RowSample.table`), and the bitmap over the sample is the bitmap of that table
(`tuplesRead_table`), so what is known of the groups of a table holds for the sample, position by
position. Neighbours in the table are recovered from the tuple that owns each position. Groups
share no position, so the owner of a position is its group (`ownerOf_eq_some`), and owners are equal
where the rows are (`ownerOf_eq_iff`). That ties the pairs of the statistics to the rows of the
table (`adjacentPairs_eq`, `continuations_eq`), and the empty runs to the steps through the sample
(`emptyRuns_eq`).
-/

namespace Columnar

/-! ### Samples -/

/-- Rows of a table in increasing order. -/
structure RowSample (view : View) where
  rows : List ℕ
  increasing : rows.Pairwise (· < ·)
  inTable : ∀ row ∈ rows, row < view.rows

namespace RowSample

variable {view : View} (s : RowSample view) {columns : List ℕ} {p q r : ℕ}

/-- The row at a position of the sample. -/
def row (p : ℕ) : ℕ := s.rows.getD p 0

theorem length_le : s.rows.length ≤ view.rows := by
  have distinct : s.rows.Nodup := s.increasing.imp Nat.ne_of_lt
  have within : s.rows ⊆ List.range view.rows :=
    fun row mem => List.mem_range.mpr (s.inTable row mem)
  simpa using (List.subperm_of_subset distinct within).length_le

/-- The table of the sampled rows. -/
def table : View :=
  ⟨.tabulate (s.length_le.trans view.rows_le) view.cols_le fun p col => view.get (s.row p) col,
    false⟩

@[simp] theorem rows_table : s.table.rows = s.rows.length := rfl

section Rows

variable {s}

theorem row_eq_getElem (inside : p < s.rows.length) : s.row p = s.rows[p] :=
  List.getD_eq_getElem _ _ inside

theorem row_mem (inside : p < s.rows.length) : s.row p ∈ s.rows := by
  rw [row_eq_getElem inside]
  exact List.getElem_mem inside

theorem exists_row_eq (mem : r ∈ s.rows) : ∃ p < s.rows.length, s.row p = r := by
  obtain ⟨p, inside, rfl⟩ := List.getElem_of_mem mem
  exact ⟨p, inside, row_eq_getElem inside⟩

theorem row_lt_row (less : p < q) (inside : q < s.rows.length) : s.row p < s.row q := by
  rw [row_eq_getElem inside, row_eq_getElem (less.trans inside)]
  exact List.pairwise_iff_getElem.mp s.increasing p q _ _ less

theorem lt_of_row_lt (less : s.row p < s.row q) (inside : p < s.rows.length) : p < q := by
  by_contra notBefore
  rcases (Nat.le_of_not_lt notBefore).eq_or_lt with rfl | after
  · exact lt_irrefl _ less
  · exact lt_asymm less (row_lt_row after inside)

theorem row_injOn : Set.InjOn s.row (Set.Iio s.rows.length) := by
  intro p inside q inside' same
  rcases lt_trichotomy p q with less | rfl | greater
  · exact absurd same (row_lt_row less inside').ne
  · rfl
  · exact absurd same (row_lt_row greater inside).ne'

/-- No position is between those of a row and of the next row of the table. -/
theorem next_of_row (inside : p < s.rows.length) (inside' : q < s.rows.length)
    (next : s.row q = s.row p + 1) : q = p + 1 := by
  have less : p < q := lt_of_row_lt (by omega) inside
  by_contra between
  have first := row_lt_row (Nat.lt_add_one p) (show p + 1 < s.rows.length by omega)
  have second := row_lt_row (show p + 1 < q by omega) inside'
  omega

end Rows

/-! ### The table of the sampled rows -/

section Table

variable {s} (inRange : ∀ column ∈ columns, column < view.cols)
include inRange

theorem tuple_table (inside : p < s.rows.length) :
    s.table.tuple columns p = view.tuple columns (s.row p) :=
  List.map_congr_left fun column mem =>
    Matrix.get_tabulate (fun p col => view.get (s.row p) col) inside (inRange column mem)

theorem content_table (inside : p < s.rows.length) :
    s.table.content columns p = view.content columns (s.row p) :=
  congrArg (List.map Cell.normal) (tuple_table inRange inside)

theorem mem_listedRows_table : p ∈ s.table.listedRows columns ↔
    p < s.rows.length ∧ s.row p ∈ view.listedRows columns := by
  rw [View.mem_listedRows, rows_table]
  refine and_congr_right fun inside => ?_
  rw [tuple_table inRange inside, View.mem_listedRows,
    and_iff_right (s.inTable _ (row_mem inside))]

/-- The bitmap over the sample is that of the table of the sampled rows. -/
theorem tuplesRead_table : Bitmap.tuplesRead s.table columns none =
    Bitmap.tuplesRead view columns (some s.rows) := by
  refine List.ext_getElem (by simp [Bitmap.tuplesRead]) fun p inside inside' => ?_
  have inSample : p < s.rows.length := by simpa [Bitmap.tuplesRead] using inside
  simp only [Bitmap.tuplesRead, Option.getD_none, Option.getD_some, List.getElem_map,
    List.getElem_range]
  rw [tuple_table inRange inSample, row_eq_getElem inSample]

end Table

/-! ### Counts taken on the sampled rows -/

variable (columns)

/-- The listed rows that are sampled together with the next row of the table. -/
def pairs : Finset ℕ := (view.listedRows columns).filter fun r => r ∈ s.rows ∧ r + 1 ∈ s.rows

/-- The positions of the first rows of these pairs. -/
def pairPositions : Finset ℕ :=
  (Finset.range (s.rows.length - 1)).filter fun p =>
    s.row (p + 1) = s.row p + 1 ∧ p ∈ s.table.listedRows columns

/-- The whole blocks of the table between a sampled row and the last earlier sampled row with the
same content, if these do not follow each other in the sample. Without an earlier one they are
counted from two rows before the table. -/
def emptyStride (block p : ℕ) : ℕ :=
  match s.table.previous? columns p with
  | none => (s.row p + 2) / block
  | some q => if p = q + 1 then 0 else (s.row p - s.row q) / block

/-- The empty block strides in front of all sampled occurrences. -/
def emptyStrides (block : ℕ) : ℕ := ∑ p ∈ s.table.listedRows columns, s.emptyStride columns block p

variable {s columns}

theorem mem_pairs : r ∈ s.pairs columns ↔
    r ∈ view.listedRows columns ∧ r ∈ s.rows ∧ r + 1 ∈ s.rows := by
  rw [pairs, Finset.mem_filter]

theorem length_pos (pair : (s.pairs columns).Nonempty) : 0 < s.rows.length := by
  obtain ⟨r, mem⟩ := pair
  exact List.length_pos_of_mem (mem_pairs.mp mem).2.1

theorem card_pairs_le : (s.pairs columns).card ≤ maxCount := by
  calc (s.pairs columns).card
      ≤ (view.listedRows columns).card := Finset.card_filter_le _ _
    _ ≤ view.rows := view.card_listedRows_le_rows columns
    _ ≤ maxCount := view.rows_le

theorem mem_pairPositions : p ∈ s.pairPositions columns ↔
    p + 1 < s.rows.length ∧ s.row (p + 1) = s.row p + 1 ∧ p ∈ s.table.listedRows columns := by
  rw [pairPositions, Finset.mem_filter, Finset.mem_range]
  exact and_congr_left fun _ => by omega

/-- Both count the same pairs, once by rows and once by positions. -/
theorem image_pairPositions (inRange : ∀ column ∈ columns, column < view.cols) :
    (s.pairPositions columns).image s.row = s.pairs columns := by
  ext r
  rw [Finset.mem_image, mem_pairs]
  constructor
  · rintro ⟨p, mem, rfl⟩
    obtain ⟨inside, next, listed⟩ := mem_pairPositions.mp mem
    have before : p < s.rows.length := (Nat.lt_add_one p).trans inside
    exact ⟨((mem_listedRows_table inRange).mp listed).2, row_mem before, next ▸ row_mem inside⟩
  · rintro ⟨listed, sampled, nextSampled⟩
    obtain ⟨p, inside, rfl⟩ := exists_row_eq sampled
    obtain ⟨q, inside', next⟩ := exists_row_eq nextSampled
    obtain rfl := next_of_row inside inside' next
    exact ⟨p, mem_pairPositions.mpr
      ⟨inside', next, (mem_listedRows_table inRange).mpr ⟨inside, listed⟩⟩, rfl⟩

theorem lt_of_mem_pairPositions (mem : p ∈ s.pairPositions columns) : p < s.rows.length :=
  (Nat.lt_add_one p).trans (mem_pairPositions.mp mem).1

theorem card_filter_pairs (inRange : ∀ column ∈ columns, column < view.cols) (P : ℕ → Prop)
    [DecidablePred P] : ((s.pairs columns).filter P).card =
      ((s.pairPositions columns).filter fun p => P (s.row p)).card := by
  rw [← image_pairPositions inRange, Finset.filter_image, Finset.card_image_of_injOn]
  exact row_injOn.mono fun p mem => lt_of_mem_pairPositions (Finset.mem_filter.mp mem).1

end RowSample

/-! ### Owners -/

namespace SampleStats

variable {lists : List (List ℕ)} {offsets : List ℕ} {size i k : ℕ}

/-- The tuple that a position belongs to. -/
def ownerOf (lists : List (List ℕ)) (size i : ℕ) : Option ℕ := (owners lists size).getD i none

theorem owners_concat (lists : List (List ℕ)) (offsets : List ℕ) (size : ℕ) :
    owners (lists ++ [offsets]) size = ownAll lists.length (owners lists size) offsets := by
  rw [owners, List.zipIdx_append, List.foldl_append, ← owners, Nat.zero_add]
  rfl

theorem size_owners (lists : List (List ℕ)) (size : ℕ) : (owners lists size).size = size := by
  induction lists using List.reverseRecOn with
  | nil => exact Array.size_replicate
  | append_singleton lists offsets ih => rw [owners_concat, size_ownAll, ih]

/-- A position belongs to the last tuple that lists it. -/
theorem ownerOf_concat (lists : List (List ℕ)) (offsets : List ℕ) (inside : i < size) :
    ownerOf (lists ++ [offsets]) size i =
      if i ∈ offsets then some lists.length else ownerOf lists size i := by
  have inBounds : i < (owners lists size).size := (size_owners lists size).symm ▸ inside
  have written := WorkerPool.getElem?_fill (fun _ => lists.length) offsets _ inBounds
  rw [ownerOf, owners_concat, Array.getD_eq_getD_getElem?]
  have filled : ownAll lists.length (owners lists size) offsets =
      WorkerPool.fill (fun _ => lists.length) offsets (owners lists size) := rfl
  rw [filled, written]
  split
  · rfl
  · rw [ownerOf, Array.getD_eq_getD_getElem?]

/-- If the tuples share no position, it belongs to the tuple that lists it. -/
theorem ownerOf_of_mem (apart : lists.Pairwise List.Disjoint) (place : lists[k]? = some offsets)
    (mem : i ∈ offsets) (inside : i < size) : ownerOf lists size i = some k := by
  induction lists using List.reverseRecOn with
  | nil => cases place
  | append_singleton lists last ih =>
    obtain ⟨front, -, others⟩ := List.pairwise_append.mp apart
    rw [ownerOf_concat lists last inside]
    rw [List.getElem?_append] at place
    split at place
    · have elsewhere : i ∉ last := fun mem' =>
        others offsets (List.mem_of_getElem? place) last List.mem_cons_self mem mem'
      rw [if_neg elsewhere, ih front place]
    · rename_i notBefore
      rw [List.getElem?_singleton] at place
      split at place
      · obtain rfl := Option.some.inj place
        rw [if_pos mem, show k = lists.length by omega]
      · cases place

theorem ownerOf_eq_none (unlisted : ∀ offsets ∈ lists, i ∉ offsets) (inside : i < size) :
    ownerOf lists size i = none := by
  induction lists using List.reverseRecOn with
  | nil => simp [ownerOf, owners, inside]
  | append_singleton lists last ih =>
    rw [ownerOf_concat lists last inside, if_neg (unlisted last (by simp))]
    exact ih fun offsets mem => unlisted offsets (List.mem_append_left _ mem)

theorem countP_range (test : ℕ → Bool) (n : ℕ) :
    (List.range n).countP test = ((Finset.range n).filter fun i => test i = true).card := by
  have distinct : ((List.range n).filter test).Nodup := List.nodup_range.filter _
  rw [List.countP_eq_length_filter, ← List.toFinset_card_of_nodup distinct, List.toFinset_filter,
    List.toFinset_range]

/-- The neighbours with a property are the positions at which a pair with it begins. -/
theorem countP_adjacent (sample : Array ℕ) (owner : Array (Option ℕ)) (test : ℕ × Option ℕ → Bool) :
    (adjacent sample owner).countP test = ((Finset.range (sample.size - 1)).filter fun i =>
      rowAt sample (i + 1) = rowAt sample i + 1 ∧
        (owner.getD i none).any (fun k => test (k, owner.getD (i + 1) none)) = true).card := by
  have counted : (adjacent sample owner).countP test = (List.range (sample.size - 1)).countP
      fun i => ((adjacentAt sample owner i).map test).getD false := List.countP_filterMap ..
  rw [counted, countP_range]
  refine congrArg Finset.card (Finset.filter_congr fun i _ => ?_)
  unfold adjacentAt
  split
  · rename_i next
    rw [and_iff_right next]
    cases owner.getD i none <;> rfl
  · rename_i apart
    exact iff_of_false Bool.false_ne_true fun both => apart both.1

end SampleStats

namespace Bitmap.IsGrouping

open SampleStats

variable {view : View} {columns : List ℕ} {groups : List TupleOffsets} {g : TupleOffsets}
  {p q k : ℕ} (grouping : IsGrouping (tuplesRead view columns none) groups)
include grouping

/-- A position belongs to its group. -/
theorem ownerOf_eq_some (place : groups[k]? = some g) (mem : p ∈ g.offsets) :
    ownerOf (groups.map (·.offsets)) view.rows p = some k := by
  have apart : (groups.map (·.offsets)).Pairwise List.Disjoint :=
    List.pairwise_map.mpr grouping.disjoint
  have placed : (groups.map (·.offsets))[k]? = some g.offsets := by
    rw [List.getElem?_map, place]
    rfl
  have listed := grouping.listed_of_mem (List.mem_of_getElem? place) mem
  exact ownerOf_of_mem apart placed mem (View.mem_listedRows.mp listed).1

theorem exists_place (listed : p ∈ view.listedRows columns) :
    ∃ (k : ℕ) (g : TupleOffsets), groups[k]? = some g ∧ p ∈ g.offsets := by
  obtain ⟨g, hg, mem⟩ := List.mem_flatMap.mp (grouping.mem_positions_iff.mpr listed)
  obtain ⟨k, place⟩ := List.getElem?_of_mem hg
  exact ⟨k, g, place, mem⟩

/-- The listed rows are those with an owner. -/
theorem ownerOf_eq_none_iff (inTable : p < view.rows) :
    ownerOf (groups.map (·.offsets)) view.rows p = none ↔ p ∉ view.listedRows columns := by
  constructor
  · intro none listed
    obtain ⟨k, g, place, mem⟩ := grouping.exists_place listed
    cases none.symm.trans (grouping.ownerOf_eq_some place mem)
  · intro unlisted
    refine ownerOf_eq_none (fun offsets mem listed => ?_) inTable
    obtain ⟨g, hg, rfl⟩ := List.mem_map.mp mem
    exact unlisted (grouping.listed_of_mem hg listed)

/-- A row has the owner of a listed row if it has its content. -/
theorem ownerOf_eq_iff (listed : p ∈ view.listedRows columns) (inTable : q < view.rows) :
    ownerOf (groups.map (·.offsets)) view.rows q = ownerOf (groups.map (·.offsets)) view.rows p ↔
      view.content columns q = view.content columns p := by
  obtain ⟨k, g, place, mem⟩ := grouping.exists_place listed
  rw [grouping.ownerOf_eq_some place mem]
  constructor
  · intro owned
    have listed' : q ∈ view.listedRows columns := by
      by_contra unlisted
      cases ((grouping.ownerOf_eq_none_iff inTable).mpr unlisted).symm.trans owned
    obtain ⟨k', g', place', mem'⟩ := grouping.exists_place listed'
    obtain rfl := Option.some.inj ((grouping.ownerOf_eq_some place' mem').symm.trans owned)
    obtain rfl := Option.some.inj (place'.symm.trans place)
    exact (grouping.together_iff listed' listed).mp ⟨_, List.mem_of_getElem? place, mem', mem⟩
  · intro alike
    have listed' := View.listed_of_same listed inTable alike
    obtain ⟨g', hg', memQ, memP⟩ := (grouping.together_iff listed' listed).mpr alike
    obtain rfl := grouping.eq_of_mem_offsets hg' (List.mem_of_getElem? place) memP mem
    exact grouping.ownerOf_eq_some place memQ

end Bitmap.IsGrouping

/-! ### What the statistics count -/

namespace RowSample

variable {view : View} {s : RowSample view} {columns : List ℕ} {groups : List TupleOffsets}

theorem rowAt_eq (s : RowSample view) (p : ℕ) : SampleStats.rowAt s.rows.toArray p = s.row p := by
  rw [SampleStats.rowAt, Array.getD_eq_getD_getElem?, List.getElem?_toArray, row,
    List.getD_eq_getElem?_getD]

theorem emptyRunsAt_eq (block p : ℕ) :
    SampleStats.emptyRunsAt s.rows.toArray block (s.table.previous? columns p, p) =
      s.emptyStride columns block p := by
  unfold emptyStride
  cases s.table.previous? columns p with
  | none => rw [SampleStats.emptyRunsAt, rowAt_eq]
  | some q => rw [SampleStats.emptyRunsAt, rowAt_eq, rowAt_eq]

section Collected

variable (inRange : ∀ column ∈ columns, column < view.cols)
  (grouping : Bitmap.IsGrouping (Bitmap.tuplesRead view columns (some s.rows)) groups)
include inRange grouping

theorem grouping_table : Bitmap.IsGrouping (Bitmap.tuplesRead s.table columns none) groups := by
  rwa [tuplesRead_table inRange]

theorem groups_ne_nil (pair : (s.pairs columns).Nonempty) : groups ≠ [] := by
  obtain ⟨r, mem⟩ := pair
  obtain ⟨listed, sampled, -⟩ := mem_pairs.mp mem
  obtain ⟨p, inside, rfl⟩ := exists_row_eq sampled
  have listed' := (mem_listedRows_table inRange).mpr ⟨inside, listed⟩
  obtain ⟨k, g, place, -⟩ := (grouping_table inRange grouping).exists_place listed'
  exact List.ne_nil_of_mem (List.mem_of_getElem? place)

/-- The neighbours with a property are the pairs of rows with it, if the property is one of their
first rows. -/
theorem countP_adjacent_eq (test : ℕ × Option ℕ → Bool) (P : ℕ → Prop) [DecidablePred P]
    (agree : ∀ p ∈ s.pairPositions columns, ∀ k,
      SampleStats.ownerOf (groups.map (·.offsets)) s.rows.length p = some k →
      (test (k, SampleStats.ownerOf (groups.map (·.offsets)) s.rows.length (p + 1)) = true ↔
        P (s.row p))) :
    (SampleStats.adjacent s.rows.toArray (SampleStats.owners (groups.map (·.offsets))
      s.rows.toArray.size)).countP test = ((s.pairs columns).filter P).card := by
  rw [SampleStats.countP_adjacent, card_filter_pairs inRange, List.size_toArray]
  refine congrArg Finset.card (Finset.ext fun p => ?_)
  rw [Finset.mem_filter, Finset.mem_filter, Finset.mem_range, rowAt_eq, rowAt_eq,
    Option.any_eq_true]
  constructor
  · rintro ⟨inFront, next, k, owned, holds⟩
    have inside : p + 1 < s.rows.length := by omega
    have listed : p ∈ s.table.listedRows columns := by
      by_contra unlisted
      have none := ((grouping_table inRange grouping).ownerOf_eq_none_iff
        ((Nat.lt_add_one p).trans inside)).mpr unlisted
      cases none.symm.trans owned
    have pair := mem_pairPositions.mpr ⟨inside, next, listed⟩
    exact ⟨pair, (agree p pair k owned).mp holds⟩
  · rintro ⟨pair, holds⟩
    obtain ⟨inside, next, listed⟩ := mem_pairPositions.mp pair
    obtain ⟨k, g, place, mem⟩ := (grouping_table inRange grouping).exists_place listed
    have owned := (grouping_table inRange grouping).ownerOf_eq_some place mem
    exact ⟨by omega, next, k, owned, (agree p pair k owned).mpr holds⟩

/-- A sum over the groups of sums over their steps is a sum over the listed positions. -/
theorem total_steps (count : Option ℕ × ℕ → ℕ) :
    total (groups.map fun g => total ((Bitmap.steps g.offsets).map count)) =
      ∑ p ∈ s.table.listedRows columns, count (s.table.previous? columns p, p) := by
  rw [(grouping_table inRange grouping).total_map fun offsets =>
    total ((Bitmap.steps offsets).map count), ← View.sum_contents]
  refine Finset.sum_congr rfl fun c _ => ?_
  rw [View.steps_rowsOf, List.map_map]
  rfl

variable (width blockSize : ℕ)

/-- No sample has more groups than there are numbers. -/
theorem collect_groups : SampleStats.collect ⟨width, groups⟩ s.rows.toArray blockSize =
    SampleStats.ofLists (groups.map (·.offsets)) s.rows.toArray blockSize :=
  SampleStats.collect_of_few (View.length_groups_le (grouping_table inRange grouping)) _ _

theorem adjacentPairs_eq :
    (SampleStats.collect ⟨width, groups⟩ s.rows.toArray blockSize).adjacentPairs =
      (s.pairs columns).card := by
  rw [collect_groups inRange grouping]
  have counted := countP_adjacent_eq inRange grouping (fun _ => true) (fun _ => True)
    fun _ _ _ _ => iff_of_true rfl trivial
  rwa [List.countP_true, Finset.filter_true] at counted

theorem continuations_eq :
    (SampleStats.collect ⟨width, groups⟩ s.rows.toArray blockSize).continuations =
      ((s.pairs columns).filter fun r =>
        view.content columns (r + 1) = view.content columns r).card := by
  rw [collect_groups inRange grouping]
  refine countP_adjacent_eq inRange grouping (fun pair => pair.2 == some pair.1) _ ?_
  intro p mem k owned
  obtain ⟨inside, next, listed⟩ := mem_pairPositions.mp mem
  have same := (grouping_table inRange grouping).ownerOf_eq_iff listed
    (show p + 1 < s.table.rows from inside)
  rw [beq_iff_eq, ← owned, ← next, ← content_table inRange inside,
    ← content_table inRange ((Nat.lt_add_one p).trans inside)]
  exact same

theorem emptyRuns_eq :
    (SampleStats.collect ⟨width, groups⟩ s.rows.toArray blockSize).emptyRuns =
      s.emptyStrides columns (max blockSize 1) := by
  have counted := total_steps inRange grouping
    (SampleStats.emptyRunsAt s.rows.toArray (max blockSize 1))
  have lists : (SampleStats.ofLists (groups.map (·.offsets)) s.rows.toArray blockSize).emptyRuns =
      total (groups.map fun g => total ((Bitmap.steps g.offsets).map
        (SampleStats.emptyRunsAt s.rows.toArray (max blockSize 1)))) :=
    congrArg total List.map_map
  rw [collect_groups inRange grouping, lists, counted]
  exact Finset.sum_congr rfl fun p _ => emptyRunsAt_eq _ p

end Collected

end RowSample

end Columnar
