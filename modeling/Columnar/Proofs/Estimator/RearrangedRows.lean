import Columnar.Proofs.Estimator.ExactCounts
import Columnar.Proofs.Table.Tabulate

/-!
# Rearranged rows

When the rows of a table are rearranged, a row with the same content as before stands elsewhere, and
the offsets, the first rows and the slots of all tuples change. The contents that occur do not, nor
how many rows are listed, nor how many stand alone with their content (`View.RearrangesRows.vals`,
`offs` and `singles`). So the exact estimator counts the same in both tables but for segments and
runs, and every size that is not built on these is the same (`exact_of_rearranged_rows`). Whether
segments and runs fit their counters does depend on the order.
-/

namespace Columnar

/-- A table whose rows are those of another one, rearranged: row `p` is its row `π p`. -/
structure View.RearrangesRows (π : ℕ → ℕ) (v v' : View) : Prop where
  rows : v'.rows = v.rows
  cols : v'.cols = v.cols
  bijOn : Set.BijOn π (Set.Iio v.rows) (Set.Iio v.rows)
  get : ∀ row < v.rows, ∀ c < v.cols, v'.get row c = v.get (π row) c

/-- Factors that are the same but for segments and runs. -/
structure Factors.SameInAnyOrder (f f' : Factors) : Prop where
  vals : f'.vals = f.vals
  offs : f'.offs = f.offs
  singles : f'.singles = f.singles
  rows : f'.rows = f.rows
  cols : f'.cols = f.cols
  groupCols : f'.groupCols = f.groupCols

/-- A size is built on neither segments nor runs. -/
theorem Factors.SameInAnyOrder.sizeOf_eq {f f' : Factors} (same : f.SameInAnyOrder f')
    {e : Encoding} (notRuns : e ≠ .runLength) (notSegments : e ≠ .offsetList) :
    Footprint.sizeOf e f' = Footprint.sizeOf e f := by
  cases e with
  | runLength => exact absurd rfl notRuns
  | offsetList => exact absurd rfl notSegments
  | dict1 =>
    simp only [Footprint.sizeOf, Footprint.dictSize, same.vals, same.rows, same.groupCols]
  | dict2 =>
    simp only [Footprint.sizeOf, Footprint.dictSize, same.vals, same.rows, same.groupCols]
  | uncompressed =>
    simp only [Footprint.sizeOf, Factors.density, same.offs, same.rows, same.groupCols]

/-! ### Sets of rows that stand for each other -/

section Places

variable {π : ℕ → ℕ} {count : ℕ} {s s' : Finset ℕ}

/-- The places of the members of a set are a set of as many members. -/
theorem image_of_mem_iff (bijOn : Set.BijOn π (Set.Iio count) (Set.Iio count))
    (within : ∀ p ∈ s, p < count) (places : ∀ p, p ∈ s' ↔ p < count ∧ π p ∈ s) :
    s'.image π = s := by
  ext q
  rw [Finset.mem_image]
  constructor
  · rintro ⟨p, mem, rfl⟩
    exact ((places p).mp mem).2
  · intro mem
    obtain ⟨p, inRange, rfl⟩ := bijOn.surjOn (within q mem)
    exact ⟨p, (places p).mpr ⟨inRange, mem⟩, rfl⟩

theorem card_of_mem_iff (bijOn : Set.BijOn π (Set.Iio count) (Set.Iio count))
    (within : ∀ p ∈ s, p < count) (places : ∀ p, p ∈ s' ↔ p < count ∧ π p ∈ s) :
    s'.card = s.card := by
  rw [← image_of_mem_iff bijOn within places, Finset.card_image_of_injOn]
  exact bijOn.injOn.mono fun p mem => ((places p).mp mem).1

end Places

/-! ### Rearranged tables -/

namespace View

variable {π : ℕ → ℕ} {v v' : View} {columns : List ℕ} {p : ℕ}

/-- The table whose row `p` is row `π p` of the view. -/
def rearrangeRows (π : ℕ → ℕ) (v : View) : View :=
  ⟨.tabulate v.rows_le v.cols_le fun row c => v.get (π row) c, false⟩

/-- Every permutation of the rows rearranges a table. -/
theorem rearrangesRows_rearrangeRows (bijOn : Set.BijOn π (Set.Iio v.rows) (Set.Iio v.rows)) :
    v.RearrangesRows π (v.rearrangeRows π) where
  rows := rfl
  cols := rfl
  bijOn := bijOn
  get _ inTable _ inRange := Matrix.get_tabulate (fun row c => v.get (π row) c) inTable inRange

namespace RearrangesRows

variable (rearranges : v.RearrangesRows π v') (inRange : ∀ column ∈ columns, column < v.cols)
include rearranges inRange

theorem tuple (inTable : p < v.rows) : v'.tuple columns p = v.tuple columns (π p) :=
  List.map_congr_left fun column mem => rearranges.get p inTable column (inRange column mem)

theorem content (inTable : p < v.rows) : v'.content columns p = v.content columns (π p) :=
  congrArg (List.map Cell.normal) (rearranges.tuple inRange inTable)

theorem mem_listedRows_iff (p : ℕ) :
    p ∈ v'.listedRows columns ↔ p < v.rows ∧ π p ∈ v.listedRows columns := by
  rw [mem_listedRows, rearranges.rows]
  refine and_congr_right fun inTable => ?_
  have standsFor : π p < v.rows := rearranges.bijOn.mapsTo inTable
  rw [rearranges.tuple inRange inTable, mem_listedRows, and_iff_right standsFor]

/-- The contents that occur are the same. -/
theorem contents : v'.contents columns = v.contents columns := by
  have listed := rearranges.mem_listedRows_iff inRange
  have moved : v'.contents columns = (v'.listedRows columns).image (v.content columns ∘ π) :=
    Finset.image_congr fun p mem => rearranges.content inRange ((listed p).mp mem).1
  rw [moved, ← Finset.image_image, image_of_mem_iff rearranges.bijOn
    (fun p mem => (mem_listedRows.mp mem).1) listed, View.contents]

theorem mem_onlyRows_iff (p : ℕ) :
    p ∈ v'.onlyRows columns ↔ p < v.rows ∧ π p ∈ v.onlyRows columns := by
  simp only [onlyRows, Finset.mem_filter, rearranges.mem_listedRows_iff inRange, rearranges.rows,
    and_assoc]
  refine and_congr_right fun inTable => and_congr_right fun _ => ?_
  rw [rearranges.content inRange inTable]
  constructor
  · intro only r below same
    obtain ⟨q, inTable', rfl⟩ := rearranges.bijOn.surjOn below
    rw [only q inTable' ((rearranges.content inRange inTable').trans same)]
  · intro only q inTable' same
    rw [rearranges.content inRange inTable'] at same
    exact rearranges.bijOn.injOn inTable' inTable
      (only (π q) (rearranges.bijOn.mapsTo inTable') same)

theorem sameInAnyOrder {blockSize : ℕ} {f f' : Factors} (answer : v.ExactAnswer blockSize columns f)
    (answer' : v'.ExactAnswer blockSize columns f') : f.SameInAnyOrder f' := by
  have vals : (v'.contents columns).card = (v.contents columns).card :=
    congrArg Finset.card (rearranges.contents inRange)
  have offs : (v'.listedRows columns).card = (v.listedRows columns).card :=
    card_of_mem_iff rearranges.bijOn (fun p mem => (mem_listedRows.mp mem).1)
      (rearranges.mem_listedRows_iff inRange)
  have singles : (v'.onlyRows columns).card = (v.onlyRows columns).card :=
    card_of_mem_iff rearranges.bijOn
      (fun p mem => (mem_listedRows.mp (Finset.mem_filter.mp mem).1).1)
      (rearranges.mem_onlyRows_iff inRange)
  exact {
    vals := by rw [answer'.vals_eq, vals, answer.vals_eq]
    offs := by rw [answer'.offs_eq, offs, answer.offs_eq]
    singles := by rw [answer'.singles_eq, singles, answer.singles_eq]
    rows := by rw [answer'.rows_eq, rearranges.rows, answer.rows_eq]
    cols := by rw [answer'.cols_eq, rearranges.cols, answer.cols_eq]
    groupCols := answer'.groupCols_eq.trans answer.groupCols_eq.symm }

end RearrangesRows

end View

/-! ### Exact estimates -/

/-- **The order of the rows shows in segments and runs alone.** When the rows of a table are
rearranged, the exact estimator counts as many tuples, listed rows and tuples that occur once in any
column subset in range, and all footprints are the same but those of runs and of offset lists. It
does count in both tables if the segments and the runs of both fit 32 bits. A subset without
columns has the same answer as well, an error. -/
theorem exact_of_rearranged_rows {π : ℕ → ℕ} {v v' : View} (rearranges : v.RearrangesRows π v')
    {columns : List ℕ} (inRange : ∀ column ∈ columns, column < v.cols) (blockSize : ℕ) :
    (∀ f f', v.ExactAnswer blockSize columns f → v'.ExactAnswer blockSize columns f' →
      f.SameInAnyOrder f' ∧ ∀ e, e ≠ .runLength → e ≠ .offsetList →
        Footprint.sizeOf e f' = Footprint.sizeOf e f) ∧
    (columns ≠ [] → v.SumsFit columns (max blockSize 1) → v'.SumsFit columns (max blockSize 1) →
      ∃ f f', v.ExactAnswer blockSize columns f ∧ v'.ExactAnswer blockSize columns f') ∧
    (columns = [] → ∀ model,
      ({ view := v', model, blockSize } : Binding).exact.estimate columns =
        ({ view := v, model, blockSize } : Binding).exact.estimate columns) := by
  have inRange' : ∀ column ∈ columns, column < v'.cols := rearranges.cols.symm ▸ inRange
  refine ⟨fun f f' answer answer' => ?_, fun subset fit fit' => ?_, ?_⟩
  · have same := rearranges.sameInAnyOrder inRange answer answer'
    exact ⟨same, fun e => same.sizeOf_eq⟩
  · exact ⟨_, _, fit.exactAnswer subset inRange, fit'.exactAnswer subset inRange'⟩
  · rintro rfl model
    rfl

theorem bijOn_reverse (count : ℕ) :
    Set.BijOn (fun p => count - 1 - p) (Set.Iio count) (Set.Iio count) := by
  refine ⟨?_, ?_, ?_⟩
  · intro p (below : p < count)
    show count - 1 - p < count
    omega
  · intro p (below : p < count) q (below' : q < count) (same : count - 1 - p = count - 1 - q)
    omega
  · intro q (below : q < count)
    refine ⟨count - 1 - q, ?_, ?_⟩
    · show count - 1 - q < count
      omega
    · show count - 1 - (count - 1 - q) = q
      omega

/-- The rows from the last to the first. -/
theorem exact_of_rearranged_rows_reversed :
    let v := Bitmap.mixedZeros
    let v' := v.rearrangeRows fun p => 4 - p
    v.RearrangesRows (fun p => 4 - p) v' ∧ (∀ column ∈ [1, 0], column < v.cols) ∧
      v.SumsFit [1, 0] (max 2 1) ∧ v'.SumsFit [1, 0] (max 2 1) ∧
      ∃ f f', v.ExactAnswer 2 [1, 0] f ∧ v'.ExactAnswer 2 [1, 0] f' ∧
        f.SameInAnyOrder f' ∧ ∀ e, e ≠ .runLength → e ≠ .offsetList →
          Footprint.sizeOf e f' = Footprint.sizeOf e f := by
  intro v v'
  have rearranges : v.RearrangesRows (fun p => 4 - p) v' :=
    View.rearrangesRows_rearrangeRows (bijOn_reverse 5)
  have inRange : ∀ column ∈ [1, 0], column < v.cols := by decide
  have fit : v.SumsFit [1, 0] (max 2 1) := by constructor <;> decide +kernel
  have fit' : v'.SumsFit [1, 0] (max 2 1) := by constructor <;> decide +kernel
  obtain ⟨same, answers, -⟩ := exact_of_rearranged_rows rearranges inRange 2
  obtain ⟨f, f', answer, answer'⟩ := answers (List.cons_ne_nil _ _) fit fit'
  exact ⟨rearranges, inRange, fit, fit', f, f', answer, answer', same f f' answer answer'⟩

end Columnar
