import Columnar.Proofs.Bitmap.Pattern
import Columnar.Proofs.Estimator.Orientation
import Columnar.Proofs.Table.RowCounts

/-!
# Estimates and patterns

An estimate depends on a table through the pattern of the rows that are read: which of their tuples
are listed, and which are equal (`View.SamePattern`). Extractions of one pattern have one shape, the
width and the offsets (`Bitmap.extract_shape`); and the counts, exact or of a sample, the check of
the offsets, the extrapolation and the price depend on the shape alone. So column subsets with the
same pattern are estimated alike (`estimate_of_pattern`), whether the columns come in another
order, the values are relabelled, or cells change elsewhere (`View.KeepsPattern.samePattern`).
-/

namespace Columnar

/-- Two column subsets, of one table or of two, with the same pattern in the given rows. -/
structure View.SamePattern (v : View) (columns : List ℕ) (v' : View) (columns' : List ℕ)
    (rows : List ℕ) : Prop where
  /-- The same rows hold a cell that is no zero. -/
  listed : ∀ p ∈ rows,
    (Bitmap.IsListed (v'.tuple columns' p) ↔ Bitmap.IsListed (v.tuple columns p))
  /-- The same pairs of rows hold equal tuples. -/
  same : ∀ p ∈ rows, ∀ q ∈ rows,
    (List.Forall₂ Cell.Same (v'.tuple columns' p) (v'.tuple columns' q) ↔
      List.Forall₂ Cell.Same (v.tuple columns p) (v.tuple columns q))

/-- New numbers for cells: zeros stay zeros, and other numbers stay different from them and from
each other. -/
structure Cell.Relabels (f : Float → Float) : Prop where
  zero : ∀ x, (f x == 0) = (x == 0)
  injective : ∀ x y, (x == 0) = false → (y == 0) = false → f x = f y → x = y

/-- Changes to a table, or to the columns that are asked for, that keep the pattern of some rows. -/
inductive View.KeepsPattern (v : View) (columns rows : List ℕ) : View → List ℕ → Prop
  /-- The columns come in another order. -/
  | permuted {columns' : List ℕ} (perm : columns'.Perm columns) :
      KeepsPattern v columns rows v columns'
  /-- The values of every column are relabelled. -/
  | relabelled {v' : View} (f : ℕ → Float → Float)
      (relabels : ∀ column ∈ columns, Cell.Relabels (f column))
      (get : ∀ row ∈ rows, ∀ column ∈ columns,
        (v'.get row column).value = f column (v.get row column).value) :
      KeepsPattern v columns rows v' columns
  /-- Cells change in other rows and in other columns. -/
  | elsewhere {v' : View}
      (get : ∀ row ∈ rows, ∀ column ∈ columns, v'.get row column = v.get row column) :
      KeepsPattern v columns rows v' columns

/-- Reads every row, or a sample of some size and seed that all column subsets share. -/
def Binding.shared (binding : Binding) : Option (ℕ × UInt64) → RowPlan
  | none => .everyRow binding
  | some (size, seed) => .sampled (.ofSize binding size seed)

/-! ### Changes that keep the pattern -/

section Changes

variable {v v' : View} {columns columns' rows : List ℕ} {p q : ℕ}

namespace Cell.Relabels

variable {f : Float → Float} {a a' b b' : Cell}

theorem isDefault_eq (relabels : Relabels f) (ha : a'.value = f a.value) :
    isDefault a' = isDefault a := by
  rw [isDefault, ha]
  exact relabels.zero a.value

theorem same_iff (relabels : Relabels f) (ha : a'.value = f a.value) (hb : b'.value = f b.value) :
    Same a' b' ↔ Same a b := by
  have zeroA := relabels.isDefault_eq ha
  have zeroB := relabels.isDefault_eq hb
  cases default : isDefault a with
  | true => rw [same_iff_of_isDefault default, same_iff_of_isDefault (zeroA.trans default), zeroB]
  | false =>
    rw [same_iff_of_not_isDefault default, same_iff_of_not_isDefault (zeroA.trans default), ha, hb]
    constructor
    · intro equal
      have listed : isDefault b = false := by
        rw [← zeroB, isDefault, hb, ← equal, relabels.zero]
        exact default
      exact relabels.injective _ _ default listed equal
    · exact congrArg f

end Cell.Relabels

/-- Tuples are listed and compared column by column, so the order of the columns does not matter,
and a change of single cells need only keep zeros and equality. -/
theorem View.KeepsPattern.samePattern (keeps : v.KeepsPattern columns rows v' columns') :
    v.SamePattern columns v' columns' rows := by
  cases keeps with
  | permuted perm =>
    constructor
    · intro p _
      simp only [isListed_tuple_iff, perm.mem_iff]
    · intro p _ q _
      simp only [same_tuple_iff, perm.mem_iff]
  | relabelled f relabels get =>
    constructor
    · intro p memP
      rw [isListed_tuple_iff, isListed_tuple_iff]
      refine exists_congr fun column => and_congr_right fun mem => ?_
      rw [(relabels column mem).isDefault_eq (get p memP column mem)]
    · intro p memP q memQ
      rw [same_tuple_iff, same_tuple_iff]
      refine forall₂_congr fun column mem => ?_
      exact (relabels column mem).same_iff (get p memP column mem) (get q memQ column mem)
  | elsewhere get =>
    have tuple : ∀ p ∈ rows, v'.tuple columns p = v.tuple columns p :=
      fun p mem => List.map_congr_left fun column listed => get p mem column listed
    constructor
    · intro p mem
      rw [tuple p mem]
    · intro p memP q memQ
      rw [tuple p memP, tuple q memQ]

end Changes

/-! ### Shapes -/

namespace Bitmap

/-- What a bitmap shows besides the cells of its tuples. -/
def shape (b : Bitmap) : ℕ × List (List ℕ) := (b.width, b.offsetLists)

theorem map_offsetLists (x : Except PlanError Bitmap) :
    x.map offsetLists = (x.map shape).map Prod.snd := by
  cases x <;> rfl

section Extract

variable {v v' : View} {columns columns' : List ℕ}

/-- Extractions of one pattern have one shape, or fail alike. -/
theorem extract_shape (sameRows : v'.rows = v.rows) (sameWidth : columns'.length = columns.length)
    (inRange : ∀ column ∈ columns, column < v.cols)
    (inRange' : ∀ column ∈ columns', column < v'.cols) (rows : Option (List ℕ))
    (pattern : v.SamePattern columns v' columns' (rows.getD (List.range v.rows))) :
    (extract columns' v' rows).map shape = (extract columns v rows).map shape := by
  rcases eq_or_ne columns [] with rfl | subset
  · rw [List.length_eq_zero_iff.mp sameWidth]
    rfl
  have subset' : columns' ≠ [] := by
    rw [← List.length_pos_iff, sameWidth]
    exact List.length_pos_iff.mpr subset
  cases outside : rows.bind (·.find? (v.rows ≤ ·)) with
  | some row =>
    rw [extract_of_rowOutside subset inRange outside,
      extract_of_rowOutside subset' inRange' (sameRows ▸ outside), sameRows]
  | none =>
    have selectedInRange : ∀ selected, rows = some selected →
        ∀ row ∈ selected, row < v.rows := by
      rintro selected rfl
      simpa using outside
    rw [extract_eq_ok subset inRange selectedInRange,
      extract_eq_ok subset' inRange' (sameRows ▸ selectedInRange)]
    have grouping := isGrouping_ofTuples columns.length (tuplesRead v columns rows)
    have grouping' := isGrouping_ofTuples columns'.length (tuplesRead v' columns' rows)
    rw [tuplesRead, sameRows] at grouping'
    have offsets := IsGrouping.map_offsets_congr grouping grouping' pattern.listed pattern.same
    rw [tuplesRead, tuplesRead, sameRows]
    exact congrArg Except.ok (Prod.ext sameWidth offsets)

end Extract

section Shape

variable {b b' : Bitmap} (same : b'.shape = b.shape)
include same

/-- What is taken from the offsets of each tuple. -/
theorem map_of_shape {α : Type} (f : List ℕ → α) :
    b'.tuples.map (fun t => f t.offsets) = b.tuples.map fun t => f t.offsets := by
  have lists : b'.offsetLists = b.offsetLists := congrArg Prod.snd same
  simpa [offsetLists, Function.comp_def] using congrArg (List.map f) lists

theorem count_of_shape : b'.count = b.count := by
  have length : b'.tuples.length = b.tuples.length := by
    simpa only [List.length_map] using congrArg List.length (map_of_shape same id)
  rw [count, count, length]

theorem numbered_of_shape : b'.numbered.shape = b.numbered.shape := by
  have width : b'.width = b.width := congrArg Prod.fst same
  have lists : b'.offsetLists = b.offsetLists := congrArg Prod.snd same
  simp only [shape, offsetLists, numbered, List.map_take, count_of_shape same, width]
  exact congrArg (fun lists => (b.width, lists.take b.count)) lists

theorem compute_of_shape : Factors.compute b' = Factors.compute b := by
  have width : b'.width = b.width := congrArg Prod.fst same
  have numbered := numbered_of_shape same
  have singles : (b'.numbered.tuples.countP fun t => t.offsets.length == 1) =
      b.numbered.tuples.countP fun t => t.offsets.length == 1 := by
    simpa only [List.countP_map, Function.id_comp] using
      congrArg (List.countP id) (map_of_shape numbered fun offsets => offsets.length == 1)
  have runs : ∀ block, (b'.numbered.tuples.flatMap fun t =>
      (steps t.offsets).map (Factors.runsAt block)) = b.numbered.tuples.flatMap fun t =>
        (steps t.offsets).map (Factors.runsAt block) := fun block =>
    congrArg List.flatten
      (map_of_shape numbered fun offsets => (steps offsets).map (Factors.runsAt block))
  funext includeRuns rows cols blockSize
  simp only [Factors.compute, width, singles, count_of_shape same, runs,
    map_of_shape numbered List.length, map_of_shape numbered (Factors.segmentsOf _)]

theorem collect_of_shape : SampleStats.collect b' = SampleStats.collect b := by
  have lists : b'.numbered.tuples.map (·.offsets) = b.numbered.tuples.map (·.offsets) :=
    map_of_shape (numbered_of_shape same) id
  funext sample blockSize
  simp only [SampleStats.collect, lists]

theorem outsideSample?_of_shape :
    SampleEstimator.outsideSample? b' = SampleEstimator.outsideSample? b := by
  have lasts : b'.numbered.tuples.filterMap (·.offsets.getLast?) =
      b.numbered.tuples.filterMap (·.offsets.getLast?) := by
    simpa only [List.filterMap_map, Function.id_comp] using
      congrArg (List.filterMap id) (map_of_shape (numbered_of_shape same) List.getLast?)
  funext size
  rw [SampleEstimator.outsideSample?, SampleEstimator.outsideSample?, lasts]

theorem extrapolate_of_shape : extrapolate b' = extrapolate b := by
  have width : b'.width = b.width := congrArg Prod.fst same
  funext sample rows cols blockSize
  simp only [extrapolate, compute_of_shape same, collect_of_shape same, width]

end Shape

end Bitmap

/-! ### Estimates -/

/-- Continuations that agree on what two computations have in common cannot tell them apart. -/
theorem bind_congr_of_map {ε α β γ : Type} {x y : Except ε α} {view : α → β}
    {k l : α → Except ε γ} (same : x.map view = y.map view)
    (agree : ∀ a b, view a = view b → k a = l b) : x >>= k = y >>= l := by
  cases x with
  | error failure =>
    cases y with
    | error failure' => exact congrArg Except.error (Except.error.inj same)
    | ok b => cases same
  | ok a =>
    cases y with
    | error failure' => cases same
    | ok b => exact agree a b (Except.ok.inj same)

section Estimates

variable {v v' : View} {columns columns' : List ℕ}

theorem rowsRead_shared (v : View) (model : SizeModel) (select : Selector) (blockSize : ℕ)
    (reading : Option (ℕ × UInt64)) (columns columns' : List ℕ) (sameRows : v'.rows = v.rows) :
    (Binding.shared { view := v', model, select, blockSize } reading).rowsRead columns' =
      (Binding.shared { view := v, model, select, blockSize } reading).rowsRead columns := by
  cases reading with
  | none => exact congrArg List.range sameRows
  | some draw =>
    simp only [Binding.shared, RowPlan.rowsRead, SampleEstimator.ofSize, SampleEstimator.sampleFor,
      sameRows]

section Pattern

variable (sameRows : v'.rows = v.rows) (sameCols : v'.cols = v.cols)
  (sameWidth : columns'.length = columns.length) (inRange : ∀ column ∈ columns, column < v.cols)
  (inRange' : ∀ column ∈ columns', column < v'.cols)
include sameRows sameCols sameWidth inRange inRange'

theorem exact_of_pattern (model : SizeModel) (select : Selector) (blockSize : ℕ)
    (pattern : v.SamePattern columns v' columns' (List.range v.rows)) :
    ({ view := v', model, select, blockSize } : Binding).exact.estimate columns' =
      ({ view := v, model, select, blockSize } : Binding).exact.estimate columns := by
  have shape := Bitmap.extract_shape sameRows sameWidth inRange inRange' none pattern
  simp only [Binding.exact]
  refine bind_congr_of_map shape fun b' b same => ?_
  rw [Bitmap.compute_of_shape same, sameRows, sameCols]

theorem ofSize_of_pattern (model : SizeModel) (select : Selector) (blockSize size : ℕ)
    (seed : UInt64) (pattern : v.SamePattern columns v' columns'
      (SampleEstimator.ofSize { view := v, model, select, blockSize } size seed).sample) :
    (SampleEstimator.ofSize
        { view := v', model, select, blockSize } size seed).toEstimator.estimate columns' =
      (SampleEstimator.ofSize
        { view := v, model, select, blockSize } size seed).toEstimator.estimate columns := by
  have shape := Bitmap.extract_shape sameRows sameWidth inRange inRange' (some _) pattern
  simp only [SampleEstimator.toEstimator, SampleEstimator.ofSize, SampleEstimator.sampleFor,
    sameRows] at shape ⊢
  refine bind_congr_of_map shape fun b' b same => ?_
  simp only [SampleEstimator.priceOver, Bitmap.outsideSample?_of_shape same,
    Bitmap.extrapolate_of_shape same, sameRows, sameCols]

end Pattern

/-- **Estimates depend on the pattern alone.** Two column subsets of one length, in tables of the
same dimensions, are extracted at the same offsets from every selection of rows in which they have
the same pattern; and they have the same estimate, exact or from a shared sample, if they have the
same pattern in the rows that are read. They do if the columns are only permuted, if values are
relabelled, or if cells change that are not read. -/
theorem estimate_of_pattern (sameRows : v'.rows = v.rows) (sameCols : v'.cols = v.cols)
    (sameWidth : columns'.length = columns.length) (inRange : ∀ column ∈ columns, column < v.cols)
    (inRange' : ∀ column ∈ columns', column < v'.cols) :
    (∀ rows : Option (List ℕ),
      v.SamePattern columns v' columns' (rows.getD (List.range v.rows)) →
      (Bitmap.extract columns' v' rows).map Bitmap.offsetLists =
        (Bitmap.extract columns v rows).map Bitmap.offsetLists) ∧
    ∀ (model : SizeModel) (select : Selector) (blockSize : ℕ) (reading : Option (ℕ × UInt64)),
      let here := Binding.shared { view := v, model, select, blockSize } reading
      let there := Binding.shared { view := v', model, select, blockSize } reading
      there.rowsRead columns' = here.rowsRead columns ∧
      (v.SamePattern columns v' columns' (here.rowsRead columns) ∨
          v.KeepsPattern columns (here.rowsRead columns) v' columns' →
        there.estimator.estimate columns' = here.estimator.estimate columns) := by
  constructor
  · intro rows pattern
    rw [Bitmap.map_offsetLists, Bitmap.map_offsetLists,
      Bitmap.extract_shape sameRows sameWidth inRange inRange' rows pattern]
  · intro model select blockSize reading here there
    refine ⟨rowsRead_shared v model select blockSize reading columns columns' sameRows,
      fun kept => ?_⟩
    have pattern : v.SamePattern columns v' columns' (here.rowsRead columns) :=
      kept.elim id View.KeepsPattern.samePattern
    cases reading with
    | none =>
      exact exact_of_pattern sameRows sameCols sameWidth inRange inRange' model select blockSize
        pattern
    | some draw =>
      exact ofSize_of_pattern sameRows sameCols sameWidth inRange inRange' model select blockSize
        draw.1 draw.2 pattern

/-- The rows of its second column follow the pattern of `Bitmap.mixedZeros`. -/
def fewValues : View :=
  ⟨⟨5, 2, #[1, 2, 3, 4, 5, 7, 0, 7, .ofFloat (-2), .ofFloat (-2)], rfl,
    Bitmap.mixedZeros.matrix.rows_le, Bitmap.mixedZeros.matrix.cols_le⟩, false⟩

theorem estimate_of_pattern_mixed_zeros :
    (∀ column ∈ [0, 1], column < Bitmap.mixedZeros.cols) ∧
      (∀ column ∈ [1, 1], column < fewValues.cols) ∧
      Bitmap.mixedZeros.SamePattern [0, 1] fewValues [1, 1] (List.range 5) ∧
      (Bitmap.extract [1, 1] fewValues none).map Bitmap.offsetLists =
        (Bitmap.extract [0, 1] Bitmap.mixedZeros none).map Bitmap.offsetLists ∧
      ({ view := fewValues, blockSize := 2 } : Binding).exact.estimate [1, 1] =
        ({ view := Bitmap.mixedZeros, blockSize := 2 } : Binding).exact.estimate [0, 1] := by
  have inRange : ∀ column ∈ [0, 1], column < Bitmap.mixedZeros.cols := by decide
  have inRange' : ∀ column ∈ [1, 1], column < fewValues.cols := by decide
  have pattern : Bitmap.mixedZeros.SamePattern [0, 1] fewValues [1, 1] (List.range 5) :=
    ⟨by decide +kernel, by decide +kernel⟩
  have sameRows : fewValues.rows = Bitmap.mixedZeros.rows := rfl
  have sameCols : fewValues.cols = Bitmap.mixedZeros.cols := rfl
  have sameWidth : [1, 1].length = [0, 1].length := rfl
  obtain ⟨extracted, estimated⟩ :=
    estimate_of_pattern sameRows sameCols sameWidth inRange inRange'
  exact ⟨inRange, inRange', pattern, extracted none pattern,
    (estimated .footprint Selection.seeded 2 none).2 (.inl pattern)⟩

end Estimates

end Columnar
