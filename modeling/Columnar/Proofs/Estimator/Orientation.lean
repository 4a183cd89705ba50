import Columnar.Proofs.Bitmap.Extraction
import Columnar.Proofs.Config
import Columnar.Proofs.Table.Tabulate

/-!
# Orientation

A table and its transpose, read the other way round, have the same rows, the same columns and the
same cells (`Matrix.IsTransposed.alike`). Estimators look at a table through its view only, so
bindings to views that are alike give estimators that draw the same rows and answer the same
(`RowPlan.Alike.indistinguishable`), and no plan for a table can be told from the plan for its
transpose with the orientation flipped (`indistinguishable_of_transposed`).
-/

namespace Columnar

/-- One table holds the cells of another with rows and columns swapped. -/
structure Matrix.IsTransposed (a b : Matrix) : Prop where
  rows : b.rows = a.cols
  cols : b.cols = a.rows
  get : ∀ row < a.rows, ∀ col < a.cols, b.get col row = a.get row col

/-- Views with the same dimensions and the same cells in range. -/
structure View.Alike (v w : View) : Prop where
  rows : w.rows = v.rows
  cols : w.cols = v.cols
  get : ∀ row < v.rows, ∀ col < v.cols, w.get row col = v.get row col

/-- Bindings of the default extractor to views that are alike. -/
structure Binding.Alike (here there : Binding) : Prop where
  view : here.view.Alike there.view
  extracts : here.extractor = Bitmap.extract
  extracts' : there.extractor = Bitmap.extract
  model : there.model = here.model
  select : there.select = here.select
  blockSize : there.blockSize = here.blockSize

/-- Sample estimators that differ in their bindings only, which are alike. -/
structure SampleEstimator.Alike (s s' : SampleEstimator) : Prop where
  binding : s.binding.Alike s'.binding
  size : s'.size = s.size
  seed : s'.seed = s.seed
  sample : s'.sample = s.sample
  perColumn : s'.perColumn = s.perColumn

namespace RowPlan

inductive Alike : RowPlan → RowPlan → Prop where
  | everyRow {here there : Binding} (alike : here.Alike there) :
    Alike (.everyRow here) (.everyRow there)
  | sampled {s s' : SampleEstimator} (alike : s.Alike s') : Alike (.sampled s) (.sampled s')

/-- The rows that are read for a column subset. -/
def rowsRead : RowPlan → List Nat → List Nat
  | .everyRow binding, _ => List.range binding.view.rows
  | .sampled s, columns => s.sampleFor columns

/-- Plans that no caller can tell apart. -/
structure Indistinguishable (p p' : RowPlan) : Prop where
  name : p'.estimator.name = p.estimator.name
  rows : p'.estimator.rows = p.estimator.rows
  cols : p'.estimator.cols = p.estimator.cols
  rowsRead : ∀ columns, p'.rowsRead columns = p.rowsRead columns
  estimate : ∀ columns, p'.estimator.estimate columns = p.estimator.estimate columns
  estimateBitmap : ∀ b, p'.estimator.estimateBitmap b = p.estimator.estimateBitmap b
  estimateAll : p'.estimator.estimateAll = p.estimator.estimateAll
  classify : ∀ c : Classifier, c.classify p'.estimator = c.classify p.estimator

/-- Plannings that end in plans that no caller can tell apart, or in the same failure. -/
inductive EndAlike : Except PlanError RowPlan → Except PlanError RowPlan → Prop where
  | planned {p p' : RowPlan} (same : p.Indistinguishable p') : EndAlike (.ok p) (.ok p')
  | failed (failure : PlanError) : EndAlike (.error failure) (.error failure)

end RowPlan

/-- Bindings whose estimators no caller can tell apart, of any size and seed, and for any share of
the rows. -/
structure Binding.Indistinguishable (here there : Binding) : Prop where
  exact : (RowPlan.everyRow here).Indistinguishable (.everyRow there)
  shared : ∀ size seed, (RowPlan.sampled (.ofSize here size seed)).Indistinguishable
    (.sampled (.ofSize there size seed))
  perColumn : ∀ size seed,
    (RowPlan.sampled (SampleEstimator.ofSize here size seed).withPerColumnSamples).Indistinguishable
      (.sampled (SampleEstimator.ofSize there size seed).withPerColumnSamples)
  share : ∀ rows seed ratio, RowPlan.EndAlike (RowPlan.ofRatio here rows seed ratio)
    (RowPlan.ofRatio there rows seed ratio)

/-! ### Views -/

section Views

variable {a b : Matrix} {v w : View}

def Matrix.transpose (a : Matrix) : Matrix :=
  tabulate a.cols_le a.rows_le fun row col => a.get col row

/-- Every table has a transpose. -/
theorem Matrix.isTransposed_transpose (a : Matrix) : a.IsTransposed a.transpose where
  rows := rfl
  cols := rfl
  get _ inRows _ inCols := get_tabulate (fun row col => a.get col row) inCols inRows

theorem Matrix.IsTransposed.alike (transposed : a.IsTransposed b) (t : Bool) :
    View.Alike ⟨a, t⟩ ⟨b, !t⟩ := by
  cases t with
  | false => exact ⟨transposed.cols, transposed.rows, transposed.get⟩
  | true =>
    refine ⟨transposed.rows, transposed.cols, ?_⟩
    intro row inRows col inCols
    exact transposed.get col inCols row inRows

theorem View.Alike.tuple (alike : v.Alike w) {columns : List Nat}
    (inRange : ∀ column ∈ columns, column < v.cols) :
    ∀ row < v.rows, w.tuple columns row = v.tuple columns row := by
  intro row inTable
  exact List.map_congr_left fun column mem => alike.get row inTable column (inRange column mem)

/-- Extractions find the same columns and rows in range, and the same tuples there. -/
theorem View.Alike.extract (alike : v.Alike w) (columns : List Nat) (rows : Option (List Nat)) :
    Bitmap.extract columns w rows = Bitmap.extract columns v rows := by
  rcases eq_or_ne columns [] with rfl | subset
  · rfl
  cases outside : columns.find? (v.cols ≤ ·) with
  | some column =>
    rw [Bitmap.extract_of_outside outside, Bitmap.extract_of_outside (alike.cols ▸ outside),
      alike.cols]
  | none =>
    have inRange : ∀ column ∈ columns, column < v.cols := by simpa using outside
    exact Bitmap.extract_congr alike.rows subset rfl inRange (alike.cols ▸ inRange)
      (alike.tuple inRange) rows

end Views

/-! ### Estimators -/

section Estimators

variable {here there : Binding} {s s' : SampleEstimator}

theorem Binding.Alike.exact_eq (alike : here.Alike there) : there.exact = here.exact := by
  have extract : ∀ columns, Bitmap.extract columns there.view none =
      Bitmap.extract columns here.view none := fun columns => alike.view.extract columns none
  simp only [Binding.exact, alike.extracts, alike.extracts', alike.view.rows, alike.view.cols,
    alike.model, alike.blockSize, extract]

theorem Binding.Alike.ofSize (alike : here.Alike there) (size : Nat) (seed : UInt64) :
    (SampleEstimator.ofSize here size seed).Alike (.ofSize there size seed) := by
  refine ⟨alike, ?_, rfl, ?_, rfl⟩
  · exact congrArg (min size) alike.view.rows
  · simp only [SampleEstimator.ofSize, alike.view.rows, alike.select]

namespace SampleEstimator.Alike

theorem withPerColumnSamples (alike : s.Alike s') :
    s.withPerColumnSamples.Alike s'.withPerColumnSamples :=
  ⟨alike.binding, alike.size, alike.seed, alike.sample, rfl⟩

/-- The same rows are drawn for every column subset. -/
theorem sampleFor (alike : s.Alike s') (columns : List Nat) :
    s'.sampleFor columns = s.sampleFor columns := by
  simp only [SampleEstimator.sampleFor, alike.perColumn, alike.binding.view.rows,
    alike.binding.select, alike.size, alike.seed, alike.sample]

theorem priceOver (alike : s.Alike s') (sample : List Nat) :
    s'.priceOver sample = s.priceOver sample := by
  funext b
  simp only [SampleEstimator.priceOver, alike.binding.view.rows, alike.binding.view.cols,
    alike.binding.model, alike.binding.blockSize]

theorem toEstimator_eq (alike : s.Alike s') : s'.toEstimator = s.toEstimator := by
  have binding := alike.binding
  simp only [toEstimator, binding.extracts, binding.extracts', binding.view.extract,
    binding.view.rows, binding.view.cols, alike.sampleFor, alike.priceOver, alike.sample]

end SampleEstimator.Alike

end Estimators

/-! ### Plans -/

section Plans

variable {here there : Binding} {p p' : RowPlan}

namespace RowPlan

theorem Alike.estimator_eq (alike : p.Alike p') : p'.estimator = p.estimator := by
  cases alike with
  | everyRow alike => exact alike.exact_eq
  | sampled alike => exact alike.toEstimator_eq

theorem Alike.rowsRead_eq (alike : p.Alike p') (columns : List Nat) :
    p'.rowsRead columns = p.rowsRead columns := by
  cases alike with
  | everyRow alike => exact congrArg List.range alike.view.rows
  | sampled alike => exact alike.sampleFor columns

theorem Alike.indistinguishable (alike : p.Alike p') : p.Indistinguishable p' := by
  have same := alike.estimator_eq
  constructor
  · rw [same]
  · rw [same]
  · rw [same]
  · exact alike.rowsRead_eq
  · simp [same]
  · simp [same]
  · rw [same]
  · simp [same]

/-- The share of the rows is checked before the block size, in either orientation. -/
theorem endAlike_ofRatio (alike : here.Alike there) (rows : Nat) (seed : UInt64) (ratio : Float) :
    EndAlike (ofRatio here rows seed ratio) (ofRatio there rows seed ratio) := by
  unfold ofRatio
  rw [alike.blockSize]
  split
  · exact .failed _
  · split
    · exact .failed _
    · split
      · exact .planned (Alike.everyRow alike).indistinguishable
      · exact .planned (Alike.sampled (alike.ofSize _ seed)).indistinguishable

theorem EndAlike.bind {x : Except PlanError Unit} {f g : Unit → Except PlanError RowPlan}
    (rest : ∀ u, EndAlike (f u) (g u)) : EndAlike (x >>= f) (x >>= g) := by
  cases x with
  | error failure => exact .failed failure
  | ok u => exact rest u

/-- Only the orientation of the view comes from the configuration's. -/
theorem endAlike_ofConfig {a b : Matrix} {config : Config} {fresh fresh' : UInt64}
    {select : Selector}
    (alike : Binding.Alike
      { view := ⟨a, config.transposeInput⟩, select, blockSize := config.blockSize }
      { view := ⟨b, !config.transposeInput⟩, select, blockSize := config.blockSize })
    (resolved : config.resolveSeed fresh' = config.resolveSeed fresh) :
    EndAlike (ofConfig a config fresh select)
      (ofConfig b { config with transposeInput := !config.transposeInput } fresh' select) := by
  have flipped : ({ config with transposeInput := !config.transposeInput } : Config).validate =
      config.validate := rfl
  have seeds : ({ config with transposeInput := !config.transposeInput } : Config).resolveSeed
      fresh' = config.resolveSeed fresh := resolved
  rw [ofConfig_eq, ofConfig_eq, flipped, seeds]
  apply EndAlike.bind
  intro valid
  simp only [ofValid, alike.view.rows]
  split
  · exact endAlike_ofRatio alike ..
  · exact .planned (Alike.sampled (alike.ofSize ..).withPerColumnSamples).indistinguishable

end RowPlan

theorem Binding.Alike.indistinguishable (alike : here.Alike there) :
    here.Indistinguishable there := by
  constructor
  · exact (RowPlan.Alike.everyRow alike).indistinguishable
  · intro size seed
    exact (RowPlan.Alike.sampled (alike.ofSize size seed)).indistinguishable
  · intro size seed
    exact (RowPlan.Alike.sampled (alike.ofSize size seed).withPerColumnSamples).indistinguishable
  · exact RowPlan.endAlike_ofRatio alike

/-- **Orientation is not observable.** A table read in one orientation and its transpose read in
the other give bindings whose estimators no caller can tell apart, for every size model, block size
and way of selecting rows; and the plans of a configuration with a seed, of which only the
orientation is flipped, end alike, whatever fresh seeds are offered. -/
theorem indistinguishable_of_transposed {a b : Matrix} (transposed : a.IsTransposed b)
    (select : Selector) :
    (∀ t model blockSize, Binding.Indistinguishable { view := ⟨a, t⟩, model, select, blockSize }
      { view := ⟨b, !t⟩, model, select, blockSize }) ∧
    ∀ (config : Config) (seed fresh fresh' : UInt64), config.seed = some seed →
      RowPlan.EndAlike (RowPlan.ofConfig a config fresh select) (RowPlan.ofConfig b
        { config with transposeInput := !config.transposeInput } fresh' select) := by
  have alike (t : Bool) (model : SizeModel) (blockSize : Nat) :
      Binding.Alike { view := ⟨a, t⟩, model, select, blockSize }
        { view := ⟨b, !t⟩, model, select, blockSize } :=
    ⟨transposed.alike t, rfl, rfl, rfl, rfl, rfl⟩
  constructor
  · intro t model blockSize
    exact (alike t model blockSize).indistinguishable
  · intro config seed fresh fresh' seeded
    have resolved : config.resolveSeed fresh' = config.resolveSeed fresh := by
      simp only [Config.resolveSeed, seeded, Option.getD_some]
    exact RowPlan.endAlike_ofConfig (alike config.transposeInput .footprint config.blockSize)
      resolved

theorem indistinguishable_of_transposed_mixed_zeros :
    let table := Bitmap.mixedZeros.matrix
    let config : Config := { Config.sampled 4 0.5 3 with sampleOnce := false }
    table.IsTransposed table.transpose ∧ config.seed = some 3 ∧
      Binding.Indistinguishable { view := ⟨table, true⟩, blockSize := 2 }
        { view := ⟨table.transpose, false⟩, blockSize := 2 } ∧
      RowPlan.EndAlike (RowPlan.ofConfig table config 0)
        (RowPlan.ofConfig table.transpose { config with transposeInput := true } 1) := by
  intro table config
  have transposed := table.isTransposed_transpose
  have seeded : config.seed = some 3 := rfl
  exact ⟨transposed, seeded,
    (indistinguishable_of_transposed transposed Selection.seeded).1 true .footprint 2,
    (indistinguishable_of_transposed transposed Selection.seeded).2 config 3 0 1 seeded⟩

end Plans

end Columnar
