import Columnar.Proofs.Config
import Columnar.Proofs.Estimator.ColumnPrices
import Columnar.Proofs.Float.Order

/-!
# No sample is empty

A share of the rows is a product of floats, rounded up to a count. If the share lies strictly
between zero and one and there is a row, the count is at least one and no more than there are rows
(`RowPlan.sampleSize_bounds`), for the least float above zero and for the greatest below one as
well: the product is not rounded below the share of a single row, which is a float, and not above
the number of rows, which is another. So every plan for such a share draws its samples from a table
with rows, and draws as many as it should (`RowPlan.reads_some_rows`).
-/

namespace Columnar

namespace RowPlan

variable {rows : ℕ} {ratio : Float}

/-- A share strictly between zero and one of some rows is at least one row and at most all. -/
theorem sampleSize_bounds (nonempty : 0 < rows) (countable : rows ≤ maxCount) (above : 0 < ratio)
    (below : ratio < 1) : 1 ≤ sampleSize rows ratio ∧ sampleSize rows ratio ≤ rows := by
  obtain ⟨p, share, positive, less⟩ :=
    exists_denotes_of_between denotes_zero denotes_one above below
  have small : rows < 2 ^ 53 := countable.trans_lt (by decide)
  have one : (1 : ℚ) ≤ rows := by exact_mod_cast nonempty
  have part : (rows : ℚ) * p ≤ rows := mul_le_of_le_one_right (Nat.cast_nonneg _) less.le
  have bounded : |(rows : ℚ) * p| ≤ 2 ^ 1000 := by
    rw [abs_of_nonneg (by positivity)]
    exact part.trans (natCast_le_far small)
  obtain ⟨r, denotes, nearest⟩ := exists_mul (denotes_asFloat small) share bounded
  have atLeast : p ≤ r := nearest.ge share.isRepresentable (le_mul_of_one_le_left positive.le one)
  have atMost : r ≤ rows := nearest.le (isRepresentable_natCast small) part
  have some : 0 < ⌈r⌉₊ := Nat.ceil_pos.mpr (positive.trans_le atLeast)
  have fits : ⌈r⌉₊ ≤ rows := Nat.ceil_le.mpr atMost
  have counted : sampleSize rows ratio = ⌈r⌉₊ := by
    rw [sampleSize, denotes.ceilToCount]
    exact Nat.min_eq_left (fits.trans (countable.trans (by decide)))
  rw [counted]
  exact ⟨some, fits⟩

end RowPlan

/-! ### Samples of the planned size -/

namespace SampleEstimator

variable {s : SampleEstimator} {binding : Binding} {count : ℕ}

/-- A sample estimator that reads a number of rows of its table, at least one, whatever it is
asked. As they are no more than the table has, the number is not either. -/
structure ReadsSome (s : SampleEstimator) (count : ℕ) : Prop extends ReadsTable s where
  positive : 1 ≤ count
  size : s.size = count
  /-- The sample that callers' bitmaps are over. -/
  shared : s.sample.length = count
  /-- The sample that a column subset is read on. -/
  length : ∀ columns, (s.sampleFor columns).length = count

theorem ReadsSome.count_le (reads : ReadsSome s count) : count ≤ s.binding.view.rows :=
  reads.length [] ▸ reads.fits []

theorem readsSome_ofSize (selects : binding.select.Selects) (positive : 1 ≤ count)
    (atMost : count ≤ binding.view.rows) (seed : UInt64) :
    ReadsSome (ofSize binding count seed) count := by
  have size : min count binding.view.rows = count := Nat.min_eq_left atMost
  have shared : (ofSize binding count seed).sample.length = count := by
    rw [ofSize, Selector.length_draw selects, size, size]
  exact ⟨readsTable_ofSize selects .., positive, size, shared, fun _ => shared⟩

theorem ReadsSome.withPerColumnSamples (reads : ReadsSome s count)
    (selects : s.binding.select.Selects) : ReadsSome s.withPerColumnSamples count := by
  refine ⟨reads.toReadsTable.withPerColumnSamples selects, reads.positive, reads.size,
    reads.shared, ?_⟩
  intro columns
  cases columns with
  | nil => exact (congrArg List.length s.withPerColumnSamples.sampleFor_nil).trans reads.shared
  | cons first rest =>
    show (s.binding.select.draw s.binding.view.rows s.size _).length = count
    rw [Selector.length_draw selects, reads.size, Nat.min_eq_left reads.count_le]

end SampleEstimator

namespace RowPlan

variable {ratio : Float}

/-- A share strictly between zero and one is planned as a sample. -/
theorem ofRatio_of_lt_one {binding : Binding} (above : 0 < ratio) (below : ratio < 1)
    (blockSize : 0 < binding.blockSize) (rows : ℕ) (seed : UInt64) :
    ofRatio binding rows seed ratio =
      .ok (.sampled (.ofSize binding (sampleSize rows ratio) seed)) := by
  have valid := isSamplingRatio_iff.mpr ⟨above, float_le_of_lt below⟩
  unfold ofRatio
  simp [valid, blockSize.ne', beq_eq_false_of_lt below]

/-- So is that of a configuration, and the sample is either shared or one of each column. -/
theorem ofConfig_of_lt_one {config : Config} (valid : config.IsValid)
    (below : config.samplingRatio < 1) (matrix : Matrix) (fresh : UInt64) (select : Selector) :
    let binding : Binding :=
      { view := ⟨matrix, config.transposeInput⟩, select, blockSize := config.blockSize }
    let shared := SampleEstimator.ofSize binding
      (sampleSize binding.view.rows config.samplingRatio) (config.resolveSeed fresh)
    ofConfig matrix config fresh select =
      .ok (.sampled (if config.sampleOnce then shared else shared.withPerColumnSamples)) := by
  intro binding shared
  rw [ofConfig_eq, Config.validate_of_isValid valid]
  show ofValid matrix config (config.resolveSeed fresh) select = _
  unfold ofValid
  simp only [beq_eq_false_of_lt below, Bool.false_or]
  split
  · exact ofRatio_of_lt_one valid.ratio.1 below valid.blockSize _ _
  · rfl

/-- **No sample of a table with rows is empty**, for any selector of different rows. -/
theorem reads_some_rows {ratio : Float} (above : 0 < ratio) (below : ratio < 1) :
    (∀ rows, 1 ≤ rows → rows ≤ maxCount →
      1 ≤ sampleSize rows ratio ∧ sampleSize rows ratio ≤ rows) ∧
    (∀ (binding : Binding) seed, binding.select.Selects → 1 ≤ binding.view.rows →
      0 < binding.blockSize →
        ∃ s, ofRatio binding binding.view.rows seed ratio = .ok (.sampled s) ∧
          s.binding = binding ∧ s.ReadsSome (sampleSize binding.view.rows ratio)) ∧
    ∀ (select : Selector) (matrix : Matrix) (config : Config) fresh, select.Selects →
      config.samplingRatio = ratio → config.IsValid →
        let view : View := ⟨matrix, config.transposeInput⟩
        1 ≤ view.rows →
          ∃ s, ofConfig matrix config fresh select = .ok (.sampled s) ∧ s.binding.view = view ∧
            s.perColumn = !config.sampleOnce ∧ s.ReadsSome (sampleSize view.rows ratio) := by
  have bounds : ∀ rows, 1 ≤ rows → rows ≤ maxCount →
      1 ≤ sampleSize rows ratio ∧ sampleSize rows ratio ≤ rows :=
    fun rows nonempty countable => sampleSize_bounds nonempty countable above below
  refine ⟨bounds, ?_, ?_⟩
  · intro binding seed selects nonempty blockSize
    obtain ⟨positive, atMost⟩ := bounds _ nonempty binding.view.rows_le
    exact ⟨_, ofRatio_of_lt_one above below blockSize _ _, rfl,
      SampleEstimator.readsSome_ofSize selects positive atMost seed⟩
  · rintro select matrix config fresh selects rfl valid view nonempty
    obtain ⟨positive, atMost⟩ := bounds _ nonempty view.rows_le
    let binding : Binding := { view, select, blockSize := config.blockSize }
    have reads : (SampleEstimator.ofSize binding _ (config.resolveSeed fresh)).ReadsSome _ :=
      SampleEstimator.readsSome_ofSize selects positive atMost _
    refine ⟨_, ofConfig_of_lt_one valid below matrix fresh select, ?_⟩
    cases config.sampleOnce
    · exact ⟨rfl, rfl, reads.withPerColumnSamples selects⟩
    · exact ⟨rfl, rfl, reads⟩

/-- The least float above zero, and a table with a row in either orientation. -/
theorem reads_some_rows_least_share :
    let ratio := Float.ofBits 1
    let table : Matrix := ⟨2, 1, #[0, 1], rfl, by decide, by decide⟩
    let binding : Binding := { view := ⟨table, false⟩, blockSize := 2 }
    let config : Config :=
      { Config.sampled 4 ratio 7 with transposeInput := true, sampleOnce := false }
    0 < ratio ∧ ratio < 1 ∧ 1 ≤ binding.view.rows ∧ 0 < binding.blockSize ∧ config.IsValid ∧
      (∃ s, ofRatio binding binding.view.rows 7 ratio = .ok (.sampled s) ∧ s.binding = binding ∧
        s.ReadsSome (sampleSize binding.view.rows ratio)) ∧
      ∃ s, ofConfig table config 0 = .ok (.sampled s) ∧ s.binding.view = ⟨table, true⟩ ∧
        s.perColumn = true ∧ s.ReadsSome (sampleSize 1 ratio) := by
  intro ratio table binding config
  have above : 0 < ratio := by decide
  have below : ratio < 1 := by decide
  have nonempty : 1 ≤ binding.view.rows := by decide
  have blockSize : 0 < binding.blockSize := by decide
  have valid : config.IsValid := ⟨⟨above, float_le_of_lt below⟩, by decide, by decide⟩
  obtain ⟨-, share, configured⟩ := reads_some_rows above below
  have selects := Selection.selects_seeded
  exact ⟨above, below, nonempty, blockSize, valid, share binding 7 selects nonempty blockSize,
    configured _ table config 0 selects rfl valid le_rfl⟩

/-- The greatest float below one, of the longest table. -/
example : sampleSize maxCount (Float.ofBits 0x3fefffffffffffff) = maxCount := by decide

end RowPlan

end Columnar
