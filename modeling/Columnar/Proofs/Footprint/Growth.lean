import Columnar.Proofs.Estimator.Listed
import Columnar.Proofs.Footprint.Sizes

/-!
# Growth of footprints

The size of an encoded group does not fall when counts grow (`encoded_sizes_grow`). No part of the
exact size does (`exactSize_le_exactSize`): neither the arrays, nor a dictionary that has no size
above its limit. A size is cut at `maxSize`, which keeps the order, as long as the padding of every
array fits 64 bits. The bound of `2 ^ 62` on what is listed sees to that, and the factors of
estimators stay below it.
-/

namespace Columnar

/-- No count of `f` from which encoded groups are priced is larger than that of `g`. -/
structure Factors.AtMost (f g : Factors) : Prop where
  vals : f.vals ≤ g.vals
  offs : f.offs ≤ g.offs
  segs : f.segs ≤ g.segs
  runs : f.runs ≤ g.runs
  rows : f.rows ≤ g.rows
  groupCols : f.groupCols ≤ g.groupCols

namespace Footprint

variable {a b c d : ℕ} {f g : Factors}

/-! ### Exact sizes -/

@[gcongr]
theorem exactArray_le_exactArray (lengths : a ≤ b) (elements : c ≤ d) :
    exactArray a c ≤ exactArray b d := by
  unfold exactArray
  gcongr

@[gcongr]
theorem exactValues_le_exactValues (columns : a ≤ b) (tuples : c ≤ d) :
    exactValues a c ≤ exactValues b d := by
  unfold exactValues exactOverhead
  gcongr

theorem exactDict_le_exactDict (le : f.AtMost g) (most : ℕ) (codes : c ≤ d) :
    exactDict most c f ≤ exactDict most d g := by
  obtain ⟨vals, -, -, -, rows, groupCols⟩ := le
  unfold exactDict
  by_cases beyond : most < g.vals
  · rw [if_pos beyond]
    exact le_top
  · rw [if_neg beyond, if_neg (by omega), Nat.cast_le]
    gcongr

theorem exactLists_le_exactLists (le : f.AtMost g) (numbers : a ≤ b) :
    exactLists a f ≤ exactLists b g := by
  obtain ⟨vals, -, -, -, -, groupCols⟩ := le
  unfold exactLists
  gcongr

/-- **Exact sizes do not fall when counts grow.** -/
theorem exactSize_le_exactSize (le : f.AtMost g) {e : Encoding} (encoded : e ≠ .uncompressed) :
    exactSize e f ≤ exactSize e g := by
  cases e with
  | dict1 => exact exactDict_le_exactDict le _ le_rfl
  | dict2 => exact exactDict_le_exactDict le _ le_rfl
  | runLength =>
    exact Nat.cast_le.mpr (exactLists_le_exactLists le (Nat.mul_le_mul_left 2 le.runs))
  | offsetList =>
    exact Nat.cast_le.mpr (exactLists_le_exactLists le (Nat.add_le_add le.offs le.segs))
  | uncompressed => exact absurd rfl encoded

/-- Sizes that are found and ordered, up to `maxSize`. -/
theorem exists_sizes_le (le : f.AtMost g) (fFits : f.Fits) (gFits : g.Fits)
    (listed : (g.offs + g.segs) * 2 + 3 ≤ maxSize) {e : Encoding} (encoded : e ≠ .uncompressed) :
    ∃ size size', sizeOf e f = .ok size ∧ sizeOf e g = .ok size' ∧ size ≤ size' ∧
      size' ≤ maxSize := by
  have offs := le.offs
  have segs := le.segs
  exact ⟨_, _, sizeOf_eq fFits (within_of_encoded encoded (by omega)),
    sizeOf_eq gFits (within_of_encoded encoded listed),
    cut_le_cut (exactSize_le_exactSize le encoded), cut_le _⟩

end Footprint

/-- **Encoded groups do not get cheaper when counts grow.** For factors of which no count is larger
in the first, and that list fewer than `2 ^ 62` occurrences and segments, each size of an encoding
is found in 64 bits and is no larger for the first; `maxSize` is the largest of all. What estimators
price stays below that bound, whatever rows they select, for column subsets and for bitmaps of fewer
than `2 ^ 61` occurrences. -/
theorem Footprint.encoded_sizes_grow {f g : Factors} (le : f.AtMost g) (fFits : f.Fits)
    (gFits : g.Fits) (listed : g.offs + g.segs < 2 ^ 62) :
    (∀ e, e ≠ Encoding.uncompressed →
      ∃ size size', sizeOf e f = .ok size ∧ sizeOf e g = .ok size' ∧ size ≤ size' ∧
        size' ≤ maxSize) ∧
      ∀ (view : View) (model : SizeModel) (select : Selector) (blockSize size : ℕ) (seed : UInt64),
        select.Selects →
        let binding : Binding := { view, model, select, blockSize }
        let sampled := SampleEstimator.ofSize binding size seed
        ∀ e ∈ [binding.exact, sampled.toEstimator, sampled.withPerColumnSamples.toEstimator],
          ∀ p, (∃ columns, e.estimate columns = .ok p) ∨
              (∃ b, b.occurrences < 2 ^ 61 ∧ e.estimateBitmap b = .ok p) →
            p.factors.offs + p.factors.segs < 2 ^ 62 := by
  refine ⟨fun e encoded => ?_, ?_⟩
  · have near : 2 ^ 62 * 2 + 3 ≤ maxSize := by decide
    exact exists_sizes_le le fFits gFits (by omega) encoded
  · intro view model select blockSize size seed selects binding sampled e mem p found
    have reads : sampled.ReadsTable := SampleEstimator.readsTable_ofSize selects ..
    have lists : e.ListsWithin view.rows := by
      simp only [List.mem_cons, List.not_mem_nil, or_false] at mem
      rcases mem with rfl | rfl | rfl
      · exact Binding.listsWithin_exact rfl
      · exact reads.listsWithin rfl
      · exact (reads.withPerColumnSamples selects).listsWithin rfl
    have rows := view.rows_le
    rcases found with ⟨columns, estimate⟩ | ⟨b, few, estimate⟩
    · obtain ⟨fits, offs⟩ := lists.columns columns p estimate
      have segs := fits.segs
      simp only [maxCount] at segs rows
      omega
    · obtain ⟨fits, offs⟩ := lists.bitmap b p estimate
      have segs := fits.segs
      simp only [maxCount] at segs rows
      omega

/-- Ten and three hundred different values in a thousand rows. -/
theorem Footprint.encoded_sizes_grow_past_limit :
    let f : Factors := ⟨10, 500, 10, 50, 0, 1000, 1, 1⟩
    let g : Factors := ⟨300, 500, 300, 500, 0, 1000, 1, 1⟩
    f.AtMost g ∧ f.Fits ∧ g.Fits ∧ g.offs + g.segs < 2 ^ 62 ∧
      ∃ size, sizeOf .dict1 f = .ok size ∧ size ≤ maxSize ∧ sizeOf .dict1 g = .ok maxSize := by
  intro f g
  have le : f.AtMost g := by constructor <;> decide
  have fFits : f.Fits := by constructor <;> decide
  have gFits : g.Fits := by constructor <;> decide
  have listed : g.offs + g.segs < 2 ^ 62 := by decide
  obtain ⟨sizes, -⟩ := encoded_sizes_grow le fFits gFits listed
  obtain ⟨size, size', found, found', grows, most⟩ := sizes .dict1 (by decide)
  exact ⟨le, fFits, gFits, listed, size, found, grows.trans most, by decide⟩

end Columnar
