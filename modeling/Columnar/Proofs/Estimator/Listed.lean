import Columnar.Proofs.Estimator.ColumnPrices

/-!
# Occurrences that estimators list

The factors of an estimate fit their counters. They list no more occurrences than the table has
rows, and those of a caller's bitmap no more than the table has rows or the bitmap lists
(`Estimator.ListsWithin`). That holds of the exact estimator, and of a sample estimator because its
samples are not longer than the table and the extrapolation stays within it.
-/

namespace Columnar

variable {b : Bitmap}

/-- An estimator whose answers fit their counters and list no more than the rows of a table, or than
a caller's bitmap. -/
structure Estimator.ListsWithin (e : Estimator) (rows : ℕ) : Prop where
  columns : ∀ columns p, e.estimate columns = .ok p → p.factors.Fits ∧ p.factors.offs ≤ rows
  bitmap : ∀ b p, e.estimateBitmap b = .ok p →
    p.factors.Fits ∧ p.factors.offs ≤ max b.occurrences rows

theorem Binding.factors_of_exact {binding : Binding} {p : Pricing}
    (priced : binding.exact.estimateBitmap b = .ok p) :
    p.factors.Fits ∧ p.factors.offs ≤ b.occurrences := by
  obtain ⟨f, counted, answer⟩ := exists_of_bind_eq_ok priced
  rw [Pricing.factors_of_ofFactors answer]
  refine ⟨Factors.fits_of_compute counted binding.view.rows_le binding.view.cols_le, ?_⟩
  obtain ⟨-, rfl⟩ := Factors.compute_eq_ok_iff.mp counted
  exact b.occurrences_numbered_le

theorem Binding.listsWithin_exact {binding : Binding}
    (extracts : binding.extractor = Bitmap.extract) :
    binding.exact.ListsWithin binding.view.rows where
  columns columns p estimate := by
    obtain ⟨b, read, priced⟩ := exists_of_bind_eq_ok estimate
    rw [extracts] at read
    have listed := Bitmap.occurrences_le read
    rw [Option.getD_none, List.length_range] at listed
    obtain ⟨fits, offs⟩ := factors_of_exact priced
    exact ⟨fits, offs.trans listed⟩
  bitmap b p estimate := by
    obtain ⟨fits, offs⟩ := factors_of_exact estimate
    exact ⟨fits, offs.trans (Nat.le_max_left ..)⟩

namespace SampleEstimator

variable {s : SampleEstimator}

theorem factors_of_priceOver {sample : List ℕ} {p : Pricing}
    (priced : s.priceOver sample b = .ok p) :
    p.factors.Fits ∧ p.factors.offs ≤ max b.occurrences s.binding.view.rows := by
  obtain ⟨f, scaled, answer⟩ := exists_of_priceOver priced
  rw [Pricing.factors_of_ofFactors answer]
  exact ⟨(fits_of_extrapolate scaled s.binding.view.rows_le s.binding.view.cols_le).1,
    (offs_le_of_extrapolate scaled).trans (max_le_max_right _ b.occurrences_numbered_le)⟩

theorem ReadsTable.listsWithin (reads : ReadsTable s)
    (extracts : s.binding.extractor = Bitmap.extract) :
    s.toEstimator.ListsWithin s.binding.view.rows where
  columns columns p estimate := by
    rw [estimate_eq extracts] at estimate
    obtain ⟨b, read, priced⟩ := exists_of_bind_eq_ok estimate
    have listed := (Bitmap.occurrences_le read).trans (reads.fits columns)
    obtain ⟨fits, offs⟩ := factors_of_priceOver priced
    exact ⟨fits, offs.trans (Nat.max_le.mpr ⟨listed, le_refl _⟩)⟩
  bitmap _ _ := factors_of_priceOver

end SampleEstimator

end Columnar
