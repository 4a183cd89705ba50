import Columnar.Score
import Columnar.Proofs.Float.Order

/-!
# Scores compare sizes

A score weighs two sizes by their ratio as floats, so three roundings lie between the sizes and the
verdict. None of them makes a ratio of at most one larger than one: what pays is smaller
(`Score.saves_of_isBeneficial`), for all sizes. For sizes of 53 bits the converse holds as well
(`Score.isBeneficial_iff`): both are floats, and a quotient above one lies more than half the way to
the next float, so rounding does not bring it down to one.
-/

namespace Columnar

/-- The next float above one. -/
theorem isRepresentable_one_add_ulp : IsRepresentable (1 + 1 / 2 ^ 52) :=
  ⟨2 ^ 52 + 1, -52, by decide, by decide, by rw [abs_of_pos (by positivity)]; norm_num⟩

/-- A number that is rounded down to one is at most half a step above it. -/
theorem IsNearest.one_lt {r q : ℚ} (nearest : IsNearest r q) (above : 1 + 1 / 2 ^ 53 < q) :
    1 < r := by
  by_contra atMost
  have closer := nearest.2 _ isRepresentable_one_add_ulp
  have nearNext : |1 + 1 / 2 ^ 52 - q| < q - 1 := abs_lt.mpr ⟨by linarith, by linarith⟩
  rw [abs_sub_comm, abs_of_nonneg (by linarith)] at closer
  linarith

namespace Score

variable {s : Score}

/-- A size does not pay for one that is no larger: conversion keeps the order of the two, and a
quotient of at most one is not rounded to more. -/
theorem not_isBeneficial_of_le (le : s.uncompressed ≤ s.compressed)
    (compressed : s.compressed ≤ maxSize) : ¬ s.isBeneficial = true := by
  unfold isBeneficial ratio
  rw [decide_eq_true_iff]
  split
  · rename_i positive
    obtain ⟨r, r', counted, -, counted', nearest', nonneg, order⟩ :=
      exists_asFloat_le le (Nat.lt_succ_of_le compressed)
    have atLeastOne : 1 ≤ r' := nearest'.ge isRepresentable_one (by exact_mod_cast positive)
    have above : 0 < r' := zero_lt_one.trans_le atLeastOne
    have atMostOne : r / r' ≤ 1 := (div_le_one above).mpr order
    have bounded : |r / r'| ≤ 2 ^ 1000 := by
      rw [abs_of_nonneg (div_nonneg nonneg above.le)]
      exact atMostOne.trans (one_le_pow₀ one_le_two)
    obtain ⟨q, denotes, nearest⟩ := exists_div counted counted' above.ne' bounded
    rw [denotes_one.lt_iff denotes]
    exact not_lt.mpr (nearest.le isRepresentable_one atMostOne)
  · decide

/-- What pays is smaller, and not nothing. -/
theorem saves_of_isBeneficial (compressed : s.compressed ≤ maxSize)
    (pays : s.isBeneficial = true) : 0 < s.compressed ∧ s.compressed < s.uncompressed := by
  constructor
  · by_contra nothing
    have even : s.ratio = 1 := if_neg nothing
    rw [isBeneficial, even] at pays
    exact absurd pays (by decide)
  · by_contra larger
    exact not_isBeneficial_of_le (Nat.le_of_not_lt larger) compressed pays

/-- A saving pays, if both sizes have at most 53 bits. -/
theorem isBeneficial_of_lt (positive : 0 < s.compressed) (saves : s.compressed < s.uncompressed)
    (uncompressed : s.uncompressed < 2 ^ 53) : s.isBeneficial = true := by
  have compressed : s.compressed < 2 ^ 53 := saves.trans uncompressed
  have above : (0 : ℚ) < s.compressed := by exact_mod_cast positive
  have bounded : |(s.uncompressed : ℚ) / s.compressed| ≤ 2 ^ 1000 := by
    rw [abs_of_nonneg (by positivity)]
    calc (s.uncompressed : ℚ) / s.compressed ≤ s.uncompressed :=
          div_le_self (Nat.cast_nonneg _) (by exact_mod_cast positive)
      _ ≤ 2 ^ 1000 := natCast_le_far uncompressed
  obtain ⟨r, denotes, nearest⟩ := exists_div (denotes_asFloat uncompressed)
    (denotes_asFloat compressed) above.ne' bounded
  have quotient : 1 + 1 / 2 ^ 53 < (s.uncompressed : ℚ) / s.compressed := by
    have atLeast : (s.compressed : ℚ) + 1 ≤ s.uncompressed := by exact_mod_cast saves
    have small : (s.compressed : ℚ) < 2 ^ 53 := by exact_mod_cast compressed
    have step : (s.compressed : ℚ) / 2 ^ 53 < 1 := (div_lt_one (by positivity)).mpr small
    rw [lt_div_iff₀ above]
    linarith
  rw [isBeneficial, decide_eq_true_iff, ratio, if_pos positive, denotes_one.lt_iff denotes]
  exact nearest.one_lt quotient

/-- **Scores of 53 bits compare the sizes.** -/
theorem isBeneficial_iff (uncompressed : s.uncompressed < 2 ^ 53)
    (compressed : s.compressed < 2 ^ 53) :
    s.isBeneficial = true ↔ 0 < s.compressed ∧ s.compressed < s.uncompressed :=
  ⟨saves_of_isBeneficial (compressed.le.trans (by decide)),
    fun saves => isBeneficial_of_lt saves.1 saves.2 uncompressed⟩

/-- **What pays saves a byte.** The ratio of two sizes of 64 bits is above one only if the
compressed size is positive and smaller than the other, and up to 53 bits exactly then. -/
theorem compares_sizes (compressed : s.compressed ≤ maxSize) :
    (s.isBeneficial = true → 0 < s.compressed ∧ s.compressed < s.uncompressed) ∧
      (s.uncompressed < 2 ^ 53 → s.compressed < 2 ^ 53 →
        (s.isBeneficial = true ↔ 0 < s.compressed ∧ s.compressed < s.uncompressed)) :=
  ⟨saves_of_isBeneficial compressed, isBeneficial_iff⟩

/-- The quotient that is closest to one. -/
theorem compares_sizes_one_byte :
    let s : Score := ⟨2 ^ 53 - 1, 2 ^ 53 - 2⟩
    s.compressed ≤ maxSize ∧ s.uncompressed < 2 ^ 53 ∧ s.compressed < 2 ^ 53 ∧
      s.isBeneficial = true := by
  intro s
  have compressed : s.compressed ≤ maxSize := by decide
  have small : s.uncompressed < 2 ^ 53 := by decide
  have small' : s.compressed < 2 ^ 53 := by decide
  have saves : 0 < s.compressed ∧ s.compressed < s.uncompressed := by decide
  exact ⟨compressed, small, small', ((compares_sizes compressed).2 small small').mpr saves⟩

/-- Beyond 53 bits a saving may not show: the larger size is rounded to the smaller one. -/
example : (⟨2 ^ 53 + 1, 2 ^ 53⟩ : Score).isBeneficial = false := by decide

end Score

end Columnar
