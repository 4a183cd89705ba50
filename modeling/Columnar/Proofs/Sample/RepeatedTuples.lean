import Columnar.Proofs.Bitmap.Extraction
import Columnar.Proofs.Counters
import Columnar.Proofs.Footprint
import Columnar.Proofs.Sample.ScaleUpBounds

/-!
# Samples in which every tuple repeats

The different tuples of a table are estimated from those that were sampled once. If there are none,
no occurrence is new, whatever share of the table has been sampled: the float operations on the way
come to zero and to one exactly, so the estimate is what the sample shows
(`estimatedValues_of_repeated`). A sample whose tuples cover every row stands for a table that they
cover; the share of the sample is rounded, and a count divided by it is rounded again, but not so
far that the rows of the table are missed (`roundToCount_div_share`).
-/

namespace Columnar

/-! ### A count over its share -/

/-- **A count divided by its share in the rows is the rows**, though both quotients are rounded. -/
theorem roundToCount_div_share {part rows : ℕ} (positive : 0 < part) (le : part ≤ rows)
    (countable : rows ≤ maxCount) :
    roundToCount (asFloat part / (asFloat part / asFloat rows)) = rows := by
  have small : rows < 2 ^ 53 := countable.trans_lt (by decide)
  have onePart : (1 : ℚ) ≤ part := by exact_mod_cast positive
  have above : (0 : ℚ) < rows := by exact_mod_cast positive.trans_le le
  have most : (rows : ℚ) ≤ 2 ^ 32 := by exact_mod_cast countable.trans (by decide)
  have shareFar : (2 : ℚ) ^ (-1000 : ℤ) ≤ part / rows := by
    rw [le_div_iff₀ above]
    calc (2 : ℚ) ^ (-1000 : ℤ) * rows ≤ 2 ^ (-32 : ℤ) * 2 ^ 32 := by
          gcongr
          · exact one_le_two
          · decide
      _ = 1 := by norm_num
      _ ≤ part := onePart
  obtain ⟨share, denotes, nearest, -, atMostOne⟩ := exists_share (positive.trans_le le) le small
  have error := nearest.error_le shareFar
  have positiveShare : 0 < share := by
    have := (abs_le.mp error).1
    have : (0 : ℚ) < part / rows := by positivity
    linarith
  -- the quotient by the rounded share is as close to the rows as the rounded share to the exact one
  have quotient : |(rows : ℚ) - part / share| ≤ part / share / 2 ^ 52 := by
    have turned : (rows : ℚ) - part / share = (share - part / rows) * (rows / share) := by
      field_simp
    rw [turned, abs_mul, abs_of_pos (show (0 : ℚ) < rows / share by positivity)]
    calc |share - part / rows| * (rows / share) ≤ part / rows / 2 ^ 52 * (rows / share) := by
          gcongr
      _ = part / share / 2 ^ 52 := by field_simp
  have atLeastOne : (1 : ℚ) ≤ part / share :=
    onePart.trans (le_div_self (by linarith) positiveShare atMostOne)
  have double : part / share ≤ 2 * rows := by
    have := (abs_le.mp quotient).1
    linarith
  obtain ⟨estimate, denotes', nearest'⟩ := exists_div (denotes_asFloat (le.trans_lt small)) denotes
    positiveShare.ne' (by
      rw [abs_of_nonneg (by linarith)]
      calc part / share ≤ 2 ^ 33 := by linarith
        _ ≤ 2 ^ 1000 := pow_le_pow_right₀ one_le_two (by decide))
  have error' := nearest'.error_le
    ((zpow_le_one_of_nonpos₀ one_le_two (by decide)).trans atLeastOne)
  refine roundToCount_of_close denotes' ?_ (countable.trans (by decide))
  calc |estimate - rows| ≤ |estimate - part / share| + |part / share - rows| := abs_sub_le ..
    _ ≤ 2 * (part / share / 2 ^ 52) := by
        rw [abs_sub_comm (part / share : ℚ)]
        linarith
    _ < 1 / 2 := by linarith

/-! ### The estimates -/

namespace SampleStats

variable {s : SampleStats} {offsets rows : ℕ}

theorem denotes_known (none : s.singletons = 0) (occurs : 0 < s.occurrences)
    (sampled : s.occurrences ≤ offsets) (small : offsets < 2 ^ 53) :
    Denotes (1 - (1 - asFloat s.occurrences / asFloat offsets) * asFloat s.singletons /
      asFloat s.occurrences) 1 := by
  obtain ⟨seen, denotes, -, nonneg, atMostOne⟩ :=
    exists_share (occurs.trans_le sampled) sampled small
  obtain ⟨new, denotesNew, -⟩ := exists_sub denotes_one denotes (by
    rw [abs_of_nonneg (by linarith)]
    exact (by linarith : 1 - seen ≤ 1).trans (one_le_pow₀ one_le_two))
  have zero : Denotes (asFloat s.singletons) 0 := none ▸ denotes_asFloat_zero
  have count : Denotes (asFloat s.occurrences) s.occurrences :=
    denotes_asFloat (sampled.trans_lt small)
  have missing := denotes_zero_div (denotes_mul_zero denotesNew zero) count
    (by exact_mod_cast occurs.ne')
  exact denotes_sub_zero denotes_one missing (abs_one.trans_le (one_le_pow₀ one_le_two))

/-- **Without tuples that were sampled once, the different tuples are those of the sample.** -/
theorem estimatedValues_of_repeated (none : s.singletons = 0) (occurs : 0 < s.occurrences)
    (distinct : s.distinct ≤ s.occurrences) (sampled : s.occurrences ≤ offsets)
    (small : offsets < 2 ^ 53) (rows : ℕ) : s.estimatedValues offsets rows = s.distinct := by
  have known := denotes_known none occurs sampled small
  have below : s.distinct < 2 ^ 53 := (distinct.trans sampled).trans_lt small
  have values := denotes_div_one (denotes_asFloat below) known (by
    rw [abs_of_nonneg (Nat.cast_nonneg _)]
    exact natCast_le_far below)
  have rounded := roundToCount_of_denotes values (below.le.trans (by decide))
  have positive := (denotes_zero.lt_iff known).mpr one_pos
  simp only [estimatedValues]
  rw [if_pos positive, rounded, clampCount]
  omega

theorem estimatedSingles_of_repeated (none : s.singletons = 0) (distinct : 0 < s.distinct)
    {values : ℕ} (few : s.distinct < 2 ^ 53) (small : values < 2 ^ 53) :
    s.estimatedSingles values = 0 := by
  have zero : Denotes (asFloat s.singletons) 0 := none ▸ denotes_asFloat_zero
  have ratio := denotes_zero_div (denotes_zero_mul zero (denotes_asFloat small))
    (denotes_asFloat few) (by exact_mod_cast distinct.ne')
  rw [estimatedSingles, roundToCount_of_zero ratio, Nat.zero_min]

theorem estimatedOffsets_of_full {sampleSize : ℕ} (full : s.occurrences = sampleSize)
    (positive : 0 < sampleSize) (smaller : sampleSize ≤ rows) (countable : rows ≤ maxCount) :
    s.estimatedOffsets sampleSize rows = rows := by
  simp only [estimatedOffsets]
  rw [full, roundToCount_div_share positive smaller countable, clampCount]
  omega

/-! ### What the sample shows -/

section Collect

variable {b : Bitmap} (repeated : ∀ t ∈ b.tuples, 2 ≤ t.offsets.length)
include repeated

theorem length_le_of_repeated : b.tuples.length ≤ b.occurrences :=
  length_le_total_map fun t ht => one_le_two.trans (repeated t ht)

variable (few : b.tuples.length ≤ maxCount) (sample : Array ℕ) (blockSize : ℕ)
include few

theorem singletons_of_repeated : (collect b sample blockSize).singletons = 0 := by
  rw [collect_of_few few]
  refine List.countP_eq_zero.mpr fun offsets mem => ?_
  obtain ⟨t, ht, rfl⟩ := List.mem_map.mp mem
  rw [beq_iff_eq]
  exact (Nat.lt_of_succ_le (repeated t ht)).ne'

/-- The segments reach up to the last sampled row of each tuple. -/
theorem segments_of_repeated : (collect b sample blockSize).segments =
    total (b.tuples.map fun t =>
      sample.getD (t.offsets.getLastD 0) 0 / max blockSize 1 + 1) := by
  rw [collect_of_few few]
  simp only [ofLists, List.map_map]
  refine congrArg total (List.map_congr_left fun t ht => ?_)
  have occurs : t.offsets ≠ [] :=
    List.ne_nil_of_length_pos (Nat.zero_lt_of_lt (repeated t ht))
  rw [Function.comp_apply, segmentsOf, List.getLastD_eq_getLast?,
    List.getLast?_eq_some_getLast occurs]
  rfl

end Collect

end SampleStats

/-! ### Bitmaps over a sample -/

namespace Bitmap

variable {b : Bitmap} {size : ℕ}

theorem length_positions (b : Bitmap) : (positions b.tuples).length = b.occurrences :=
  List.length_flatMap

/-- Positions that are each listed once are as many as the rows of the sample. -/
theorem occurrences_of_covers (inSample : ∀ t ∈ b.tuples, ∀ p ∈ t.offsets, p < size)
    (covers : ∀ p < size, (positions b.tuples).count p = 1) : b.occurrences = size := by
  have same : (positions b.tuples).Perm (List.range size) := by
    refine List.perm_iff_count.mpr fun p => ?_
    by_cases inside : p < size
    · rw [covers p inside, List.count_eq_one_of_mem List.nodup_range (List.mem_range.mpr inside)]
    · have unlisted : p ∉ positions b.tuples := by
        intro mem
        obtain ⟨t, ht, listed⟩ := List.mem_flatMap.mp mem
        exact inside (inSample t ht p listed)
      rw [List.count_eq_zero_of_not_mem unlisted,
        List.count_eq_zero_of_not_mem (by simpa using inside)]
  rw [← length_positions, same.length_eq, List.length_range]

end Bitmap

/-- **If every tuple repeats in the sample, its tuples are those of the table.** For a bitmap over a
sample of fewer rows than the table has, whose offsets are positions of the sample and fit the
table, and in which some tuple occurs and each at least twice, the extrapolation finds the tuples of
the bitmap, none of them once, and no segment but those up to the last sampled rows. If the tuples
cover every sampled row once, every row of the table is counted. -/
theorem extrapolate_of_repeated_tuples {b : Bitmap} {sample : Array ℕ} {rows : ℕ}
    (sampled : b.tuples ≠ []) (smaller : sample.size < rows) (countable : rows ≤ maxCount)
    (inSample : ∀ t ∈ b.tuples, ∀ p ∈ t.offsets, p < sample.size) (fits : b.occurrences ≤ rows)
    (repeated : ∀ t ∈ b.tuples, 2 ≤ t.offsets.length) (cols blockSize : ℕ) :
    ∃ f, extrapolate b sample rows cols blockSize = .ok f ∧ f.vals = b.tuples.length ∧
      f.singles = 0 ∧
      f.segs = min (total (b.tuples.map fun t =>
        sample.getD (t.offsets.getLastD 0) 0 / max blockSize 1 + 1)) maxCount ∧
      ((∀ p < sample.size, (Bitmap.positions b.tuples).count p = 1) → f.offs = rows) := by
  let stats := SampleStats.collect b sample blockSize
  have le := SampleStats.length_le_of_repeated repeated
  have few : b.tuples.length ≤ maxCount := le.trans (fits.trans countable)
  obtain ⟨counted, listed⟩ := SampleStats.collect_counts few sample blockSize
  have tuples : 0 < stats.distinct := counted ▸ List.length_pos_of_ne_nil sampled
  have distinct : stats.distinct ≤ stats.occurrences := by rwa [counted, listed]
  have none : stats.singletons = 0 :=
    SampleStats.singletons_of_repeated repeated few sample blockSize
  have segments := SampleStats.segments_of_repeated repeated few sample blockSize
  have inTable : stats.occurrences ≤ rows := listed ▸ fits
  have positive : 0 < sample.size := by
    obtain ⟨t, ht⟩ := List.exists_mem_of_ne_nil _ sampled
    obtain ⟨p, listed⟩ := List.exists_mem_of_length_pos (Nat.zero_lt_of_lt (repeated t ht))
    exact Nat.zero_lt_of_lt (inSample t ht p listed)
  have small : maxCount < 2 ^ 53 := by decide
  have occurs : 0 < stats.occurrences := tuples.trans_le distinct
  have fewDistinct : stats.distinct ≤ maxCount := counted ▸ few
  have offsets := SampleStats.estimatedOffsets_bounds inTable sample.size
  have values := SampleStats.estimatedValues_of_repeated none occurs distinct offsets.1
    ((offsets.2.trans countable).trans_lt small) rows
  have singles : stats.estimatedSingles stats.distinct = 0 :=
    SampleStats.estimatedSingles_of_repeated none tuples (fewDistinct.trans_lt small)
      (fewDistinct.trans_lt small)
  refine ⟨_, extrapolate_eq_scaleUp sampled few positive smaller fits cols blockSize, ?_⟩
  simp only [SampleStats.scaleUp]
  rw [values, singles, Nat.sub_self, Nat.add_zero, segments]
  refine ⟨(Nat.min_eq_left fewDistinct).trans counted, rfl, rfl, fun covers => ?_⟩
  have full : stats.occurrences = sample.size :=
    listed.trans (Bitmap.occurrences_of_covers inSample covers)
  exact SampleStats.estimatedOffsets_of_full full positive smaller.le countable

/-- Two numbers, twice each, in a sample of four rows out of ten that lists every row. -/
theorem extrapolate_of_repeated_tuples_two_pairs :
    let b : Bitmap := ⟨1, [⟨[5], [0, 2]⟩, ⟨[7], [1, 3]⟩]⟩
    let sample := #[0, 3, 4, 8]
    (b.tuples ≠ [] ∧ sample.size < 10 ∧ 10 ≤ maxCount ∧
      (∀ t ∈ b.tuples, ∀ p ∈ t.offsets, p < sample.size) ∧ b.occurrences ≤ 10 ∧
      ∀ t ∈ b.tuples, 2 ≤ t.offsets.length) ∧
      ∃ f, extrapolate b sample 10 1 2 = .ok f ∧ f.vals = 2 ∧ f.singles = 0 ∧ f.segs = 8 ∧
        f.offs = 10 := by
  intro b sample
  have sampled : b.tuples ≠ [] := List.cons_ne_nil _ _
  have smaller : sample.size < 10 := by decide
  have inSample : ∀ t ∈ b.tuples, ∀ p ∈ t.offsets, p < sample.size := by simp [b, sample]
  have fits : b.occurrences ≤ 10 := by decide
  have repeated : ∀ t ∈ b.tuples, 2 ≤ t.offsets.length := by simp [b]
  have covers : ∀ p < sample.size, (Bitmap.positions b.tuples).count p = 1 := by decide
  obtain ⟨f, scaled, vals, singles, segs, offs⟩ := extrapolate_of_repeated_tuples sampled smaller
    (by decide) inSample fits repeated 1 2
  exact ⟨⟨sampled, smaller, by decide, inSample, fits, repeated⟩, f, scaled, vals, singles,
    segs.trans (by decide), offs covers⟩

end Columnar
