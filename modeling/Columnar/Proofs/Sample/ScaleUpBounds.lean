import Columnar.Sample.ScaleUp
import Columnar.Proofs.Bitmap.Parts
import Columnar.Proofs.Bitmap.Steps
import Columnar.Proofs.Counters
import Columnar.Proofs.Float.Value

/-!
# Bounds of extrapolated factors

Every estimate of `extrapolate` lies between what the sample shows and what the table can hold
(`WithinTable`): no more different tuples than rows with a tuple, no more of these than rows, at
least as many segments and runs as tuples. The statistics of a well-formed bitmap are consistent
(`SampleStats.Consistent`: every tuple occurs, takes a segment, and does not break at its first
occurrence), and each estimate of `scaleUp` is bounded from that and from the estimates before it.
Most bounds are those of a clamp. The breaks in sample order are not clamped: there the share of
breaks is at most one, and rounding keeps it so.
-/

namespace Columnar

/-- Factors of a table of `rows` rows that fit a sample of that many different tuples and
occurrences, with that many empty runs between the occurrences. -/
structure WithinTable (distinct occurrences emptyRuns rows : ℕ) (f : Factors) : Prop where
  sampledVals : distinct ≤ f.vals
  vals : f.vals ≤ f.offs
  sampledOffs : occurrences ≤ f.offs
  offs : f.offs ≤ rows
  singles : f.singles ≤ f.vals
  segs : f.vals ≤ f.segs
  runs : f.vals ≤ f.runs
  mostRuns : f.runs ≤ f.offs + emptyRuns
  /-- The cardinality never exceeds the row count. -/
  valsFit : f.vals ≤ rows
  /-- The tuples that occur once never exceed the row count. -/
  singlesFit : f.singles ≤ rows

/-! ### What a sample shows -/

namespace SampleStats

/-- Statistics in which every tuple occurs, takes a segment, and breaks only at a later
occurrence. -/
structure Consistent (s : SampleStats) : Prop where
  occurrences : s.distinct ≤ s.occurrences
  segments : s.distinct ≤ s.segments
  breaks : s.breaks + s.distinct ≤ s.occurrences

section Collect

/-- A tuple's first occurrence is not a break. -/
theorem countP_isBreak_lt {offsets : List ℕ} (occurs : offsets ≠ []) :
    (Bitmap.steps offsets).countP isBreak < offsets.length := by
  rw [← Bitmap.length_steps offsets]
  obtain ⟨first, rest, rfl⟩ := List.exists_cons_of_ne_nil occurs
  have unbroken : (Bitmap.steps (first :: rest)).countP isBreak =
      ((List.map some (first :: rest)).zip rest).countP isBreak := rfl
  rw [unbroken]
  exact Nat.lt_succ_of_le List.countP_le_length

theorem total_breaks_le {lists : List (List ℕ)} (occur : ∀ offsets ∈ lists, offsets ≠ []) :
    total (lists.map fun offsets => (Bitmap.steps offsets).countP isBreak) + lists.length ≤
      total (lists.map (·.length)) := by
  induction lists with
  | nil => exact Nat.le_refl _
  | cons offsets rest ih =>
    have first := countP_isBreak_lt (occur offsets List.mem_cons_self)
    have others := ih fun list mem => occur list (List.mem_cons_of_mem _ mem)
    simp only [List.map_cons, total_cons, List.length_cons]
    omega

theorem one_le_segmentsOf {offsets : List ℕ} (occurs : offsets ≠ []) (sample : Array ℕ)
    (block : ℕ) : 1 ≤ segmentsOf sample block offsets := by
  rw [segmentsOf, List.getLast?_eq_some_getLast occurs]
  exact Nat.le_add_left ..

theorem consistent_ofLists {lists : List (List ℕ)} (occur : ∀ offsets ∈ lists, offsets ≠ [])
    (sample : Array ℕ) (blockSize : ℕ) : Consistent (ofLists lists sample blockSize) := by
  have unbroken := total_breaks_le occur
  have covered : lists.length ≤ total (lists.map (segmentsOf sample (max blockSize 1))) :=
    length_le_total_map fun offsets mem => one_le_segmentsOf (occur offsets mem) sample _
  exact ⟨Nat.le_of_add_left_le unbroken, covered, unbroken⟩

theorem consistent_collect {b : Bitmap} (wf : b.WellFormed) (sample : Array ℕ) (blockSize : ℕ) :
    Consistent (collect b sample blockSize) := by
  refine consistent_ofLists (fun offsets mem => ?_) sample blockSize
  obtain ⟨t, ht, rfl⟩ := List.mem_map.mp mem
  exact wf.occurs t (Bitmap.mem_of_mem_numbered ht)

/-- A bitmap whose tuples can all be numbered has all of them counted. -/
theorem collect_counts {b : Bitmap} (few : b.tuples.length ≤ maxCount) (sample : Array ℕ)
    (blockSize : ℕ) : (collect b sample blockSize).distinct = b.tuples.length ∧
      (collect b sample blockSize).occurrences = b.occurrences := by
  rw [collect_of_few few]
  exact ⟨List.length_map _, congrArg total List.map_map⟩

end Collect

/-! ### The estimates -/

section Estimates

variable {s : SampleStats} {rows offsets values : ℕ}

theorem estimatedOffsets_bounds (fits : s.occurrences ≤ rows) (sampleSize : ℕ) :
    s.occurrences ≤ s.estimatedOffsets sampleSize rows ∧
      s.estimatedOffsets sampleSize rows ≤ rows := by
  simp only [estimatedOffsets, clampCount]
  omega

theorem estimatedValues_bounds (sampled : s.distinct ≤ offsets) (rows : ℕ) :
    s.distinct ≤ s.estimatedValues offsets rows ∧ s.estimatedValues offsets rows ≤ offsets := by
  simp only [estimatedValues, clampCount]
  omega

theorem estimatedSingles_le (s : SampleStats) (values : ℕ) :
    s.estimatedSingles values ≤ values := Nat.min_le_right ..

/-- Runs are no fewer than the tuples and no more than the rows with a tuple. -/
theorem estimatedRuns_bounds (consistent : s.Consistent) (fits : s.occurrences < 2 ^ 53)
    (small : offsets < 2 ^ 53) (le : values ≤ offsets) :
    values ≤ s.estimatedRuns offsets values ∧ s.estimatedRuns offsets values ≤ offsets := by
  unfold estimatedRuns
  split
  · exact ⟨Nat.le_max_right .., Nat.max_le.mpr ⟨Nat.sub_le .., le⟩⟩
  · refine ⟨Nat.le_add_right .., ?_⟩
    show values + (if s.occurrences - s.distinct = 0 then 0 else _) ≤ offsets
    split
    · exact le
    · rename_i later
      have share : s.breaks ≤ s.occurrences - s.distinct := Nat.le_sub_of_add_le consistent.breaks
      have estimated := roundToCount_share_mul_le (Nat.pos_of_ne_zero later) share
        ((Nat.sub_le ..).trans_lt fits) ((Nat.sub_le offsets values).trans_lt small)
      omega

theorem withinTable_scaleUp (consistent : s.Consistent) (fits : s.occurrences ≤ rows)
    (countable : rows ≤ maxCount) (sampleSize cols groupCols : ℕ) :
    WithinTable s.distinct s.occurrences s.emptyRuns rows
      (s.scaleUp sampleSize rows cols groupCols) := by
  have exact53 : maxCount < 2 ^ 53 := by decide
  simp only [scaleUp]
  obtain ⟨sampledOffs, offs⟩ := estimatedOffsets_bounds fits sampleSize
  generalize s.estimatedOffsets sampleSize rows = offsets at *
  obtain ⟨sampledVals, vals⟩ :=
    estimatedValues_bounds (consistent.occurrences.trans sampledOffs) rows
  generalize s.estimatedValues offsets rows = values at *
  have singles := s.estimatedSingles_le values
  obtain ⟨runs, mostRuns⟩ := estimatedRuns_bounds consistent (by omega) (by omega) vals
  have segments := consistent.segments
  constructor <;> simp only [capCount] <;> omega

end Estimates

end SampleStats

/-- A sample of fewer rows than the table has, with some tuple, is scaled up. -/
theorem extrapolate_eq_scaleUp {b : Bitmap} {sample : Array ℕ} {rows : ℕ} (sampled : b.tuples ≠ [])
    (few : b.tuples.length ≤ maxCount) (inSample : 0 < sample.size) (smaller : sample.size < rows)
    (fits : b.occurrences ≤ rows) (cols blockSize : ℕ) :
    extrapolate b sample rows cols blockSize =
      .ok ((SampleStats.collect b sample blockSize).scaleUp sample.size rows cols
        (low32 b.width)) := by
  obtain ⟨distinct, occurrences⟩ := SampleStats.collect_counts few sample blockSize
  have some : ¬ ((SampleStats.collect b sample blockSize).distinct = 0 ∨ sample.size = 0) := by
    rw [not_or, distinct]
    exact ⟨(List.length_pos_of_ne_nil sampled).ne', inSample.ne'⟩
  unfold extrapolate
  rw [if_neg (Nat.not_le.mpr smaller)]
  simp only [if_neg some]
  exact if_neg (Nat.not_lt.mpr (occurrences ▸ fits))

/-- **Extrapolated factors stay within the table.** A bitmap that is accepted from parts, whose
offsets are positions of a smaller sample and whose occurrences fit the table, is scaled up, and
every estimate is held between the sample and the table. -/
theorem extrapolate_within_table {b : Bitmap} {width : ℕ} {values : List Cell}
    {offsets : List (List ℕ)} {sample : Array ℕ} {rows : ℕ}
    (accepted : Bitmap.ofParts width values offsets = .ok b) (smaller : sample.size < rows)
    (countable : rows ≤ maxCount) (inSample : ∀ t ∈ b.tuples, ∀ p ∈ t.offsets, p < sample.size)
    (fits : b.occurrences ≤ rows) (cols blockSize : ℕ) :
    ∃ f, extrapolate b sample rows cols blockSize = .ok f ∧
      WithinTable b.tuples.length b.occurrences
        (SampleStats.collect b sample blockSize).emptyRuns rows f := by
  obtain ⟨wf, -, -, -⟩ := Bitmap.wellFormed_of_ofParts accepted
  have few : b.tuples.length ≤ maxCount :=
    (Factors.length_tuples_le_occurrences wf).trans (fits.trans countable)
  obtain ⟨distinct, occurrences⟩ := SampleStats.collect_counts few sample blockSize
  by_cases sampled : b.tuples = []
  · -- nothing was sampled, and all counts are zero
    have none : b.occurrences = 0 := by rw [Bitmap.occurrences, sampled]; rfl
    have empty : (SampleStats.collect b sample blockSize).distinct = 0 := by
      rw [distinct, sampled, List.length_nil]
    unfold extrapolate
    rw [if_neg (Nat.not_le.mpr smaller)]
    refine ⟨_, if_pos (Or.inl empty), ?_⟩
    rw [none, sampled]
    constructor <;> exact Nat.zero_le _
  · obtain ⟨t, ht⟩ := List.exists_mem_of_ne_nil _ sampled
    obtain ⟨p, listed⟩ := List.exists_mem_of_ne_nil _ (wf.occurs t ht)
    have positive : 0 < sample.size := Nat.zero_lt_of_lt (inSample t ht p listed)
    refine ⟨_, extrapolate_eq_scaleUp sampled few positive smaller fits cols blockSize, ?_⟩
    have scaled := SampleStats.withinTable_scaleUp
      (SampleStats.consistent_collect wf sample blockSize) (occurrences ▸ fits) countable
      sample.size cols (low32 b.width)
    rwa [distinct, occurrences] at scaled

/-- A sample of three rows in which one number occurs twice. -/
def sampledPair : Bitmap := ⟨1, [⟨[5], [0, 2]⟩, ⟨[7], [1]⟩]⟩

theorem extrapolate_within_table_sampled_pair :
    (Bitmap.ofParts 1 [5, 7] [[0, 2], [1]] = .ok sampledPair ∧ #[0, 3, 4].size < 10 ∧
      10 ≤ maxCount ∧ (∀ t ∈ sampledPair.tuples, ∀ p ∈ t.offsets, p < #[0, 3, 4].size) ∧
      sampledPair.occurrences ≤ 10) ∧
      ∃ f, extrapolate sampledPair #[0, 3, 4] 10 4 2 = .ok f ∧
        WithinTable sampledPair.tuples.length sampledPair.occurrences
          (SampleStats.collect sampledPair #[0, 3, 4] 2).emptyRuns 10 f := by
  have accepted : Bitmap.ofParts 1 [5, 7] [[0, 2], [1]] = .ok sampledPair := rfl
  have inSample : ∀ t ∈ sampledPair.tuples, ∀ p ∈ t.offsets, p < #[0, 3, 4].size := by
    simp [sampledPair]
  have fits : sampledPair.occurrences ≤ 10 := by decide
  exact ⟨⟨accepted, by decide, by decide, inSample, fits⟩,
    extrapolate_within_table accepted (by decide) (by decide) inSample fits 4 2⟩

end Columnar
