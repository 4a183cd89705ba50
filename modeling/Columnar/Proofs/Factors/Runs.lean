import Columnar.Proofs.Bitmap.Parts
import Columnar.Proofs.Bitmap.Stretches
import Columnar.Proofs.Counters

/-!
# Runs and skipped rows

A tuple has a run for each stretch of consecutive offsets, and an empty one for each whole block in
the gap in front of it (`Factors.plainRunsOf_eq`). The gap is longer than the rows that are skipped,
so the empty runs are no fewer than the whole blocks of skipped rows; they are more where the rows
beyond whole blocks are one or two short of another block (`runs_of_stretches`). In front of a first
stretch two skipped rows are enough for an empty run of four, and in front of a later one three are
(`shortGaps_emptyRuns`).
-/

namespace Columnar

namespace Factors

/-- A run for each stretch, and an empty one for each whole block in front of it, where `front` says
how many rows are in front of an offset. -/
def stretchRuns (front : List ℕ → ℕ → ℕ) (block : ℕ) (offsets : List ℕ) : ℕ :=
  (Bitmap.stretches offsets).card +
    ∑ s ∈ Bitmap.stretches offsets, front offsets s.1 / block

/-- The runs of all tuples, by their stretches. -/
def allStretchRuns (front : List ℕ → ℕ → ℕ) (block : ℕ) (b : Bitmap) : ℕ :=
  total (b.tuples.map fun t => stretchRuns front block t.offsets)

variable {offsets : List ℕ} {block : ℕ}

/-- A run begins at the starts, with the empty ones in the gap in front of it. -/
theorem plainRunsAt_before (increasing : offsets.Pairwise (· < ·)) {p : ℕ} (mem : p ∈ offsets)
    (block : ℕ) : plainRunsAt block ((offsets.filter (· < p)).getLast?, p) =
      if p ∈ Bitmap.starts offsets then 1 + Bitmap.gap offsets p / block else 0 := by
  rw [Bitmap.gap_eq increasing]
  cases before : (offsets.filter (· < p)).getLast? with
  | none =>
    have first := Bitmap.le_of_before_eq_none before
    have start : p ∈ Bitmap.starts offsets := by
      refine Bitmap.mem_starts.mpr ⟨mem, (Nat.eq_zero_or_pos p).imp_right fun later above => ?_⟩
      have le := first (p - 1) above
      omega
    rw [if_pos start]
    rfl
  | some q =>
    obtain ⟨listed, earlier, latest⟩ := Bitmap.of_before_eq_some increasing before
    rw [plainRunsAt]
    by_cases follows : p = q + 1
    · have within : p ∉ Bitmap.starts offsets := by
        intro start
        rcases (Bitmap.mem_starts.mp start).2 with atTop | above
        · omega
        · exact above (by rwa [follows])
      rw [if_pos follows, if_neg within]
    · have start : p ∈ Bitmap.starts offsets := by
        refine Bitmap.mem_starts.mpr ⟨mem, Or.inr fun above => follows ?_⟩
        have le := latest (p - 1) above (by omega)
        omega
      rw [if_neg follows, if_pos start]

/-- **The runs of a tuple are counted by its stretches** and the gaps in front of them. -/
theorem plainRunsOf_eq (increasing : offsets.Pairwise (· < ·)) (block : ℕ) :
    plainRunsOf block offsets = stretchRuns Bitmap.gap block offsets := by
  let added (p : ℕ) : ℕ := plainRunsAt block ((offsets.filter (· < p)).getLast?, p)
  calc plainRunsOf block offsets = total (offsets.map added) := by
        rw [plainRunsOf, Bitmap.steps_eq increasing, List.map_map]
        rfl
    _ = ∑ p ∈ offsets.toFinset, added p :=
        (List.sum_toFinset _ (increasing.imp Nat.ne_of_lt)).symm
    _ = ∑ p ∈ offsets.toFinset,
          if p ∈ Bitmap.starts offsets then 1 + Bitmap.gap offsets p / block else 0 :=
        Finset.sum_congr rfl fun p mem =>
          plainRunsAt_before increasing (List.mem_toFinset.mp mem) block
    _ = ∑ p ∈ Bitmap.starts offsets, (1 + Bitmap.gap offsets p / block) := by
        rw [← Finset.sum_filter, Finset.filter_mem_eq_inter, Finset.inter_eq_right.mpr]
        exact Finset.filter_subset _ _
    _ = stretchRuns Bitmap.gap block offsets := by
        rw [Finset.sum_add_distrib, ← Finset.card_eq_sum_ones, stretchRuns,
          Bitmap.card_stretches, Bitmap.sum_stretches offsets fun p => Bitmap.gap offsets p / block]

theorem plainRuns_eq_stretches {b : Bitmap} (wf : b.WellFormed) (block : ℕ) :
    plainRuns b block = allStretchRuns Bitmap.gap block b :=
  congrArg total (List.map_congr_left fun t ht => plainRunsOf_eq (wf.increasing t ht) block)

/-! ### Gaps and skipped rows -/

/-- A lead adds no block if the rows beyond whole blocks leave room for it. -/
theorem add_div_eq_iff (positive : 1 ≤ block) (rows lead : ℕ) :
    rows / block = (rows + lead) / block ↔ rows % block + lead < block := by
  have split : rows + lead = rows % block + lead + block * (rows / block) := by
    rw [Nat.add_right_comm, Nat.mod_add_div]
  rw [split, Nat.add_mul_div_left _ _ positive, eq_comm, Nat.add_eq_right,
    Nat.div_eq_zero_iff_lt positive]

theorem skipped_div_le_gap_div (offsets : List ℕ) (block p : ℕ) :
    Bitmap.skippedRows offsets p / block ≤ Bitmap.gap offsets p / block :=
  Nat.div_le_div_right (Nat.le_add_right _ _)

theorem stretchRuns_le (offsets : List ℕ) (block : ℕ) :
    stretchRuns Bitmap.skippedRows block offsets ≤ stretchRuns Bitmap.gap block offsets :=
  Nat.add_le_add_left (Finset.sum_le_sum fun s _ => skipped_div_le_gap_div offsets block s.1) _

theorem stretchRuns_eq_iff (positive : 1 ≤ block) (offsets : List ℕ) :
    stretchRuns Bitmap.skippedRows block offsets = stretchRuns Bitmap.gap block offsets ↔
      ∀ s ∈ Bitmap.stretches offsets,
        Bitmap.skippedRows offsets s.1 % block + Bitmap.lead offsets s.1 < block := by
  rw [stretchRuns, stretchRuns, Nat.add_left_cancel_iff,
    Finset.sum_eq_sum_iff_of_le fun s _ => skipped_div_le_gap_div offsets block s.1]
  exact forall₂_congr fun s _ => add_div_eq_iff positive _ _

end Factors

/-- **Runs are counted by stretches and the gaps in front of them.** Where the segments and the runs
of a bitmap that is accepted from parts fit 32 bits, they are counted, and each tuple has a run for
each stretch and an empty one for each whole block in the gap in front of it. These are no fewer
than by the rows skipped, and as many exactly if no lead in front of a stretch completes a
block. -/
theorem runs_of_stretches {b : Bitmap} {width : ℕ} {values : List Cell}
    {offsets : List (List ℕ)} {blockSize : ℕ}
    (accepted : Bitmap.ofParts width values offsets = .ok b) (positive : 1 ≤ blockSize)
    (blockFits : blockSize ≤ maxCount) (segsFit : Factors.plainSegments b blockSize ≤ maxCount)
    (runsFit : Factors.allStretchRuns Bitmap.gap blockSize b ≤ maxCount) (rows cols : ℕ) :
    let bySkippedRows := Factors.allStretchRuns Bitmap.skippedRows blockSize b
    ∃ f, Factors.compute b true rows cols blockSize = .ok f ∧
      f.runs = Factors.allStretchRuns Bitmap.gap blockSize b ∧
      (∀ t ∈ b.tuples,
        Factors.runsOf blockSize t.offsets = Factors.stretchRuns Bitmap.gap blockSize t.offsets) ∧
      bySkippedRows ≤ f.runs ∧
      (bySkippedRows = f.runs ↔ ∀ t ∈ b.tuples, ∀ s ∈ Bitmap.stretches t.offsets,
        Bitmap.skippedRows t.offsets s.1 % blockSize + Bitmap.lead t.offsets s.1 < blockSize) := by
  intro bySkippedRows
  obtain ⟨wf, -, -, -⟩ := Bitmap.wellFormed_of_ofParts accepted
  have plain := Factors.plainRuns_eq_stretches wf blockSize
  have fits : Factors.CountsFit b true (max blockSize 1) := by
    rw [Nat.max_eq_left positive]
    exact Factors.countsFit_of_sums wf positive blockFits segsFit fun _ => plain.trans_le runsFit
  have counted : (Factors.plainCounts b true rows cols (max blockSize 1)).runs =
      Factors.allStretchRuns Bitmap.gap blockSize b := by
    rw [Nat.max_eq_left positive]
    exact plain
  have le : ∀ t ∈ b.tuples, Factors.stretchRuns Bitmap.skippedRows blockSize t.offsets ≤
      Factors.stretchRuns Bitmap.gap blockSize t.offsets :=
    fun t _ => Factors.stretchRuns_le t.offsets blockSize
  refine ⟨_, Factors.compute_of_fits fits rows cols, counted, fun t ht => ?_, ?_, ?_⟩
  · have one := Factors.plainRunsOf_eq (wf.increasing t ht) blockSize
    have within := le_total_map
      (fun t => Factors.stretchRuns Bitmap.gap blockSize t.offsets) ht
    rw [Factors.runsOf_of_fits (one.trans_le (within.trans runsFit)), one]
  · rw [counted]
    exact total_map_le_total_map le
  · rw [counted]
    refine (total_map_eq_iff_of_le le).trans ?_
    exact forall₂_congr fun t _ => Factors.stretchRuns_eq_iff positive t.offsets

/-- One tuple with one and with eight rows skipped in front of its stretches, and one with two and
with three. -/
def leadsInBlocks : Bitmap := ⟨1, [⟨[1], [1, 10, 11]⟩, ⟨[2], [2, 6]⟩]⟩

theorem runs_of_stretches_blocks_of_four :
    Bitmap.ofParts 1 [1, 2] [[1, 10, 11], [2, 6]] = .ok leadsInBlocks ∧
      Factors.plainSegments leadsInBlocks 4 ≤ maxCount ∧
      Factors.allStretchRuns Bitmap.gap 4 leadsInBlocks ≤ maxCount ∧
      let bySkippedRows := Factors.allStretchRuns Bitmap.skippedRows 4 leadsInBlocks
      ∃ f, Factors.compute leadsInBlocks true 12 1 4 = .ok f ∧
        f.runs = Factors.allStretchRuns Bitmap.gap 4 leadsInBlocks ∧
        (∀ t ∈ leadsInBlocks.tuples,
          Factors.runsOf 4 t.offsets = Factors.stretchRuns Bitmap.gap 4 t.offsets) ∧
        bySkippedRows ≤ f.runs ∧
        (bySkippedRows = f.runs ↔ ∀ t ∈ leadsInBlocks.tuples, ∀ s ∈ Bitmap.stretches t.offsets,
          Bitmap.skippedRows t.offsets s.1 % 4 + Bitmap.lead t.offsets s.1 < 4) := by
  have accepted : Bitmap.ofParts 1 [1, 2] [[1, 10, 11], [2, 6]] = .ok leadsInBlocks := rfl
  have segsFit : Factors.plainSegments leadsInBlocks 4 ≤ maxCount := by decide
  have runsFit : Factors.allStretchRuns Bitmap.gap 4 leadsInBlocks ≤ maxCount := by decide +kernel
  exact ⟨accepted, segsFit, runsFit,
    runs_of_stretches accepted (by decide) (by decide) segsFit runsFit 12 1⟩

/-- **Fewer skipped rows than a block can add an empty run.** In front of the offsets 2 and 6 two
and three rows are skipped, and blocks have four; each of the two runs is counted with an empty
one. -/
theorem shortGaps_emptyRuns :
    let b : Bitmap := ⟨1, [⟨[1], [2, 6]⟩]⟩
    Bitmap.ofParts 1 [1] [[2, 6]] = .ok b ∧
      Bitmap.stretches [2, 6] = {(2, 2), (6, 6)} ∧
      (∀ s ∈ Bitmap.stretches [2, 6], Bitmap.skippedRows [2, 6] s.1 < 4) ∧
      Factors.allStretchRuns Bitmap.skippedRows 4 b = 2 ∧
      (Factors.compute b true 8 1 4).map Factors.runs = .ok 4 := by
  intro b
  exact ⟨rfl, by decide +kernel, by decide +kernel, by decide +kernel, by decide⟩

end Columnar
