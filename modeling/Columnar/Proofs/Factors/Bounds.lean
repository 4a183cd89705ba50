import Columnar.Proofs.Factors.Runs

/-!
# Bounds between the factors

The offsets of a well-formed bitmap are in order and none of its tuples is without one. So each
tuple occurs, takes a segment and begins a run, and the counts of a bitmap bound each other
(`Factors.Bounded`). The runs are the stretches and the empty runs in front of them
(`Factors.allStretchRuns_gap`), and there are no more stretches than occurrences. Where segments and
runs fit 32 bits, the factors have these bounds (`compute_bounded`).
-/

namespace Columnar

namespace Factors

/-- The empty runs in front of the stretches of all tuples. -/
def emptyRuns (block : ℕ) (b : Bitmap) : ℕ :=
  total (b.tuples.map fun t =>
    ∑ s ∈ Bitmap.stretches t.offsets, Bitmap.gap t.offsets s.1 / block)

/-- Factors, counted with or without runs, that bound each other. -/
structure Bounded (includeRuns : Bool) (emptyRuns : ℕ) (f : Factors) : Prop where
  singles : f.singles ≤ f.vals
  vals : f.vals ≤ f.offs
  segs : f.vals ≤ f.segs
  withoutRuns : includeRuns = false → f.runs = 0
  runs : includeRuns = true → f.vals ≤ f.runs
  withinRuns : includeRuns = true → emptyRuns ≤ f.runs
  /-- Apart from the empty ones there are no more runs than occurrences. -/
  listedRuns : includeRuns = true → f.runs - emptyRuns ≤ f.offs
  /-- All tuples occur once if there are no more occurrences than tuples. -/
  once : f.singles = f.vals ↔ f.vals = f.offs

section Tuples

variable {offsets : List ℕ} {block : ℕ}

/-- The first offset begins a run. -/
theorem one_le_plainRunsOf (occurs : offsets ≠ []) (block : ℕ) :
    1 ≤ plainRunsOf block offsets := by
  obtain ⟨first, rest, rfl⟩ := List.exists_cons_of_ne_nil occurs
  have begins : (none, first) ∈ Bitmap.steps (first :: rest) := List.mem_cons_self
  calc 1 ≤ plainRunsAt block (none, first) := Nat.le_add_right ..
    _ ≤ plainRunsOf block (first :: rest) := le_total_map (plainRunsAt block) begins

end Tuples

section Bitmap

variable {b : Bitmap} {block : ℕ}

/-- The runs are the stretches and the empty runs. -/
theorem allStretchRuns_gap (block : ℕ) (b : Bitmap) : allStretchRuns Bitmap.gap block b =
    total (b.tuples.map fun t => (Bitmap.stretches t.offsets).card) + emptyRuns block b :=
  total_map_add _ _ b.tuples

theorem card_stretches_le_occurrences (b : Bitmap) :
    total (b.tuples.map fun t => (Bitmap.stretches t.offsets).card) ≤ b.occurrences :=
  total_map_le_total_map fun t _ => Bitmap.card_stretches_le t.offsets

variable (wf : b.WellFormed)
include wf

theorem length_tuples_le_plainRuns (block : ℕ) : b.tuples.length ≤ plainRuns b block :=
  length_le_total_map fun t ht => one_le_plainRunsOf (wf.occurs t ht) block

/-- Tuples that occur once are all tuples if there are as many occurrences as tuples. -/
theorem countP_single_eq_iff :
    (b.tuples.countP fun t => t.offsets.length == 1) = b.tuples.length ↔
      b.tuples.length = b.occurrences := by
  have positive : ∀ t ∈ b.tuples, 1 ≤ t.offsets.length :=
    fun t ht => List.length_pos_iff.mpr (wf.occurs t ht)
  rw [List.countP_eq_length, Bitmap.occurrences, ← total_map_one b.tuples,
    total_map_eq_iff_of_le positive]
  exact forall₂_congr fun t _ => beq_iff_eq.trans eq_comm

end Bitmap

end Factors

/-- The exact counts of a well-formed bitmap bound each other. -/
theorem Factors.bounded_plainCounts {b : Bitmap} (wf : b.WellFormed) (includeRuns : Bool)
    (rows cols block : ℕ) :
    (plainCounts b includeRuns rows cols block).Bounded includeRuns (emptyRuns block b) := by
  have split : plainRuns b block =
      total (b.tuples.map fun t => (Bitmap.stretches t.offsets).card) + emptyRuns block b :=
    (plainRuns_eq_stretches wf block).trans (allStretchRuns_gap block b)
  have runs : includeRuns = true →
      (plainCounts b includeRuns rows cols block).runs = plainRuns b block :=
    fun asked => if_pos asked
  exact {
    singles := List.countP_le_length
    vals := length_tuples_le_occurrences wf
    segs := length_tuples_le_plainSegments wf block
    withoutRuns := by rintro rfl; rfl
    runs := fun asked => runs asked ▸ length_tuples_le_plainRuns wf block
    withinRuns := fun asked => by
      rw [runs asked, split]
      exact Nat.le_add_left ..
    listedRuns := fun asked => by
      rw [runs asked, split, Nat.add_sub_cancel]
      exact card_stretches_le_occurrences b
    once := countP_single_eq_iff wf }

/-- **The factors of a bitmap bound each other.** A bitmap that is accepted from parts may have
tuples that overlap. Where its segments fit 32 bits, and its runs if they are counted, it is
counted, and each count is held by the others, for any block size; one of zero counts as one. -/
theorem compute_bounded {b : Bitmap} {width : ℕ} {values : List Cell} {offsets : List (List ℕ)}
    {includeRuns : Bool} {blockSize : ℕ}
    (accepted : Bitmap.ofParts width values offsets = .ok b) (blockFits : blockSize ≤ maxCount)
    (segsFit : Factors.plainSegments b (max blockSize 1) ≤ maxCount)
    (runsFit : includeRuns = true → Factors.plainRuns b (max blockSize 1) ≤ maxCount)
    (rows cols : ℕ) :
    (∃ f, Factors.compute b includeRuns rows cols blockSize = .ok f ∧
      f.Bounded includeRuns (Factors.emptyRuns (max blockSize 1) b)) ∧
      Factors.compute b includeRuns rows cols 0 = Factors.compute b includeRuns rows cols 1 := by
  obtain ⟨wf, -, -, -⟩ := Bitmap.wellFormed_of_ofParts accepted
  have positive : 1 ≤ max blockSize 1 := Nat.le_max_right ..
  have blocksFit : max blockSize 1 ≤ maxCount := Nat.max_le.mpr ⟨blockFits, by decide⟩
  have fits := Factors.countsFit_of_sums wf positive blocksFit segsFit runsFit
  exact ⟨⟨_, Factors.compute_of_fits fits rows cols, Factors.bounded_plainCounts wf ..⟩,
    (Factors.compute_max_one b includeRuns rows cols 0).symm⟩

/-- Three tuples that share an offset. -/
def sharedOffset : Bitmap := ⟨1, [⟨[1], [0, 1, 6]⟩, ⟨[2], [1]⟩, ⟨[3], [1, 9]⟩]⟩

theorem compute_bounded_shared_offset :
    Bitmap.ofParts 1 [1, 2, 3] [[0, 1, 6], [1], [1, 9]] = .ok sharedOffset ∧
      Factors.plainSegments sharedOffset (max 0 1) ≤ maxCount ∧
      (true = true → Factors.plainRuns sharedOffset (max 0 1) ≤ maxCount) ∧
      (∃ f, Factors.compute sharedOffset true 10 1 0 = .ok f ∧
        f.Bounded true (Factors.emptyRuns (max 0 1) sharedOffset)) ∧
      Factors.compute sharedOffset true 10 1 0 = Factors.compute sharedOffset true 10 1 1 := by
  have accepted :
      Bitmap.ofParts 1 [1, 2, 3] [[0, 1, 6], [1], [1, 9]] = .ok sharedOffset := rfl
  have segsFit : Factors.plainSegments sharedOffset (max 0 1) ≤ maxCount := by decide
  have runsFit : true = true → Factors.plainRuns sharedOffset (max 0 1) ≤ maxCount := by decide
  exact ⟨accepted, segsFit, runsFit,
    compute_bounded accepted (by decide) segsFit runsFit 10 1⟩

end Columnar
