import Columnar.Factors
import Mathlib

/-!
# Counters that hold

The occurrences of a bitmap are counted in 64 bits, its segments and its runs in 32, and each term
of segments and runs is cut to 32 bits as well. `Factors.counts` takes the same terms and adds them
without a width; counting goes through exactly if all counters hold these sums
(`Factors.compute_eq`). Where the sums of the uncut terms fit, `Factors.plainCounts`, nothing has
been cut either (`Factors.compute_of_fits`). The tuples of a well-formed bitmap take a segment each,
and a block of rows holds no more occurrences of one than it has rows, so segments that fit leave
room for the tuples and the occurrences (`Factors.countsFit_of_sums`).
-/

namespace Columnar

namespace Factors

/-- The segments up to the last offset of a tuple. -/
def plainSegmentsOf (block : ℕ) (offsets : List ℕ) : ℕ :=
  match offsets.getLast? with
  | none => 0
  | some last => last / block + 1

/-- What an offset adds to the runs: where one begins, the run itself and the empty ones in front of
it. -/
def plainRunsAt (block : ℕ) : Option ℕ × ℕ → ℕ
  | (none, offset) => 1 + (offset + 2) / block
  | (some before, offset) => if offset = before + 1 then 0 else 1 + (offset - before) / block

def plainRunsOf (block : ℕ) (offsets : List ℕ) : ℕ :=
  total ((Bitmap.steps offsets).map (plainRunsAt block))

/-- The segments of all tuples, as a sum without a width. -/
def plainSegments (b : Bitmap) (block : ℕ) : ℕ :=
  total (b.tuples.map fun t => plainSegmentsOf block t.offsets)

/-- The runs of all tuples, as a sum without a width. -/
def plainRuns (b : Bitmap) (block : ℕ) : ℕ :=
  total (b.tuples.map fun t => plainRunsOf block t.offsets)

/-- The counts of all tuples, as sums without a width. -/
def plainCounts (b : Bitmap) (includeRuns : Bool) (rows cols block : ℕ) : Factors where
  vals := b.tuples.length
  offs := b.occurrences
  segs := plainSegments b block
  runs := if includeRuns then plainRuns b block else 0
  singles := b.tuples.countP fun t => t.offsets.length == 1
  rows := rows
  cols := cols
  groupCols := low32 b.width

/-- The counts of the numbered tuples by the terms that are added up, as sums without a width. -/
def counts (b : Bitmap) (includeRuns : Bool) (rows cols block : ℕ) : Factors where
  vals := b.count
  offs := b.numbered.occurrences
  segs := total (b.numbered.tuples.map fun t => segmentsOf block t.offsets)
  runs := if includeRuns then total (b.numbered.tuples.map fun t => runsOf block t.offsets) else 0
  singles := b.numbered.tuples.countP fun t => t.offsets.length == 1
  rows := rows
  cols := cols
  groupCols := low32 b.width

/-- Sums that their counters hold. -/
structure Held (f : Factors) : Prop where
  offs : f.offs ≤ maxSize
  segs : f.segs ≤ maxCount
  runs : f.runs ≤ maxCount

instance (f : Factors) : Decidable f.Held :=
  decidable_of_iff (f.offs ≤ maxSize ∧ f.segs ≤ maxCount ∧ f.runs ≤ maxCount)
    ⟨fun ⟨offs, segs, runs⟩ => ⟨offs, segs, runs⟩, fun held => ⟨held.offs, held.segs, held.runs⟩⟩

/-- A bitmap whose counts fit the width of their counters: occurrences 64 bits, the others 32. -/
structure CountsFit (b : Bitmap) (includeRuns : Bool) (block : ℕ) : Prop where
  vals : b.tuples.length ≤ maxCount
  offs : b.occurrences ≤ maxSize
  segs : plainSegments b block ≤ maxCount
  runs : includeRuns = true → plainRuns b block ≤ maxCount

end Factors

/-! ### Sums -/

section Sums

variable {α : Type} {f g : α → ℕ} {xs : List α}

/-- A term is no larger than the sum. -/
theorem le_total_map (f : α → ℕ) {x : α} (mem : x ∈ xs) : f x ≤ total (xs.map f) :=
  List.le_sum_of_mem (List.mem_map_of_mem mem)

/-- Terms that are kept as long as they fit make up a sum that is kept if it fits. -/
theorem total_congr_of_le (fits : total (xs.map g) ≤ maxCount)
    (kept : ∀ x ∈ xs, g x ≤ maxCount → f x = g x) : total (xs.map f) = total (xs.map g) :=
  congrArg total (List.map_congr_left fun x mem => kept x mem ((le_total_map g mem).trans fits))

theorem total_map_add (f g : α → ℕ) (xs : List α) :
    total (xs.map fun x => f x + g x) = total (xs.map f) + total (xs.map g) :=
  List.sum_map_add

theorem total_map_le_total_map (le : ∀ x ∈ xs, f x ≤ g x) :
    total (xs.map f) ≤ total (xs.map g) := List.sum_le_sum le

/-- Sums of smaller terms are smaller, unless no term is. -/
theorem total_map_eq_iff_of_le (le : ∀ x ∈ xs, f x ≤ g x) :
    total (xs.map f) = total (xs.map g) ↔ ∀ x ∈ xs, f x = g x := by
  induction xs with
  | nil => simp
  | cons x rest ih =>
    have first := le x List.mem_cons_self
    have others := fun y mem => le y (List.mem_cons_of_mem x mem)
    have sums := total_map_le_total_map others
    rw [List.forall_mem_cons, ← ih others]
    simp only [List.map_cons, total_cons]
    omega

/-- So many terms that are each at most `most`. -/
theorem total_map_le_mul {most : ℕ} (le : ∀ x ∈ xs, f x ≤ most) :
    total (xs.map f) ≤ xs.length * most := by
  have sum := List.sum_le_card_nsmul (xs.map f) most fun n mem => by
    obtain ⟨x, listed, rfl⟩ := List.mem_map.mp mem
    exact le x listed
  rwa [List.length_map, smul_eq_mul] at sum

theorem total_map_one (xs : List α) : total (xs.map fun _ => 1) = xs.length := by
  rw [List.map_const']
  exact (List.sum_replicate_nat ..).trans (Nat.mul_one _)

theorem length_le_total_map (positive : ∀ x ∈ xs, 1 ≤ f x) : xs.length ≤ total (xs.map f) :=
  (total_map_one xs).symm.trans_le (total_map_le_total_map positive)

theorem total_flatMap (xs : List α) (terms : α → List ℕ) :
    total (xs.flatMap terms) = total (xs.map fun x => total (terms x)) := by
  induction xs with
  | nil => rfl
  | cons x rest ih => rw [List.flatMap_cons, total_append, ih, List.map_cons, total_cons]

end Sums

/-! ### Counts of a bitmap -/

namespace Factors

variable {b : Bitmap} {includeRuns : Bool} {rows cols block blockSize : ℕ}

/-- **Counting goes through exactly if all counters hold.** -/
theorem compute_eq (b : Bitmap) (includeRuns : Bool) (rows cols blockSize : ℕ) :
    compute b includeRuns rows cols blockSize =
      if (counts b includeRuns rows cols (max blockSize 1)).Held
      then .ok (counts b includeRuns rows cols (max blockSize 1)) else .error .overflow := by
  let offs := b.numbered.tuples.map (·.offsets.length)
  let segs := b.numbered.tuples.map fun t => segmentsOf (max blockSize 1) t.offsets
  let runs := if includeRuns then
    b.numbered.tuples.flatMap fun t => (Bitmap.steps t.offsets).map (runsAt (max blockSize 1))
    else []
  have sum : total runs = (counts b includeRuns rows cols (max blockSize 1)).runs := by
    cases includeRuns with
    | false => rfl
    | true => exact total_flatMap ..
  -- the first sum that exceeds its counter stops the counting
  rcases Nat.lt_or_ge maxSize (total offs) with exceeds | offsHeld
  · rw [if_neg fun held => Nat.not_lt_of_ge held.offs exceeds, compute, addUp_of_lt exceeds]
    rfl
  rcases Nat.lt_or_ge maxCount (total segs) with exceeds | segsHeld
  · rw [if_neg fun held => Nat.not_lt_of_ge held.segs exceeds, compute, addUp_of_le offsHeld,
      addUp_of_lt exceeds]
    rfl
  rcases Nat.lt_or_ge maxCount (total runs) with exceeds | runsHeld
  · rw [if_neg fun held => Nat.not_lt_of_ge (sum ▸ held.runs) exceeds, compute,
      addUp_of_le offsHeld, addUp_of_le segsHeld, addUp_of_lt exceeds]
    rfl
  · rw [if_pos ⟨offsHeld, segsHeld, sum ▸ runsHeld⟩, compute, addUp_of_le offsHeld,
      addUp_of_le segsHeld, addUp_of_le runsHeld, sum]
    rfl

/-- What counting answers are the counts, and its counters hold them. -/
theorem compute_eq_ok_iff {f : Factors} :
    compute b includeRuns rows cols blockSize = .ok f ↔
      (counts b includeRuns rows cols (max blockSize 1)).Held ∧
        f = counts b includeRuns rows cols (max blockSize 1) := by
  rw [compute_eq]
  split
  · rename_i held
    exact ⟨fun same => ⟨held, (Except.ok.inj same).symm⟩, fun same => congrArg _ same.2.symm⟩
  · rename_i exceeds
    exact ⟨nofun, fun same => absurd same.1 exceeds⟩

/-! ### Sums that fit -/

theorem segmentsOf_of_fits {offsets : List ℕ} (fits : plainSegmentsOf block offsets ≤ maxCount) :
    segmentsOf block offsets = plainSegmentsOf block offsets := by
  unfold plainSegmentsOf at fits
  unfold segmentsOf plainSegmentsOf
  cases latest : offsets.getLast? with
  | none => rfl
  | some last =>
    rw [latest] at fits
    exact low32_of_le fits

theorem runsAt_of_fits {step : Option ℕ × ℕ} (fits : plainRunsAt block step ≤ maxCount) :
    runsAt block step = plainRunsAt block step := by
  obtain ⟨_ | before, offset⟩ := step
  · simp only [plainRunsAt] at fits
    have gap : (offset + 2) / block ≤ maxCount := by omega
    rw [runsAt, plainRunsAt, low32_of_le gap]
  · simp only [runsAt, plainRunsAt] at fits ⊢
    split
    · rfl
    · rename_i breaks
      rw [if_neg breaks] at fits
      have gap : (offset - before) / block ≤ maxCount := by omega
      rw [low32_of_le gap]

theorem runsOf_of_fits {offsets : List ℕ} (fits : plainRunsOf block offsets ≤ maxCount) :
    runsOf block offsets = plainRunsOf block offsets :=
  total_congr_of_le fits fun _ _ => runsAt_of_fits

/-- Where the uncut sums fit, nothing is cut. -/
theorem counts_of_fits (fits : CountsFit b includeRuns block) (rows cols : ℕ) :
    counts b includeRuns rows cols block = plainCounts b includeRuns rows cols block := by
  have segs : total (b.tuples.map fun t => segmentsOf block t.offsets) = plainSegments b block :=
    total_congr_of_le fits.segs fun _ _ => segmentsOf_of_fits
  rw [counts, plainCounts, Bitmap.numbered_eq_self fits.vals, Bitmap.count, low32_of_le fits.vals,
    segs]
  cases includeRuns with
  | false => rfl
  | true =>
    have runs : total (b.tuples.map fun t => runsOf block t.offsets) = plainRuns b block :=
      total_congr_of_le (fits.runs rfl) fun _ _ => runsOf_of_fits
    rw [if_pos rfl, if_pos rfl, runs]

theorem held_of_fits (fits : CountsFit b includeRuns block) (rows cols : ℕ) :
    (plainCounts b includeRuns rows cols block).Held where
  offs := fits.offs
  segs := fits.segs
  runs := by
    cases includeRuns with
    | false => exact Nat.zero_le _
    | true => exact fits.runs rfl

/-- **Counts that fit are counted as they are.** -/
theorem compute_of_fits (fits : CountsFit b includeRuns (max blockSize 1)) (rows cols : ℕ) :
    compute b includeRuns rows cols blockSize =
      .ok (plainCounts b includeRuns rows cols (max blockSize 1)) :=
  compute_eq_ok_iff.mpr
    ⟨counts_of_fits fits rows cols ▸ held_of_fits fits rows cols,
      (counts_of_fits fits rows cols).symm⟩

/-! ### Well-formed bitmaps -/

section WellFormed

variable {offsets : List ℕ}

theorem one_le_plainSegmentsOf (occurs : offsets ≠ []) (block : ℕ) :
    1 ≤ plainSegmentsOf block offsets := by
  rw [plainSegmentsOf, List.getLast?_eq_some_getLast occurs]
  exact Nat.le_add_left ..

/-- A tuple occurs no more often than its segments have rows. -/
theorem length_le_segments_mul (increasing : offsets.Pairwise (· < ·)) (positive : 1 ≤ block) :
    offsets.length ≤ plainSegmentsOf block offsets * block := by
  rcases offsets.eq_nil_or_concat' with rfl | ⟨front, last, rfl⟩
  · exact Nat.zero_le _
  · have distinct : (front ++ [last]).Nodup := increasing.imp Nat.ne_of_lt
    have within : front ++ [last] ⊆ List.range (last + 1) := by
      intro p mem
      rcases List.mem_append.mp mem with inFront | atEnd
      · have earlier := (List.pairwise_append.mp increasing).2.2 p inFront last
          List.mem_cons_self
        exact List.mem_range.mpr (earlier.trans (Nat.lt_succ_self last))
      · rw [List.mem_singleton.mp atEnd]
        exact List.mem_range.mpr (Nat.lt_succ_self last)
    have many := (distinct.subperm within).length_le
    rw [List.length_range] at many
    rw [plainSegmentsOf, List.getLast?_append, List.getLast?_singleton]
    exact many.trans (Nat.lt_mul_of_div_lt (Nat.lt_succ_self _) positive)

variable (wf : b.WellFormed)
include wf

theorem length_tuples_le_occurrences : b.tuples.length ≤ b.occurrences :=
  length_le_total_map fun t ht => List.length_pos_of_ne_nil (wf.occurs t ht)

theorem length_tuples_le_plainSegments (block : ℕ) : b.tuples.length ≤ plainSegments b block :=
  length_le_total_map fun t ht => one_le_plainSegmentsOf (wf.occurs t ht) block

theorem occurrences_le_segments_mul (positive : 1 ≤ block) :
    b.occurrences ≤ plainSegments b block * block := by
  calc b.occurrences
      ≤ total (b.tuples.map fun t => plainSegmentsOf block t.offsets * block) :=
        total_map_le_total_map fun t ht => length_le_segments_mul (wf.increasing t ht) positive
    _ = plainSegments b block * block := List.sum_map_mul_right ..

/-- Segments that fit leave room for the tuples and for the occurrences. -/
theorem countsFit_of_sums (positive : 1 ≤ block) (blockFits : block ≤ maxCount)
    (segsFit : plainSegments b block ≤ maxCount)
    (runsFit : includeRuns = true → plainRuns b block ≤ maxCount) :
    CountsFit b includeRuns block where
  vals := (length_tuples_le_plainSegments wf block).trans segsFit
  offs := (occurrences_le_segments_mul wf positive).trans
    ((Nat.mul_le_mul segsFit blockFits).trans (by decide))
  segs := segsFit
  runs := runsFit

end WellFormed

/-- A block size of zero counts as one. -/
theorem compute_max_one (b : Bitmap) (includeRuns : Bool) (rows cols blockSize : ℕ) :
    compute b includeRuns rows cols (max blockSize 1) =
      compute b includeRuns rows cols blockSize := by
  rw [compute_eq, compute_eq, Nat.max_assoc, Nat.max_self]

end Factors

end Columnar
