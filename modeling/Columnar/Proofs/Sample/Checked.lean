import Columnar.Counter
import Columnar.Proofs.Sample.ScaleUpBounds

/-!
# Extrapolation with checks

`extrapolate` looks up rows with a default, takes sums without a width and differences that end at
zero, and holds numbers between bounds without comparing these. `checkedExtrapolate` does the same
work and stops where one of these is not in order: at a place outside of an array, at a sum that its
counter cannot hold, at a difference below zero, at bounds in the wrong order, as floats that are no
numbers are, too.

For a well-formed bitmap over a sorted sample of the table whose offsets are positions of the
sample, only one check can fail, that of the occurrences against the rows of the table, and where it
does not the answer is that of `extrapolate` (`checkedExtrapolate_eq`). The other checks rest on the
order of the offsets, on the occurrences of every tuple, or on a bound held before; and the sums on
the counts being 32-bit ones (`SampleStats.Countable`).
-/

namespace Columnar

/-- A number held between bounds that are in order. -/
def clampCount? (low high n : ℕ) : Option ℕ :=
  if low ≤ high then some (clampCount low high n) else none

namespace SampleStats

/-! ### Statistics -/

def segmentsOf? (sample : Array ℕ) (block : ℕ) (offsets : List ℕ) : Option ℕ :=
  match offsets.getLast? with
  | none => some 0
  | some last => (sample[last]?).map (· / block + 1)

def emptyRunsAt? (sample : Array ℕ) (block : ℕ) : Option ℕ × ℕ → Option ℕ
  | (none, position) => (sample[position]?).map fun row => (row + 2) / block
  | (some before, position) => do
    let row ← sample[position]?
    let rowBefore ← sample[before]?
    let gap ← (minus row rowBefore).toOption
    return if position = before + 1 then 0 else gap / block

/-- Gives a position of the sample to a tuple. -/
def own? (tuple : ℕ) (owner : Array (Option ℕ)) (position : ℕ) : Option (Array (Option ℕ)) :=
  if position < owner.size then some (owner.setIfInBounds position (some tuple)) else none

def owners? (tuples : List (List ℕ)) (size : ℕ) : Option (Array (Option ℕ)) :=
  tuples.zipIdx.foldlM (fun owner t => t.1.foldlM (own? t.2) owner) (Array.replicate size none)

/-- The pair of a position of the sample and the next one, if it is one of sampled neighbours. -/
def adjacentAt? (sample : Array ℕ) (owner : Array (Option ℕ)) (i : ℕ) :
    Option (Option (ℕ × Option ℕ)) := do
  let row ← sample[i]?
  let nextRow ← sample[i + 1]?
  let following ← (plus maxCount row 1).toOption
  let first ← owner[i]?
  let second ← owner[i + 1]?
  return if nextRow = following then first.map fun first => (first, second) else none

/-- Counts that go up by one for an occurrence or a position need no check of their own. -/
def ofLists? (lists : List (List ℕ)) (sample : Array ℕ) (blockSize : ℕ) : Option SampleStats := do
  let block := max blockSize 1
  let occurrences ← (addUp maxSize (lists.map (·.length))).toOption
  let segments ← lists.mapM (segmentsOf? sample block)
  let segments ← (addUp maxSize segments).toOption
  let emptyRuns ← lists.mapM fun offsets => (Bitmap.steps offsets).mapM (emptyRunsAt? sample block)
  let emptyRuns ← (addUp maxSize emptyRuns.flatten).toOption
  let owner ← owners? lists sample.size
  let adjacent ← (List.range (sample.size - 1)).mapM (adjacentAt? sample owner)
  let pairs := adjacent.filterMap id
  return {
    distinct := lists.length
    singletons := lists.countP (·.length == 1)
    occurrences := occurrences
    segments := segments
    breaks := total (lists.map fun offsets => (Bitmap.steps offsets).countP isBreak)
    adjacentPairs := pairs.length
    continuations := pairs.countP fun (first, second) => second == some first
    emptyRuns := emptyRuns }

/-! ### Estimates -/

def estimatedOffsets? (s : SampleStats) (sampleSize rows : ℕ) : Option ℕ :=
  clampCount? s.occurrences rows
    (roundToCount (asFloat s.occurrences / (asFloat sampleSize / asFloat rows)))

/-- The bounds of the values are compared as floats. -/
def estimatedValues? (s : SampleStats) (offsets rows : ℕ) : Option ℕ :=
  let low := asFloat s.distinct
  let most := asFloat (min offsets rows)
  let high := if most < low then low else most
  if low ≤ high then some (s.estimatedValues offsets rows) else none

def estimatedRuns? (s : SampleStats) (offsets values : ℕ) : Option ℕ :=
  if 0 < s.adjacentPairs then some (s.estimatedRuns offsets values)
  else do
    let mostBreaks ← (minus s.occurrences s.distinct).toOption
    let breaks :=
      if mostBreaks = 0 then 0
      else roundToCount (asFloat s.breaks / asFloat mostBreaks * asFloat (offsets - values))
    (plus maxSize values breaks).toOption

def scaleUp? (s : SampleStats) (sampleSize rows cols groupCols : ℕ) : Option Factors := do
  let offsets ← s.estimatedOffsets? sampleSize rows
  let values ← s.estimatedValues? offsets rows
  let unseen ← (minus values s.distinct).toOption
  let segments ← (plus maxSize s.segments unseen).toOption
  let runs ← s.estimatedRuns? offsets values
  let runs ← (plus maxSize runs s.emptyRuns).toOption
  return {
    vals := capCount values
    offs := offsets
    segs := capCount segments
    runs := capCount runs
    singles := capCount (s.estimatedSingles values)
    rows, cols, groupCols }

end SampleStats

/-- The factors of a table, from a bitmap over a row sample, with every operation checked. -/
def checkedExtrapolate (b : Bitmap) (sample : Array ℕ) (rows cols blockSize : ℕ) :
    Option Factors :=
  if rows ≤ sample.size then (Factors.compute b true rows cols blockSize).toOption
  else do
    let stats ← SampleStats.ofLists? b.numbered.offsetLists sample blockSize
    let groupCols := low32 b.width
    if stats.distinct = 0 ∨ sample.size = 0 then
      return { vals := 0, offs := 0, segs := 0, runs := 0, singles := 0, rows, cols, groupCols }
    else stats.scaleUp? sample.size rows cols groupCols

/-! ### What the checks find -/

theorem plus?_eq {most a b : ℕ} (fits : a + b ≤ most) : (plus most a b).toOption = some (a + b) :=
  congrArg Except.toOption (plus_of_le fits)

theorem minus?_eq {a b : ℕ} (le : b ≤ a) : (minus a b).toOption = some (a - b) :=
  congrArg Except.toOption (minus_of_le le)

theorem addUp?_eq {most : ℕ} {counts : List ℕ} (fits : total counts ≤ most) :
    (addUp most counts).toOption = some (total counts) :=
  congrArg Except.toOption (addUp_of_le fits)

theorem getElem?_eq_getD {α : Type} {xs : Array α} {i : ℕ} (inside : i < xs.size) (fallback : α) :
    xs[i]? = some (xs.getD i fallback) := by
  rw [Array.getD_eq_getD_getElem?, Array.getElem?_eq_getElem inside]
  rfl

theorem mapM_eq_some {α β : Type} {f : α → Option β} {g : α → β} {xs : List α}
    (answers : ∀ x ∈ xs, f x = some (g x)) : xs.mapM f = some (xs.map g) := by
  induction xs with
  | nil => rfl
  | cons x rest ih =>
    rw [List.mapM_cons, answers x List.mem_cons_self,
      ih fun y mem => answers y (List.mem_cons_of_mem _ mem)]
    rfl

namespace SampleStats

/-- Offsets in order that are positions of a sample. -/
structure InSample (sample : Array ℕ) (offsets : List ℕ) : Prop where
  increasing : offsets.Pairwise (· < ·)
  inside : ∀ p ∈ offsets, p < sample.size

/-- A sorted sample of a table with so many rows. -/
structure SortedRows (sample : Array ℕ) (rows : ℕ) : Prop where
  sorted : sample.toList.Pairwise (· ≤ ·)
  inTable : ∀ row ∈ sample.toList, row < rows

section Places

variable {sample : Array ℕ} {rows block p q : ℕ} {offsets : List ℕ}

theorem row_eq (inside : p < sample.size) : sample[p]? = some (rowAt sample p) :=
  getElem?_eq_getD inside 0

/-- The rows of a sorted sample do not fall from a position to a later one. -/
theorem rowAt_le (sampled : SortedRows sample rows) (inside : q < sample.size) (below : p < q) :
    rowAt sample p ≤ rowAt sample q := by
  have ordered := List.pairwise_iff_getElem.mp sampled.sorted p q (by simp; omega) (by simpa) below
  simpa [rowAt, below.trans inside, inside] using ordered

theorem rowAt_lt (sampled : SortedRows sample rows) (inside : p < sample.size) :
    rowAt sample p < rows := by
  have mem : rowAt sample p ∈ sample.toList := by
    simp [rowAt, inside]
  exact sampled.inTable _ mem

theorem segmentsOf?_eq (inside : ∀ p ∈ offsets, p < sample.size) :
    segmentsOf? sample block offsets = some (segmentsOf sample block offsets) := by
  unfold segmentsOf? segmentsOf
  cases latest : offsets.getLast? with
  | none => rfl
  | some last => simp [row_eq (inside last (List.mem_of_getLast? latest))]

theorem emptyRunsAt?_eq (sampled : SortedRows sample rows) (listed : InSample sample offsets)
    {step : Option ℕ × ℕ} (mem : step ∈ Bitmap.steps offsets) :
    emptyRunsAt? sample block step = some (emptyRunsAt sample block step) := by
  obtain ⟨_ | before, position⟩ := step
  · have row := row_eq (listed.inside position (Bitmap.snd_mem_of_mem_steps mem))
    simp [emptyRunsAt?, emptyRunsAt, row]
  · obtain ⟨earlier, below⟩ := Bitmap.of_mem_steps listed.increasing mem
    have inSample := listed.inside position (Bitmap.snd_mem_of_mem_steps mem)
    have row := row_eq inSample
    have rowBefore := row_eq (listed.inside before earlier)
    have gap := minus?_eq (rowAt_le sampled inSample below)
    simp [emptyRunsAt?, emptyRunsAt, row, rowBefore, gap]

end Places

/-! ### Owners -/

section Owners

variable {sample : Array ℕ} {rows : ℕ} {offsets : List ℕ}

/-- Gives all positions of a list to a tuple. -/
def ownAll (tuple : ℕ) (owner : Array (Option ℕ)) (offsets : List ℕ) : Array (Option ℕ) :=
  offsets.foldl (fun owner position => owner.setIfInBounds position (some tuple)) owner

theorem size_ownAll (tuple : ℕ) (owner : Array (Option ℕ)) (offsets : List ℕ) :
    (ownAll tuple owner offsets).size = owner.size := by
  induction offsets generalizing owner with
  | nil => rfl
  | cons p rest ih => exact (ih _).trans Array.size_setIfInBounds

theorem foldlM_own? (tuple : ℕ) {owner : Array (Option ℕ)}
    (inside : ∀ p ∈ offsets, p < owner.size) :
    offsets.foldlM (own? tuple) owner = some (ownAll tuple owner offsets) := by
  induction offsets generalizing owner with
  | nil => rfl
  | cons p rest ih =>
    have first : own? tuple owner p = some (owner.setIfInBounds p (some tuple)) :=
      if_pos (inside p List.mem_cons_self)
    rw [List.foldlM_cons, first]
    refine ih fun q mem => ?_
    rw [Array.size_setIfInBounds]
    exact inside q (List.mem_cons_of_mem _ mem)

/-- Giving positions to tuples one after the other keeps within the array, which keeps its size. -/
theorem foldlM_owners {tuples : List (List ℕ × ℕ)} {owner : Array (Option ℕ)}
    (inside : ∀ t ∈ tuples, ∀ p ∈ t.1, p < owner.size) :
    tuples.foldlM (fun owner t => t.1.foldlM (own? t.2) owner) owner =
        some (tuples.foldl (fun owner t => ownAll t.2 owner t.1) owner) ∧
      (tuples.foldl (fun owner t => ownAll t.2 owner t.1) owner).size = owner.size := by
  induction tuples generalizing owner with
  | nil => exact ⟨rfl, rfl⟩
  | cons t rest ih =>
    have size := size_ownAll t.2 owner t.1
    obtain ⟨later, laterSize⟩ := @ih (ownAll t.2 owner t.1) fun u mem p listed => by
      rw [size]
      exact inside u (List.mem_cons_of_mem _ mem) p listed
    refine ⟨?_, laterSize.trans size⟩
    rw [List.foldlM_cons, foldlM_own? t.2 (inside t List.mem_cons_self)]
    exact later

theorem owners?_eq {tuples : List (List ℕ)} {size : ℕ}
    (inside : ∀ offsets ∈ tuples, ∀ p ∈ offsets, p < size) :
    owners? tuples size = some (owners tuples size) ∧ (owners tuples size).size = size := by
  have run := @foldlM_owners tuples.zipIdx (Array.replicate size none) fun t mem p listed => by
    rw [Array.size_replicate]
    exact inside t.1 (List.fst_mem_of_mem_zipIdx mem) p listed
  rwa [Array.size_replicate] at run

/-- The pair of a position of the sample and the next one, looked up with defaults. -/
def adjacentAt (sample : Array ℕ) (owner : Array (Option ℕ)) (i : ℕ) : Option (ℕ × Option ℕ) :=
  if rowAt sample (i + 1) = rowAt sample i + 1 then
    (owner.getD i none).map fun first => (first, owner.getD (i + 1) none)
  else none

theorem adjacentAt?_eq (sampled : SortedRows sample rows) (countable : rows ≤ maxCount)
    {owner : Array (Option ℕ)} (owned : owner.size = sample.size) {i : ℕ}
    (inside : i + 1 < sample.size) :
    adjacentAt? sample owner i = some (adjacentAt sample owner i) := by
  have before : i < sample.size := Nat.lt_of_succ_lt inside
  have row := row_eq before
  have nextRow := row_eq inside
  have next : rowAt sample i + 1 ≤ maxCount := (rowAt_lt sampled before).trans_le countable
  have following := plus?_eq next
  have first := getElem?_eq_getD (owned ▸ before) none
  have second := getElem?_eq_getD (owned ▸ inside) none
  simp only [adjacentAt?, row, nextRow, first, second, following, Option.bind_eq_bind,
    Option.bind_some]
  rfl

theorem mapM_adjacentAt? (sampled : SortedRows sample rows) (countable : rows ≤ maxCount)
    {owner : Array (Option ℕ)} (owned : owner.size = sample.size) :
    (List.range (sample.size - 1)).mapM (adjacentAt? sample owner) =
      some ((List.range (sample.size - 1)).map (adjacentAt sample owner)) := by
  apply mapM_eq_some
  intro i mem
  exact adjacentAt?_eq sampled countable owned (Nat.add_lt_of_lt_sub (List.mem_range.mp mem))

end Owners

/-! ### Sums -/

section Sums

variable {sample : Array ℕ} {rows block : ℕ} {offsets : List ℕ} {lists : List (List ℕ)}

/-- Statistics whose sums are those of 32-bit counts, over so many tuples. -/
structure Countable (s : SampleStats) : Prop where
  distinct : s.distinct ≤ maxCount
  segments : s.segments ≤ maxCount * maxCount
  emptyRuns : s.emptyRuns ≤ maxCount * (maxCount + 1)

theorem length_le_of_inSample (listed : InSample sample offsets) :
    offsets.length ≤ sample.size := by
  have distinct : offsets.Nodup := listed.increasing.imp Nat.ne_of_lt
  have within : offsets ⊆ List.range sample.size :=
    fun p mem => List.mem_range.mpr (listed.inside p mem)
  simpa using (distinct.subperm within).length_le

theorem segmentsOf_le (sampled : SortedRows sample rows) (countable : rows ≤ maxCount)
    (inside : ∀ p ∈ offsets, p < sample.size) : segmentsOf sample block offsets ≤ maxCount := by
  unfold segmentsOf
  cases latest : offsets.getLast? with
  | none => exact Nat.zero_le _
  | some last =>
    have below := rowAt_lt sampled (inside last (List.mem_of_getLast? latest))
    exact (Nat.succ_le_succ (Nat.div_le_self ..)).trans (Nat.succ_le_of_lt below |>.trans countable)

/-- The empty runs of a tuple reach from one of its rows to the next, and together no further than
to the last. -/
theorem total_emptyRunsAt_le (sampled : SortedRows sample rows) (listed : InSample sample offsets)
    {last : ℕ} (latest : offsets.getLast? = some last) :
    total ((Bitmap.steps offsets).map (emptyRunsAt sample block)) ≤ rowAt sample last + 2 := by
  induction offsets using List.reverseRecOn generalizing last with
  | nil => cases latest
  | append_singleton front position ih =>
    rw [List.getLast?_concat, Option.some.injEq] at latest
    subst latest
    obtain ⟨ordered, -, above⟩ := List.pairwise_append.mp listed.increasing
    have earlier : InSample sample front :=
      ⟨ordered, fun p mem => listed.inside p (List.mem_append_left _ mem)⟩
    rw [Bitmap.steps_concat, List.map_append, total_append, List.map_singleton, total_cons,
      total_nil, Nat.add_zero]
    cases before : front.getLast? with
    | none =>
      rw [List.getLast?_eq_none_iff.mp before]
      exact (Nat.zero_add _).trans_le (Nat.div_le_self ..)
    | some previous =>
      have runs := ih earlier before
      have below := above previous (List.mem_of_getLast? before) position List.mem_cons_self
      have rise := rowAt_le sampled (listed.inside position List.mem_concat_self) below
      have gap : emptyRunsAt sample block (some previous, position) ≤
          rowAt sample position - rowAt sample previous := by
        simp only [emptyRunsAt]
        split
        · exact Nat.zero_le _
        · exact Nat.div_le_self ..
      omega

theorem total_emptyRunsAt_le_maxCount (sampled : SortedRows sample rows)
    (countable : rows ≤ maxCount) (listed : InSample sample offsets) :
    total ((Bitmap.steps offsets).map (emptyRunsAt sample block)) ≤ maxCount + 1 := by
  cases latest : offsets.getLast? with
  | none =>
    rw [List.getLast?_eq_none_iff.mp latest]
    exact Nat.zero_le _
  | some last =>
    have below := rowAt_lt sampled (listed.inside last (List.mem_of_getLast? latest))
    exact (total_emptyRunsAt_le sampled listed latest).trans (by omega)

variable (sampled : SortedRows sample rows) (countable : rows ≤ maxCount)
  (few : lists.length ≤ maxCount) (listed : ∀ offsets ∈ lists, InSample sample offsets)
include sampled countable few listed

theorem countable_ofLists (blockSize : ℕ) : Countable (ofLists lists sample blockSize) where
  distinct := few
  segments := (total_map_le_mul fun offsets mem =>
    segmentsOf_le sampled countable (listed offsets mem).inside).trans
      (Nat.mul_le_mul_right _ few)
  emptyRuns := (total_map_le_mul fun offsets mem =>
    total_emptyRunsAt_le_maxCount sampled countable (listed offsets mem)).trans
      (Nat.mul_le_mul_right _ few)

/-- **Collecting statistics keeps within its arrays and its counters**, and no gap is below zero. -/
theorem ofLists?_eq (small : sample.size ≤ maxCount) (blockSize : ℕ) :
    ofLists? lists sample blockSize = some (ofLists lists sample blockSize) := by
  have counts := countable_ofLists sampled countable few listed blockSize
  have occurrences : total (lists.map (·.length)) ≤ maxSize :=
    (total_map_le_mul fun offsets mem =>
      (length_le_of_inSample (listed offsets mem)).trans small).trans
        ((Nat.mul_le_mul_right _ few).trans (by decide))
  have segmentTerms := mapM_eq_some fun offsets mem =>
    @segmentsOf?_eq sample (max blockSize 1) offsets (listed offsets mem).inside
  have segments : total (lists.map (segmentsOf sample (max blockSize 1))) ≤ maxSize :=
    counts.segments.trans (by decide)
  have emptyTerms := mapM_eq_some fun offsets mem => mapM_eq_some fun step taken =>
    @emptyRunsAt?_eq sample rows (max blockSize 1) offsets sampled (listed offsets mem) step taken
  have flat : total ((lists.map fun offsets =>
      (Bitmap.steps offsets).map (emptyRunsAt sample (max blockSize 1))).flatten) =
        (ofLists lists sample blockSize).emptyRuns := by
    rw [← List.flatMap_def, total_flatMap]
    rfl
  have emptyRuns := flat.trans_le (counts.emptyRuns.trans (show _ ≤ maxSize by decide))
  obtain ⟨owner, owned⟩ := owners?_eq fun offsets mem => (listed offsets mem).inside
  have adjacent := mapM_adjacentAt? sampled countable owned
  simp only [ofLists?, addUp?_eq occurrences, segmentTerms, addUp?_eq segments, emptyTerms,
    addUp?_eq emptyRuns, flat, owner, adjacent, Option.bind_eq_bind, Option.bind_some,
    List.filterMap_map]
  rfl

end Sums

section Estimates

variable {s : SampleStats} {rows offsets values : ℕ}

theorem estimatedOffsets?_eq (fits : s.occurrences ≤ rows) (sampleSize : ℕ) :
    s.estimatedOffsets? sampleSize rows = some (s.estimatedOffsets sampleSize rows) := if_pos fits

/-- The bounds of the values are counts of 53 bits, and so are compared as these. -/
theorem estimatedValues?_eq (sampled : s.distinct < 2 ^ 53) (small : offsets < 2 ^ 53) (rows : ℕ) :
    s.estimatedValues? offsets rows = some (s.estimatedValues offsets rows) := by
  have low : Denotes (asFloat s.distinct) s.distinct := denotes_asFloat sampled
  have most : Denotes (asFloat (min offsets rows)) (min offsets rows : ℕ) :=
    denotes_asFloat ((Nat.min_le_left ..).trans_lt small)
  unfold estimatedValues?
  refine if_pos ?_
  split
  · rw [low.le_iff low]
  · rename_i notBelow
    rw [low.le_iff most]
    rw [most.lt_iff low, not_lt] at notBelow
    exact notBelow

theorem estimatedRuns?_eq (consistent : s.Consistent)
    (within : s.estimatedRuns offsets values ≤ rows) (countable : rows ≤ maxCount) :
    s.estimatedRuns? offsets values = some (s.estimatedRuns offsets values) := by
  unfold estimatedRuns?
  unfold estimatedRuns at within ⊢
  split
  · rfl
  · rename_i none
    rw [if_neg none] at within
    rw [minus?_eq consistent.occurrences, Option.bind_eq_bind, Option.bind_some]
    exact plus?_eq (within.trans (countable.trans (by decide)))

theorem scaleUp?_eq (consistent : s.Consistent) (counts : s.Countable) (fits : s.occurrences ≤ rows)
    (countable : rows ≤ maxCount) (sampleSize cols groupCols : ℕ) :
    s.scaleUp? sampleSize rows cols groupCols =
      some (s.scaleUp sampleSize rows cols groupCols) := by
  have exact53 : maxCount < 2 ^ 53 := by decide
  have occurrences := consistent.occurrences
  obtain ⟨sampledOffs, offs⟩ := estimatedOffsets_bounds fits sampleSize
  have values := s.estimatedValues?_eq (by omega) (offs.trans_lt (by omega)) rows
  obtain ⟨sampledVals, vals⟩ := estimatedValues_bounds (occurrences.trans sampledOffs) rows
  have runs := (estimatedRuns_bounds consistent (by omega) (offs.trans_lt (by omega)) vals).2
  have segmentsFit : s.segments + (s.estimatedValues (s.estimatedOffsets sampleSize rows) rows -
      s.distinct) ≤ maxSize := by
    have segments := counts.segments
    simp only [maxCount, maxSize] at *
    omega
  have runsFit : s.estimatedRuns (s.estimatedOffsets sampleSize rows)
      (s.estimatedValues (s.estimatedOffsets sampleSize rows) rows) + s.emptyRuns ≤ maxSize := by
    have emptyRuns := counts.emptyRuns
    simp only [maxCount, maxSize] at *
    omega
  simp [scaleUp?, scaleUp, estimatedOffsets?_eq fits, values, minus?_eq sampledVals,
    estimatedRuns?_eq consistent (runs.trans offs) countable, plus?_eq segmentsFit,
    plus?_eq runsFit]

theorem scaleUp?_eq_none (crowded : rows < s.occurrences) (sampleSize cols groupCols : ℕ) :
    s.scaleUp? sampleSize rows cols groupCols = none := by
  have stops : s.estimatedOffsets? sampleSize rows = none := if_neg (Nat.not_le.mpr crowded)
  rw [scaleUp?, stops]
  rfl

end Estimates

end SampleStats

/-- **Only the clamp of the occurrences can be out of order.** Checks that do not fail do not show
in the answer. -/
theorem checkedExtrapolate_eq {b : Bitmap} {sample : Array ℕ} {rows : ℕ} (wf : b.WellFormed)
    (sampled : SampleStats.SortedRows sample rows)
    (inside : ∀ t ∈ b.numbered.tuples, ∀ p ∈ t.offsets, p < sample.size)
    (countable : rows ≤ maxCount) (cols blockSize : ℕ) :
    checkedExtrapolate b sample rows cols blockSize =
      (extrapolate b sample rows cols blockSize).toOption := by
  unfold checkedExtrapolate extrapolate
  split
  · rfl
  rename_i smaller
  have few : b.numbered.offsetLists.length ≤ maxCount :=
    (List.length_map _).trans_le b.length_numbered_le
  have listed : ∀ offsets ∈ b.numbered.offsetLists, SampleStats.InSample sample offsets := by
    intro offsets mem
    obtain ⟨t, ht, rfl⟩ := List.mem_map.mp mem
    exact ⟨wf.numbered.increasing t ht, inside t ht⟩
  have consistent := SampleStats.consistent_collect wf sample blockSize
  have counts := SampleStats.countable_ofLists sampled countable few listed blockSize
  rw [SampleStats.ofLists?_eq sampled countable few listed (by omega)]
  simp only [Option.bind_eq_bind, Option.bind_some]
  show (if (SampleStats.collect b sample blockSize).distinct = 0 ∨ sample.size = 0
    then _ else _) = _
  split
  · rfl
  · split
    · rename_i crowded
      exact SampleStats.scaleUp?_eq_none crowded ..
    · rename_i fits
      exact SampleStats.scaleUp?_eq consistent counts (Nat.le_of_not_lt fits) countable ..

end Columnar
