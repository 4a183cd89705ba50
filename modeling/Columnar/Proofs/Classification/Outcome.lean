import Columnar.Proofs.Classification.Rounds
import Columnar.Proofs.WorkerPool

/-!
# What a classification answers

The outcome of a classification, said without its rounds. `accepted` are the columns that pay
against their own baseline size, `leftOver` the others, and `moved` those of the others that pay
against the size of a dense column, provided that all the others together would be stored dense.
`exists_secondRound` says that the two rounds end with these columns.

A classification of priced columns succeeds exactly if the baseline answers what it is asked
(`AllAnswered`) and the listed rows of the columns left over fit 64 bits (`exists_partition`,
`of_partition_eq_ok`); it then answers these columns (`Answers`), for every estimator that prices
the columns of its table, every baseline and every pool of workers that start. Where the rows do not
fit it stops (`classify_of_exceeds`).
-/

namespace Columnar.Classifier

section Columns

variable (b : Baseline) (rows count : Nat) (priced : Nat → Pricing)

/-- The columns that pay against their own baseline size. -/
def accepted : List Nat := (List.range count).filter (pays b rows priced)

/-- The columns that do not pay against their own baseline size. -/
def leftOver : List Nat := (List.range count).filter fun column => !pays b rows priced column

/-- Whether the columns that are left over would be stored dense together. -/
def storedDense : Bool :=
  !(leftOver b rows count priced).isEmpty &&
    !answered (b.prefersSparse rows (leftOver b rows count priced).length
      (listed priced (leftOver b rows count priced)))

/-- The columns left over that pay against the size of a dense column, where that is asked. -/
def moved : List Nat :=
  if storedDense b rows count priced
  then (leftOver b rows count priced).filter (paysDense b rows priced) else []

def kept : List Nat :=
  (leftOver b rows count priced).filter fun column => column ∉ moved b rows count priced

/-- The baseline answers everything that it is asked. -/
structure AllAnswered : Prop where
  own : OwnAnswered b rows priced (List.range count)
  layout : leftOver b rows count priced ≠ [] →
    ∃ sparse, b.prefersSparse rows (leftOver b rows count priced).length
      (listed priced (leftOver b rows count priced)) = .ok sparse
  dense : storedDense b rows count priced = true → ∃ bytes, b.uncompressedSize rows 1 1 = .ok bytes

/-- The tally in the second round, after it has weighed the columns `seen` again. -/
def midway (seen : List Nat) : Except PlanError Tally := do
  let first ← firstRound b rows ((List.range count).map priced)
  { first with rest := [] }.reconsiderAll ((List.range count).map priced).toArray
    (answered (b.uncompressedSize rows 1 1)) seen

/-- What a tally holds after both rounds. The first round ended with `first`. -/
structure Settled (first t : Tally) : Prop where
  compressible :
    t.compressible.reverse = accepted b rows count priced ++ moved b rows count priced
  rest : t.rest.reverse = kept b rows count priced
  corrected : t.corrected.reverse = moved b rows count priced
  ratios : ∀ k : Nat, t.ratios[k]? =
    if k ∈ moved b rows count priced then some (denseScore b rows (priced k)).ratio
    else if k ∈ accepted b rows count priced then some (ownScore b rows (priced k)).ratio
    else none
  nonzeros : t.nonzeros = listed priced (kept b rows count priced)
  nonzerosBefore : first.nonzeros = t.nonzeros + listed priced (moved b rows count priced)
  bestCounts : ∀ e, t.bestCounts.get e =
    (List.range count).countP fun column => (priced column).bestEncoding == e
  sizeUncompressed : t.sizeUncompressed = min (total ((List.range count).map fun column =>
    (ownScore b rows (priced column)).uncompressed)) maxSize
  sizeCompressed : t.sizeCompressed =
    min (total (t.compressible.reverse.map fun column => (priced column).minSize)) maxSize

end Columns

section Partition

variable {b : Baseline} {rows count : Nat} {priced : Nat → Pricing}

theorem mem_accepted {k : Nat} :
    k ∈ accepted b rows count priced ↔ k < count ∧ pays b rows priced k = true := by
  simp [accepted]

theorem mem_leftOver {k : Nat} :
    k ∈ leftOver b rows count priced ↔ k < count ∧ pays b rows priced k = false := by
  simp [leftOver]

theorem length_leftOver_le (b : Baseline) (rows count : Nat) (priced : Nat → Pricing) :
    (leftOver b rows count priced).length ≤ count := by
  exact (List.length_filter_le ..).trans (List.length_range).le

theorem moved_eq_nil (sparse : storedDense b rows count priced = false) :
    moved b rows count priced = [] := by
  simp [moved, sparse]

theorem moved_eq_filter (dense : storedDense b rows count priced = true) :
    moved b rows count priced =
      (leftOver b rows count priced).filter (paysDense b rows priced) := by
  simp [moved, dense]

theorem moved_subset {k : Nat} (h : k ∈ moved b rows count priced) :
    k ∈ leftOver b rows count priced := by
  unfold moved at h
  split at h
  · exact List.mem_of_mem_filter h
  · exact absurd h List.not_mem_nil

theorem kept_eq_leftOver (sparse : storedDense b rows count priced = false) :
    kept b rows count priced = leftOver b rows count priced := by
  simp [kept, moved_eq_nil sparse]

theorem kept_eq_filter (dense : storedDense b rows count priced = true) :
    kept b rows count priced =
      (leftOver b rows count priced).filter fun column => !paysDense b rows priced column := by
  unfold kept
  rw [moved_eq_filter dense]
  refine List.filter_congr fun column hcolumn => ?_
  simp [hcolumn]

theorem listed_kept_add_moved :
    listed priced (kept b rows count priced) + listed priced (moved b rows count priced) =
      listed priced (leftOver b rows count priced) := by
  cases dense : storedDense b rows count priced with
  | false => simp [kept_eq_leftOver dense, moved_eq_nil dense]
  | true =>
    rw [kept_eq_filter dense, moved_eq_filter dense, Nat.add_comm]
    exact listed_filter_add _ _

section Second

variable {first : Tally} (placed : Placed b rows priced (List.range count) first)
include placed

theorem reconsider_leftOver {seen left : List Nat}
    (split : leftOver b rows count priced = seen ++ left) :
    ∃ t, { first with rest := [] }.reconsiderAll ((List.range count).map priced).toArray
        (answered (b.uncompressedSize rows 1 1)) seen = .ok t ∧
      Reconsidered b rows priced first seen left t := by
  have rest : first.rest.reverse = seen ++ left := placed.rest.trans split
  have start := placed.reconsidered
  rw [rest] at start
  refine start.reconsiderAll fun column hcolumn => ?_
  have among : column ∈ leftOver b rows count priced := by
    rw [split]
    exact List.mem_append_left _ hcolumn
  exact (mem_leftOver.mp among).1

/-- What the second round asks and does, by the columns left over. -/
theorem secondRound_eq :
    secondRound b rows ((List.range count).map priced).toArray first =
      if (leftOver b rows count priced).isEmpty then .ok first
      else (do
        let sparse ← b.prefersSparse rows (leftOver b rows count priced).length
          (listed priced (leftOver b rows count priced))
        if sparse then return first
        let dense ← b.uncompressedSize rows 1 1
        { first with rest := [] }.reconsiderAll ((List.range count).map priced).toArray dense
          (leftOver b rows count priced)) := by
  have rest : first.rest = (leftOver b rows count priced).reverse := by
    rw [leftOver, ← placed.rest, List.reverse_reverse]
  have nonzeros : first.nonzeros = listed priced (leftOver b rows count priced) := placed.nonzeros
  unfold secondRound
  simp only [rest, nonzeros, List.isEmpty_reverse, List.length_reverse, List.reverse_reverse]
  rfl

/-- The second round runs over all columns left over when they would be stored dense together, and
else not at all. -/
theorem secondRound_of_answers (answers : AllAnswered b rows count priced) :
    secondRound b rows ((List.range count).map priced).toArray first =
      if storedDense b rows count priced
      then { first with rest := [] }.reconsiderAll ((List.range count).map priced).toArray
        (answered (b.uncompressedSize rows 1 1)) (leftOver b rows count priced)
      else .ok first := by
  rw [secondRound_eq placed]
  cases none : (leftOver b rows count priced).isEmpty with
  | true => simp [storedDense, none]
  | false =>
    have left : leftOver b rows count priced ≠ [] := by simpa using none
    have layout := eq_ok_answered (answers.layout left)
    rw [layout]
    cases dense : storedDense b rows count priced with
    | true =>
      have notSparse : answered (b.prefersSparse rows (leftOver b rows count priced).length
          (listed priced (leftOver b rows count priced))) = false := by
        simpa [storedDense, none] using dense
      have full := eq_ok_answered (answers.dense dense)
      rw [notSparse, full]
      rfl
    | false =>
      have sparse : answered (b.prefersSparse rows (leftOver b rows count priced).length
          (listed priced (leftOver b rows count priced))) = true := by
        simpa [storedDense, none] using dense
      rw [sparse]
      rfl

/-- A second round that goes through has had its answers. -/
theorem allAnswered_of_secondRound (own : OwnAnswered b rows priced (List.range count)) {t : Tally}
    (success : secondRound b rows ((List.range count).map priced).toArray first = .ok t) :
    AllAnswered b rows count priced := by
  rw [secondRound_eq placed] at success
  cases none : (leftOver b rows count priced).isEmpty with
  | true =>
    have nothing := List.isEmpty_iff.mp none
    exact ⟨own, fun left => absurd nothing left, fun dense => by simp [storedDense, none] at dense⟩
  | false =>
    rw [none, if_neg Bool.false_ne_true] at success
    obtain ⟨sparse, layout, others⟩ := exists_of_bind_eq_ok success
    refine ⟨own, fun _ => ⟨sparse, layout⟩, fun dense => ?_⟩
    have notSparse : sparse = false := by
      rw [storedDense, none, layout] at dense
      simpa using dense
    rw [notSparse] at others
    obtain ⟨bytes, full, -⟩ := exists_of_bind_eq_ok others
    exact ⟨bytes, full⟩

/-- **Both rounds end with the accepted, the moved and the kept columns.** -/
theorem exists_secondRound (answers : AllAnswered b rows count priced) :
    ∃ t, secondRound b rows ((List.range count).map priced).toArray first = .ok t ∧
      Settled b rows count priced first t := by
  rw [secondRound_of_answers placed answers]
  cases dense : storedDense b rows count priced with
  | false =>
    have none := moved_eq_nil dense
    have all := kept_eq_leftOver dense
    -- the tally of the first round is final
    refine ⟨first, if_neg Bool.false_ne_true, ?_⟩
    refine ⟨?_, ?_, ?_, ?_, ?_, ?_, placed.bestCounts, placed.sizeUncompressed, ?_⟩
    · rw [none, List.append_nil]; exact placed.compressible
    · rw [all]; exact placed.rest
    · simp [none, placed.corrected]
    · intro k
      rw [placed.ratios k]
      simp [none, mem_accepted]
    · rw [all]; exact placed.nonzeros
    · simp [none]
    · rw [placed.compressible]; exact placed.sizeCompressed
  | true =>
    have filtered := moved_eq_filter dense
    have others := kept_eq_filter dense
    -- every column left over has been weighed again, and none is to come
    obtain ⟨t, round, final⟩ :=
      reconsider_leftOver placed (List.append_nil (leftOver b rows count priced)).symm
    refine ⟨t, (if_pos rfl).trans round, ?_⟩
    refine ⟨?_, ?_, ?_, ?_, ?_, ?_, ?_, ?_, ?_⟩
    · rw [final.compressible, filtered]
      exact congrArg (· ++ _) placed.compressible
    · rw [others]; exact final.rest
    · rw [filtered]; exact final.corrected
    · intro k
      rw [final.ratios k, placed.ratios k, filtered]
      simp [mem_accepted]
    · rw [others, final.nonzeros, listed_nil, Nat.add_zero]
    · rw [final.nonzeros, placed.nonzeros, listed_nil, Nat.add_zero, ← others,
        listed_kept_add_moved]
      rfl
    · intro e
      rw [final.bestCounts]
      exact placed.bestCounts e
    · rw [final.sizeUncompressed]; exact placed.sizeUncompressed
    · rw [final.sizeCompressed, final.compressible, placed.sizeCompressed, placed.compressible]
      simp only [List.map_append, total_append]
      omega

end Second

/-! ### Both rounds -/

/-- The classification that the tallies of both rounds make. -/
def outcome (pricings : List Pricing) (first final : Tally) : Classification where
  compressible := final.compressible.reverse
  notCompressible := final.rest.reverse
  ratios := final.ratios
  pricings := pricings
  nonzerosUncompressed := final.nonzeros
  statistics :=
    { nonzerosBefore := first.nonzeros
      nonzerosAfter := final.nonzeros
      corrected := final.corrected.reverse
      bestCounts := final.bestCounts
      sizeUncompressed := final.sizeUncompressed
      sizeCompressed := final.sizeCompressed }

/-- **Priced columns are classified** if every question is answered and the listed rows fit. -/
theorem exists_partition (answers : AllAnswered b rows count priced)
    (fits : listed priced (leftOver b rows count priced) ≤ maxSize) :
    ∃ r, partition b rows ((List.range count).map priced) = .ok r := by
  obtain ⟨first, round, placed⟩ := exists_firstRound answers.own fits
  obtain ⟨final, round', -⟩ := exists_secondRound placed answers
  refine ⟨outcome ((List.range count).map priced) first final, ?_⟩
  unfold partition
  rw [round]
  show (secondRound b rows _ first >>= _) = _
  rw [round']
  rfl

/-- They are only then, and the outcome is that of settled tallies. -/
theorem of_partition_eq_ok {r : Classification}
    (success : partition b rows ((List.range count).map priced) = .ok r) :
    (AllAnswered b rows count priced ∧
      listed priced (leftOver b rows count priced) ≤ maxSize) ∧
    ∃ first final, firstRound b rows ((List.range count).map priced) = .ok first ∧
      Settled b rows count priced first final ∧
      r = outcome ((List.range count).map priced) first final := by
  obtain ⟨first, round, second⟩ := exists_of_bind_eq_ok success
  obtain ⟨final, round', answer⟩ := exists_of_bind_eq_ok second
  obtain ⟨fits, placed⟩ := placed_of_firstRound round
  have answers := allAnswered_of_secondRound placed (ownAnswered_of_firstRound round) round'
  obtain ⟨final', again, settled⟩ := exists_secondRound placed answers
  obtain rfl := Except.ok.inj (round'.symm.trans again)
  exact ⟨⟨answers, fits⟩, first, final, round, settled, (Except.ok.inj answer).symm⟩

/-- Columns that list no more rows than a table has list together what fits 64 bits. -/
theorem listed_leftOver_le (within : ∀ k < count, (priced k).nonzeros ≤ rows)
    (rowsFit : rows ≤ maxCount) (colsFit : count ≤ maxCount) :
    listed priced (leftOver b rows count priced) ≤ maxSize := by
  calc listed priced (leftOver b rows count priced)
      ≤ (leftOver b rows count priced).length * rows :=
        listed_le_mul fun k left => within k (mem_leftOver.mp left).1
    _ ≤ maxCount * maxCount :=
        Nat.mul_le_mul ((length_leftOver_le b rows count priced).trans colsFit) rowsFit
    _ ≤ maxSize := by decide

theorem moved_append_kept_perm :
    (moved b rows count priced ++ kept b rows count priced).Perm
      (leftOver b rows count priced) := by
  cases dense : storedDense b rows count priced with
  | false => rw [moved_eq_nil dense, kept_eq_leftOver dense, List.nil_append]
  | true =>
    rw [moved_eq_filter dense, kept_eq_filter dense]
    exact List.filter_append_perm _ _

end Partition

/-! ### The answer -/

/-- What a classification answers for the priced columns of a table. -/
structure Answers (b : Baseline) (rows count : Nat) (priced : Nat → Pricing)
    (r : Classification) : Prop where
  compressible : r.compressible = accepted b rows count priced ++ moved b rows count priced
  notCompressible : r.notCompressible = kept b rows count priced
  corrected : r.statistics.corrected = moved b rows count priced
  /-- The compressible columns are those with a ratio. -/
  mem_ratios : ∀ k, k ∈ r.ratios ↔ k ∈ accepted b rows count priced ∨ k ∈ moved b rows count priced
  ratio_accepted : ∀ k ∈ accepted b rows count priced,
    r.ratio? k = some (ownScore b rows (priced k)).ratio
  ratio_moved : ∀ k ∈ moved b rows count priced,
    r.ratio? k = some (denseScore b rows (priced k)).ratio
  one_lt_ratio : ∀ k ratio, r.ratio? k = some ratio → 1 < ratio
  pricings : r.pricings = (List.range count).map priced
  /-- Every column of the table is in one of the two lists, and once. -/
  perm : (r.compressible ++ r.notCompressible).Perm (List.range count)
  /-- The first round decides on a column by its own price alone. -/
  own_decision : ∀ k < count, (k ∈ r.compressible ∧ k ∉ r.statistics.corrected) ↔
    (ownScore b rows (priced k)).isBeneficial = true

section Answer

variable {b : Baseline} {rows count : Nat} {priced : Nat → Pricing}

theorem not_mem_moved_of_mem_accepted {k : Nat} (h : k ∈ accepted b rows count priced) :
    k ∉ moved b rows count priced := by
  intro again
  have paying := (mem_accepted.mp h).2
  rw [(mem_leftOver.mp (moved_subset again)).2] at paying
  exact Bool.false_ne_true paying

theorem paysDense_of_mem_moved {k : Nat} (h : k ∈ moved b rows count priced) :
    paysDense b rows priced k = true := by
  unfold moved at h
  split at h
  · exact List.of_mem_filter h
  · exact absurd h List.not_mem_nil

theorem answers_of_partition {r : Classification}
    (success : partition b rows ((List.range count).map priced) = .ok r) :
    Answers b rows count priced r := by
  obtain ⟨-, first, final, -, settled, rfl⟩ := of_partition_eq_ok success
  have accepted_ratio : ∀ k ∈ accepted b rows count priced,
      (outcome ((List.range count).map priced) first final).ratio? k =
        some (ownScore b rows (priced k)).ratio := by
    intro k hk
    have stays := not_mem_moved_of_mem_accepted hk
    exact (settled.ratios k).trans (by rw [if_neg stays, if_pos hk])
  have moved_ratio : ∀ k ∈ moved b rows count priced,
      (outcome ((List.range count).map priced) first final).ratio? k =
        some (denseScore b rows (priced k)).ratio := by
    intro k hk
    exact (settled.ratios k).trans (if_pos hk)
  have mem_ratios : ∀ k, k ∈ final.ratios ↔
      k ∈ accepted b rows count priced ∨ k ∈ moved b rows count priced := by
    intro k
    rw [Std.TreeMap.mem_iff_isSome_getElem?, settled.ratios k]
    by_cases hm : k ∈ moved b rows count priced
    · simp [hm]
    · by_cases ha : k ∈ accepted b rows count priced
      · simp [hm, ha]
      · simp [hm, ha]
  refine ⟨settled.compressible, settled.rest, settled.corrected, mem_ratios, accepted_ratio,
    moved_ratio, ?_, rfl, ?_, ?_⟩
  · intro k ratio found
    have known : k ∈ final.ratios := by
      rw [Std.TreeMap.mem_iff_isSome_getElem?]
      exact Option.isSome_iff_exists.mpr ⟨ratio, found⟩
    rcases (mem_ratios k).mp known with ha | hm
    · rw [accepted_ratio k ha, Option.some.injEq] at found
      rw [← found]
      exact of_decide_eq_true (mem_accepted.mp ha).2
    · rw [moved_ratio k hm, Option.some.injEq] at found
      rw [← found]
      exact of_decide_eq_true (paysDense_of_mem_moved hm)
  · show (final.compressible.reverse ++ final.rest.reverse).Perm (List.range count)
    rw [settled.compressible, settled.rest, List.append_assoc]
    exact (moved_append_kept_perm.append_left _).trans (List.filter_append_perm _ _)
  · intro k hk
    show k ∈ final.compressible.reverse ∧ k ∉ final.corrected.reverse ↔
      pays b rows priced k = true
    rw [settled.compressible, settled.corrected, List.mem_append]
    constructor
    · rintro ⟨ha | hm, stays⟩
      · exact (mem_accepted.mp ha).2
      · exact absurd hm stays
    · intro paying
      have ha : k ∈ accepted b rows count priced := mem_accepted.mpr ⟨hk, paying⟩
      exact ⟨Or.inl ha, not_mem_moved_of_mem_accepted ha⟩

/-- If every column is priced, the classification is that of the priced columns. -/
theorem classify_eq_partition {c : Classifier} (starts : c.pool.Starts) {e : Estimator}
    {priced : Nat → Pricing}
    (succeeds : ∀ column < e.cols, e.estimate [column] = .ok (priced column)) :
    c.classify e = partition c.baseline e.rows ((List.range e.cols).map priced) := by
  have pricings : c.pool.map e.cols (fun column => e.estimate [column]) =
      .ok ((List.range e.cols).map priced) := WorkerPool.map_eq_ok starts succeeds
  unfold classify
  rw [pricings]
  rfl

/-- What a classification of priced columns comes to. -/
structure Outcome (c : Classifier) (e : Estimator) (priced : Nat → Pricing) : Prop where
  /-- It succeeds if the baseline answers and the listed rows of the columns left over fit. -/
  succeeds : AllAnswered c.baseline e.rows e.cols priced →
    listed priced (leftOver c.baseline e.rows e.cols priced) ≤ maxSize → ∃ r, c.classify e = .ok r
  /-- It only succeeds then, and answers. -/
  answers : ∀ r, c.classify e = .ok r →
    AllAnswered c.baseline e.rows e.cols priced ∧
      listed priced (leftOver c.baseline e.rows e.cols priced) ≤ maxSize ∧
      Answers c.baseline e.rows e.cols priced r
  /-- Listed rows that do not fit stop it. -/
  stops : OwnAnswered c.baseline e.rows priced (List.range e.cols) →
    maxSize < listed priced (leftOver c.baseline e.rows e.cols priced) →
    c.classify e = .error .overflow

/-- Listed rows of the columns left over that do not fit stop a classification. -/
theorem classify_of_exceeds {c : Classifier} (starts : c.pool.Starts) {e : Estimator}
    {priced : Nat → Pricing}
    (succeeds : ∀ column < e.cols, e.estimate [column] = .ok (priced column))
    (own : OwnAnswered c.baseline e.rows priced (List.range e.cols))
    (exceeds : maxSize < listed priced (leftOver c.baseline e.rows e.cols priced)) :
    c.classify e = .error .overflow := by
  rw [classify_eq_partition starts succeeds, partition, firstRound_of_exceeds own exceeds]
  rfl

/-- **The outcome of a classification.** If an estimator prices every column of its table, the
baseline answers what it is asked and the listed rows of the columns left over fit 64 bits, the
classification succeeds, for any number of workers and any order in which they finish. It answers:
the columns that pay on their own, then those that pay against a dense column when the rest would be
stored dense; the others as not compressible. -/
theorem classify_answers (c : Classifier) (starts : c.pool.Starts) (e : Estimator)
    (priced : Nat → Pricing)
    (succeeds : ∀ column < e.cols, e.estimate [column] = .ok (priced column)) :
    Outcome c e priced := by
  have same := classify_eq_partition starts succeeds
  refine ⟨fun answers fits => ?_, fun r success => ?_, classify_of_exceeds starts succeeds⟩
  · rw [same]
    exact exists_partition answers fits
  · rw [same] at success
    obtain ⟨⟨answers, fits⟩, -⟩ := of_partition_eq_ok success
    exact ⟨answers, fits, answers_of_partition success⟩

/-! Three columns of which the first pays on its own, the second against a dense column, and the
third not at all, classified by two workers that finish in reverse. -/

def sizedColumn (size : Nat) : Pricing :=
  ⟨⟨1, 3, 1, 2, 0, 4, 3, 1⟩, ⟨size, 500, 500, 500, 500⟩⟩

def threeSizes (column : Nat) : Pricing := sizedColumn ([10, 60, 200].getD column 0)

/-- An estimator of single columns with the given prices. -/
def pricedColumns (rows cols : Nat) (priced : Nat → Pricing) : Estimator where
  name := "fixed"
  rows := rows
  cols := cols
  estimate columns :=
    match columns with
    | [column] => .ok (priced column)
    | _ => .error (.invalidArgument .emptySubset)
  estimateBitmap _ := .error (.invalidArgument .emptySubset)

def threeColumns : Estimator := pricedColumns 4 3 threeSizes

/-- Two workers that finish their tasks in reverse, against a baseline that stores dense. -/
def reverseClassifier : Classifier where
  pool :=
    { workers := 2
      schedule := fun count => (List.range count).reverse
      schedule_perm := fun _ => List.reverse_perm _ }
  baseline := ⟨fun _ _ density => .ok (if density == 1 then 100 else 50), fun _ _ _ => .ok false⟩

theorem allAnswered_reverseClassifier (rows count : Nat) (priced : Nat → Pricing) :
    AllAnswered reverseClassifier.baseline rows count priced :=
  ⟨fun _ _ => ⟨_, rfl⟩, fun _ => ⟨_, rfl⟩, fun _ => ⟨_, rfl⟩⟩

theorem classify_answers_three_columns :
    reverseClassifier.pool.Starts ∧
      accepted reverseClassifier.baseline 4 3 threeSizes = [0] ∧
      moved reverseClassifier.baseline 4 3 threeSizes = [1] ∧
      kept reverseClassifier.baseline 4 3 threeSizes = [2] ∧
      (∀ column < 3, threeColumns.estimate [column] = .ok (threeSizes column)) ∧
      ∃ r, reverseClassifier.classify threeColumns = .ok r ∧
        Answers reverseClassifier.baseline 4 3 threeSizes r := by
  have outcome := classify_answers reverseClassifier rfl threeColumns threeSizes fun _ _ => rfl
  obtain ⟨r, success⟩ := outcome.succeeds (allAnswered_reverseClassifier ..) (by decide)
  exact ⟨rfl, by decide, by decide, by decide, fun _ _ => rfl, r, success,
    (outcome.answers r success).2.2⟩

/-- A column of one row that is listed as often as half of the largest count. -/
def overlisted : Pricing :=
  ⟨⟨1, 2 ^ 63, 1, 1, 0, 1, 2, 1⟩, ⟨128, 128, 168, maxSize, 116⟩⟩

/-- Two such columns are priced, and neither pays. Together their listed rows exceed 64 bits, and
there is no outcome. -/
theorem classify_two_overlisted :
    let e : Estimator := pricedColumns 1 2 fun _ => overlisted
    Pricing.ofFactors overlisted.factors SizeModel.footprint 65536 = .ok overlisted ∧
      (∀ column < 2, e.estimate [column] = .ok overlisted) ∧
      leftOver Footprint.baseline 1 2 (fun _ => overlisted) = [0, 1] ∧
      ∀ r, ({ pool := .single } : Classifier).classify e ≠ .ok r := by
  intro e
  have starts : WorkerPool.single.Starts := rfl
  refine ⟨by decide +kernel, fun _ _ => rfl, by decide +kernel, fun r success => ?_⟩
  have own : OwnAnswered Footprint.baseline 1 (fun _ => overlisted) (List.range 2) :=
    fun _ _ =>
      ⟨116, show Footprint.uncompressedSize 1 1 (shareOf 1 overlisted) = _ by decide +kernel⟩
  have stops : ({ pool := .single } : Classifier).classify e = .error .overflow :=
    classify_of_exceeds starts (fun _ _ => rfl) own (by decide +kernel)
  cases success.symm.trans stops

end Answer

end Columnar.Classifier
