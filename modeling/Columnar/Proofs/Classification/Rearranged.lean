import Columnar.Estimator.Sampled
import Columnar.Proofs.Bitmap.Extraction
import Columnar.Proofs.Classification.Accounts
import Columnar.Proofs.Classification.Workers
import Columnar.Proofs.Estimator.Listed
import Columnar.Proofs.Table.Tabulate

/-!
# Rearranged columns

When the columns of a table are rearranged, the outcome of its classification is rearranged with
them, and nothing else changes (`classify_rearranged`). With all rows or with a shared sample a
column is estimated as the column that it stands for (`View.Rearranges.exact`,
`View.Rearranges.ofSize`). The rest is about lists of columns of the two tables that stand for each
other, in any order (`StandFor`): tests, lengths and totals cannot tell them apart, so neither round
can, and the baseline is asked the same of both (`allAnswered_comp_iff`). Its answers are all that
is missing once every column is priced: what the columns of a table list fits 64 bits.
-/

namespace Columnar

/-- A table whose columns are those of another one, rearranged: column `c` is its column `π c`. -/
structure View.Rearranges (π : ℕ → ℕ) (v v' : View) : Prop where
  rows : v'.rows = v.rows
  cols : v'.cols = v.cols
  bijOn : Set.BijOn π (Set.Iio v.cols) (Set.Iio v.cols)
  get : ∀ row < v.rows, ∀ c < v.cols, v'.get row c = v.get row (π c)

/-- An estimator that estimates column `c` as another one estimates its column `π c`. -/
structure Estimator.Rearranges (π : ℕ → ℕ) (e e' : Estimator) : Prop where
  rows : e'.rows = e.rows
  cols : e'.cols = e.cols
  bijOn : Set.BijOn π (Set.Iio e.cols) (Set.Iio e.cols)
  estimate : ∀ c < e.cols, e'.estimate [c] = e.estimate [π c]

/-- Outcomes that are the same but for the places of the columns. -/
structure Classification.Corresponds (π : ℕ → ℕ) (count : ℕ) (r r' : Classification) : Prop where
  compressible : ∀ c < count, c ∈ r'.compressible ↔ π c ∈ r.compressible
  notCompressible : ∀ c < count, c ∈ r'.notCompressible ↔ π c ∈ r.notCompressible
  ratio? : ∀ c < count, r'.ratio? c = r.ratio? (π c)
  corrected : ∀ c < count, c ∈ r'.statistics.corrected ↔ π c ∈ r.statistics.corrected
  nonzerosUncompressed : r'.nonzerosUncompressed = r.nonzerosUncompressed
  nonzerosBefore : r'.statistics.nonzerosBefore = r.statistics.nonzerosBefore
  nonzerosAfter : r'.statistics.nonzerosAfter = r.statistics.nonzerosAfter
  bestCounts : r'.statistics.bestCounts = r.statistics.bestCounts
  sizeUncompressed : r'.statistics.sizeUncompressed = r.statistics.sizeUncompressed
  sizeCompressed : r'.statistics.sizeCompressed = r.statistics.sizeCompressed

/-- Every column is priced, but the baseline has no answer to some question about the prices, and
the classification fails. -/
def Classifier.FailsUnanswered (c : Classifier) (e : Estimator) : Prop :=
  ∃ priced : ℕ → Pricing, (∀ k < e.cols, e.estimate [k] = .ok (priced k)) ∧
    ¬ AllAnswered c.baseline e.rows e.cols priced ∧ ∃ failure, c.classify e = .error failure

/-- Classifications that correspond, against any baseline and with any workers that start: either
both succeed, or each fails at a column of its own, or each for want of an answer of the
baseline. -/
def Estimator.ClassifyAlike (π : ℕ → ℕ) (e e' : Estimator) : Prop :=
  ∀ (baseline : Baseline) (pool pool' : WorkerPool), pool.Starts → pool'.Starts →
    let c : Classifier := ⟨pool, baseline⟩
    let c' : Classifier := ⟨pool', baseline⟩
    (∃ r r', c.classify e = .ok r ∧ c'.classify e' = .ok r' ∧ r.Corresponds π e.cols r') ∨
      c.FailsAtColumn e ∧ c'.FailsAtColumn e' ∨ c.FailsUnanswered e ∧ c'.FailsUnanswered e'

theorem total_perm {xs ys : List ℕ} (perm : xs.Perm ys) : total xs = total ys :=
  perm.foldr_eq 0

/-! ### Lists of columns that stand for each other -/

/-- Columns of a rearranged table that are columns of the table, in any order. -/
structure StandFor (π : ℕ → ℕ) (count : ℕ) (xs xs' : List ℕ) : Prop where
  perm : (xs'.map π).Perm xs
  inRange : ∀ c ∈ xs', c < count

namespace StandFor

variable {π : ℕ → ℕ} {count : ℕ} {xs xs' ys ys' : List ℕ}

theorem nil : StandFor π count [] [] := ⟨.nil, fun _ none => absurd none List.not_mem_nil⟩

theorem range (bijOn : Set.BijOn π (Set.Iio count) (Set.Iio count)) :
    StandFor π count (List.range count) (List.range count) where
  perm := by
    have nodup : ((List.range count).map π).Nodup := by
      refine List.Nodup.map_on ?_ List.nodup_range
      intro c mem d mem' same
      exact bijOn.injOn (List.mem_range.mp mem) (List.mem_range.mp mem') same
    rw [List.perm_ext_iff_of_nodup nodup List.nodup_range]
    intro d
    rw [List.mem_map, List.mem_range]
    constructor
    · rintro ⟨c, mem, rfl⟩
      exact bijOn.mapsTo (List.mem_range.mp mem)
    · intro inRange
      obtain ⟨c, below, rfl⟩ := bijOn.surjOn inRange
      exact ⟨c, List.mem_range.mpr below, rfl⟩
  inRange _ mem := List.mem_range.mp mem

theorem filter (h : StandFor π count xs xs') (p : ℕ → Bool) :
    StandFor π count (xs.filter p) (xs'.filter fun c => p (π c)) where
  perm := by
    have filtered := h.perm.filter p
    rwa [List.filter_map] at filtered
  inRange c mem := h.inRange c (List.mem_of_mem_filter mem)

theorem append (h : StandFor π count xs xs') (h' : StandFor π count ys ys') :
    StandFor π count (xs ++ ys) (xs' ++ ys') where
  perm := by
    rw [List.map_append]
    exact h.perm.append h'.perm
  inRange c mem := (List.mem_append.mp mem).elim (h.inRange c) (h'.inRange c)

theorem mem_iff (h : StandFor π count xs xs') (injOn : Set.InjOn π (Set.Iio count)) {c : ℕ}
    (inRange : c < count) : c ∈ xs' ↔ π c ∈ xs := by
  rw [← h.perm.mem_iff, List.mem_map]
  constructor
  · intro mem
    exact ⟨c, mem, rfl⟩
  · rintro ⟨d, mem, same⟩
    rwa [← injOn (h.inRange d mem) inRange same]

theorem length_eq (h : StandFor π count xs xs') : xs'.length = xs.length := by
  rw [← h.perm.length_eq, List.length_map]

theorem isEmpty_eq (h : StandFor π count xs xs') : xs'.isEmpty = xs.isEmpty := by
  rw [← h.perm.isEmpty_eq, List.isEmpty_map]

theorem total_eq (h : StandFor π count xs xs') (f : ℕ → ℕ) :
    total (xs'.map fun c => f (π c)) = total (xs.map f) := by
  rw [← total_perm (h.perm.map f), List.map_map]
  rfl

theorem countP_eq (h : StandFor π count xs xs') (p : ℕ → Bool) :
    (xs'.countP fun c => p (π c)) = xs.countP p := by
  rw [← h.perm.countP_eq, List.countP_map]
  rfl

end StandFor

/-! ### Both rounds -/

namespace Classifier

variable {π : ℕ → ℕ} {b : Baseline} {rows count : ℕ} {priced : ℕ → Pricing}

theorem standFor_accepted (bijOn : Set.BijOn π (Set.Iio count) (Set.Iio count)) :
    StandFor π count (accepted b rows count priced) (accepted b rows count (priced ∘ π)) :=
  (StandFor.range bijOn).filter (pays b rows priced)

theorem standFor_leftOver (bijOn : Set.BijOn π (Set.Iio count) (Set.Iio count)) :
    StandFor π count (leftOver b rows count priced) (leftOver b rows count (priced ∘ π)) :=
  (StandFor.range bijOn).filter fun c => !pays b rows priced c

theorem listed_comp {xs xs' : List ℕ} (h : StandFor π count xs xs') :
    listed (priced ∘ π) xs' = listed priced xs :=
  h.total_eq fun c => (priced c).nonzeros

/-- The second round is asked for by totals alone. -/
theorem storedDense_comp (bijOn : Set.BijOn π (Set.Iio count) (Set.Iio count)) :
    storedDense b rows count (priced ∘ π) = storedDense b rows count priced := by
  have left : StandFor π count (leftOver b rows count priced) _ := standFor_leftOver bijOn
  unfold storedDense
  rw [left.isEmpty_eq, left.length_eq, listed_comp left]

theorem standFor_moved (bijOn : Set.BijOn π (Set.Iio count) (Set.Iio count)) :
    StandFor π count (moved b rows count priced) (moved b rows count (priced ∘ π)) := by
  have same : storedDense b rows count (priced ∘ π) = storedDense b rows count priced :=
    storedDense_comp bijOn
  cases dense : storedDense b rows count priced with
  | false =>
    rw [moved_eq_nil dense, moved_eq_nil (same.trans dense)]
    exact .nil
  | true =>
    rw [moved_eq_filter dense, moved_eq_filter (same.trans dense)]
    exact (standFor_leftOver bijOn).filter (paysDense b rows priced)

theorem standFor_kept (bijOn : Set.BijOn π (Set.Iio count) (Set.Iio count)) :
    StandFor π count (kept b rows count priced) (kept b rows count (priced ∘ π)) := by
  have same : storedDense b rows count (priced ∘ π) = storedDense b rows count priced :=
    storedDense_comp bijOn
  cases dense : storedDense b rows count priced with
  | false =>
    rw [kept_eq_leftOver dense, kept_eq_leftOver (same.trans dense)]
    exact standFor_leftOver bijOn
  | true =>
    rw [kept_eq_filter dense, kept_eq_filter (same.trans dense)]
    exact (standFor_leftOver bijOn).filter fun c => !paysDense b rows priced c

/-- The baseline is asked the same, in another order. -/
theorem allAnswered_comp_iff (bijOn : Set.BijOn π (Set.Iio count) (Set.Iio count)) :
    AllAnswered b rows count (priced ∘ π) ↔ AllAnswered b rows count priced := by
  have left : StandFor π count (leftOver b rows count priced) _ := standFor_leftOver bijOn
  have same : storedDense b rows count (priced ∘ π) = storedDense b rows count priced :=
    storedDense_comp bijOn
  have own : OwnAnswered b rows (priced ∘ π) (List.range count) ↔
      OwnAnswered b rows priced (List.range count) := by
    simp only [OwnAnswered, List.mem_range]
    constructor
    · intro answers k inRange
      obtain ⟨c, below, rfl⟩ := bijOn.surjOn inRange
      exact answers c below
    · exact fun answers c below => answers (π c) (bijOn.mapsTo below)
  have layout : (leftOver b rows count (priced ∘ π) ≠ [] →
      ∃ sparse, b.prefersSparse rows (leftOver b rows count (priced ∘ π)).length
        (listed (priced ∘ π) (leftOver b rows count (priced ∘ π))) = .ok sparse) ↔
      (leftOver b rows count priced ≠ [] →
      ∃ sparse, b.prefersSparse rows (leftOver b rows count priced).length
        (listed priced (leftOver b rows count priced)) = .ok sparse) := by
    rw [left.length_eq, listed_comp left, ne_eq, ← List.isEmpty_iff, left.isEmpty_eq,
      List.isEmpty_iff]
  constructor
  · rintro ⟨own', layout', dense'⟩
    exact ⟨own.mp own', layout.mp layout', fun dense => dense' (same.trans dense)⟩
  · rintro ⟨own', layout', dense'⟩
    exact ⟨own.mpr own', layout.mpr layout', fun dense => dense' (same.symm.trans dense)⟩

variable {r r' : Classification}

theorem ratio?_of_partition (success : partition b rows ((List.range count).map priced) = .ok r)
    (k : ℕ) : r.ratio? k =
      if k ∈ moved b rows count priced then some (denseScore b rows (priced k)).ratio
      else if k ∈ accepted b rows count priced then some (ownScore b rows (priced k)).ratio
      else none := by
  obtain ⟨-, first, final, -, settled, rfl⟩ := of_partition_eq_ok success
  exact settled.ratios k

/-- Prices in another order are classified in that order, with the same counts. -/
theorem corresponds_of_partition (bijOn : Set.BijOn π (Set.Iio count) (Set.Iio count))
    (success : partition b rows ((List.range count).map priced) = .ok r)
    (success' : partition b rows ((List.range count).map (priced ∘ π)) = .ok r') :
    r.Corresponds π count r' := by
  have answers := answers_of_partition success
  have answers' := answers_of_partition success'
  have accounts := accounts_of_partition success
  have accounts' := accounts_of_partition success'
  have all : StandFor π count (List.range count) (List.range count) := .range bijOn
  have accepts : StandFor π count (accepted b rows count priced) _ := standFor_accepted bijOn
  have moves : StandFor π count (moved b rows count priced) _ := standFor_moved bijOn
  have keeps : StandFor π count (kept b rows count priced) _ := standFor_kept bijOn
  have nonzeros : r'.nonzerosUncompressed = r.nonzerosUncompressed := by
    rw [accounts.nonzeros, accounts'.nonzeros, answers.notCompressible, answers'.notCompressible,
      listed_comp keeps]
  constructor
  · intro c inRange
    rw [answers.compressible, answers'.compressible]
    exact (accepts.append moves).mem_iff bijOn.injOn inRange
  · intro c inRange
    rw [answers.notCompressible, answers'.notCompressible]
    exact keeps.mem_iff bijOn.injOn inRange
  · intro c inRange
    rw [ratio?_of_partition success, ratio?_of_partition success']
    simp only [accepts.mem_iff bijOn.injOn inRange, moves.mem_iff bijOn.injOn inRange,
      Function.comp_apply]
  · intro c inRange
    rw [answers.corrected, answers'.corrected]
    exact moves.mem_iff bijOn.injOn inRange
  · exact nonzeros
  · rw [accounts.nonzerosBefore, accounts'.nonzerosBefore, nonzeros, answers.corrected,
      answers'.corrected, listed_comp moves]
  · rw [accounts.nonzerosAfter, accounts'.nonzerosAfter, nonzeros]
  · apply PerEncoding.eq_of_get
    intro e
    rw [accounts.bestCounts, accounts'.bestCounts]
    exact all.countP_eq fun c => (priced c).bestEncoding == e
  · obtain ⟨bytes, answer, sum⟩ := accounts.sizeUncompressed
    obtain ⟨bytes', answer', sum'⟩ := accounts'.sizeUncompressed
    have same : ∀ c ∈ List.range count, bytes' c = bytes (π c) := by
      intro c mem
      have below := List.mem_range.mp mem
      exact Except.ok.inj ((answer' c below).symm.trans (answer (π c) (bijOn.mapsTo below)))
    rw [sum, sum', List.map_congr_left same, all.total_eq bytes]
  · rw [accounts.sizeCompressed, accounts'.sizeCompressed, answers.compressible,
      answers'.compressible]
    exact congrArg (min maxSize) ((accepts.append moves).total_eq fun c => (priced c).minSize)

end Classifier

/-! ### Estimators -/

section Estimators

variable {π : ℕ → ℕ}

/-- The table whose column `c` is column `π c` of the view. -/
def View.rearrange (π : ℕ → ℕ) (v : View) : View :=
  ⟨.tabulate v.rows_le v.cols_le fun row c => v.get row (π c), false⟩

/-- Every permutation of the columns rearranges a table. -/
theorem View.rearranges_rearrange {v : View}
    (bijOn : Set.BijOn π (Set.Iio v.cols) (Set.Iio v.cols)) : v.Rearranges π (v.rearrange π) where
  rows := rfl
  cols := rfl
  bijOn := bijOn
  get _ inTable _ inRange := Matrix.get_tabulate (fun row c => v.get row (π c)) inTable inRange

/-- A classification of priced columns fails if the baseline does not answer. -/
theorem Classifier.failsUnanswered {c : Classifier} {e : Estimator} {priced : ℕ → Pricing}
    (starts : c.pool.Starts) (succeeds : ∀ k < e.cols, e.estimate [k] = .ok (priced k))
    (unanswered : ¬ AllAnswered c.baseline e.rows e.cols priced) : c.FailsUnanswered e := by
  refine ⟨priced, succeeds, unanswered, ?_⟩
  rw [classify_eq_partition starts succeeds]
  cases parted : partition c.baseline e.rows ((List.range e.cols).map priced) with
  | error failure => exact ⟨failure, rfl⟩
  | ok r => exact absurd (of_partition_eq_ok parted).1.1 unanswered

/-- Rearranged estimates are classified alike, if they list no more than the rows of a table. -/
theorem Estimator.Rearranges.classifyAlike {e e' : Estimator} (rearranges : e.Rearranges π e')
    (within : e.ListsWithin e.rows) (rowsFit : e.rows ≤ maxCount) (colsFit : e.cols ≤ maxCount) :
    e.ClassifyAlike π e' := by
  intro baseline pool pool' starts starts' c c'
  by_cases fails : ∃ k < e.cols, ∃ failure, e.estimate [k] = .error failure
  · obtain ⟨k, inRange, failure, fails⟩ := fails
    -- the column that stands for the one that fails
    obtain ⟨k', inRange', rfl⟩ := rearranges.bijOn.surjOn inRange
    have fails' : e'.estimate [k'] = .error failure := (rearranges.estimate k' inRange').trans fails
    exact .inr (.inl ⟨Classifier.failsAtColumn starts ⟨_, inRange, failure, fails⟩,
      Classifier.failsAtColumn starts' ⟨k', rearranges.cols ▸ inRange', failure, fails'⟩⟩)
  · have estimates : ∀ k < e.cols, ∃ p, e.estimate [k] = .ok p := by
      intro k inRange
      cases answer : e.estimate [k] with
      | error failure => exact absurd ⟨k, inRange, failure, answer⟩ fails
      | ok p => exact ⟨p, rfl⟩
    have : Nonempty Pricing := ⟨Classifier.sizedColumn 0⟩
    choose! priced succeeds using estimates
    have succeeds' : ∀ k < e'.cols, e'.estimate [k] = .ok ((priced ∘ π) k) := by
      rw [rearranges.cols]
      intro k inRange
      rw [rearranges.estimate k inRange]
      exact succeeds (π k) (rearranges.bijOn.mapsTo inRange)
    by_cases answers : Classifier.AllAnswered baseline e.rows e.cols priced
    · have answers' := (Classifier.allAnswered_comp_iff rearranges.bijOn).mpr answers
      have lists : ∀ k < e.cols, (priced k).nonzeros ≤ e.rows :=
        fun k inRange => (within.columns _ _ (succeeds k inRange)).2
      have lists' : ∀ k < e.cols, ((priced ∘ π) k).nonzeros ≤ e.rows :=
        fun k inRange => lists (π k) (rearranges.bijOn.mapsTo inRange)
      obtain ⟨r, parted⟩ := Classifier.exists_partition answers
        (Classifier.listed_leftOver_le lists rowsFit colsFit)
      obtain ⟨r', parted'⟩ := Classifier.exists_partition answers'
        (Classifier.listed_leftOver_le lists' rowsFit colsFit)
      have answer := Classifier.classify_eq_partition (c := c) starts succeeds
      have answer' := Classifier.classify_eq_partition (c := c') starts' succeeds'
      rw [rearranges.rows, rearranges.cols] at answer'
      exact .inl ⟨r, r', answer.trans parted, answer'.trans parted',
        Classifier.corresponds_of_partition rearranges.bijOn parted parted'⟩
    · have unanswered' : ¬ Classifier.AllAnswered baseline e'.rows e'.cols (priced ∘ π) := by
        rw [rearranges.rows, rearranges.cols]
        exact fun answers' =>
          answers ((Classifier.allAnswered_comp_iff rearranges.bijOn).mp answers')
      exact .inr (.inr ⟨Classifier.failsUnanswered starts succeeds answers,
        Classifier.failsUnanswered starts' succeeds' unanswered'⟩)

namespace View.Rearranges

variable {v v' : View}

theorem extract (rearranges : v.Rearranges π v') {c : ℕ} (inRange : c < v.cols)
    (rows : Option (List ℕ)) : Bitmap.extract [c] v' rows = Bitmap.extract [π c] v rows := by
  have standsFor : π c < v.cols := rearranges.bijOn.mapsTo inRange
  refine Bitmap.extract_congr rearranges.rows (List.cons_ne_nil _ _) ?_ ?_ ?_ ?_ rows
  · rfl
  · simpa using standsFor
  · simpa [rearranges.cols] using inRange
  · intro row inTable
    exact congrArg (fun cell => [cell]) (rearranges.get row inTable c inRange)

theorem exact (rearranges : v.Rearranges π v') (model : SizeModel) (select : Selector)
    (blockSize : ℕ) :
    Estimator.Rearranges π ({ view := v, model, select, blockSize } : Binding).exact
      ({ view := v', model, select, blockSize } : Binding).exact where
  rows := rearranges.rows
  cols := rearranges.cols
  bijOn := rearranges.bijOn
  estimate c inRange := by
    simp only [Binding.exact, rearranges.extract inRange, rearranges.rows, rearranges.cols]

/-- The shared sample is drawn from the row count and the seed. -/
theorem ofSize (rearranges : v.Rearranges π v') (model : SizeModel) (select : Selector)
    (blockSize size : ℕ) (seed : UInt64) :
    Estimator.Rearranges π
      (SampleEstimator.ofSize { view := v, model, select, blockSize } size seed).toEstimator
      (SampleEstimator.ofSize { view := v', model, select, blockSize } size seed).toEstimator where
  rows := rearranges.rows
  cols := rearranges.cols
  bijOn := rearranges.bijOn
  estimate c inRange := by
    simp only [SampleEstimator.toEstimator, SampleEstimator.ofSize, SampleEstimator.sampleFor,
      SampleEstimator.priceOver, rearranges.extract inRange, rearranges.rows, rearranges.cols]

end View.Rearranges

/-- **The order of the columns does not show.** When the columns of a table are rearranged, the
exact estimator and every estimator with a shared sample have classifications that correspond, for
every size model, selector of different rows, block size and baseline. -/
theorem classify_rearranged {v v' : View} (rearranges : v.Rearranges π v') (model : SizeModel)
    (select : Selector) (selects : select.Selects) (blockSize : ℕ) :
    let here : Binding := { view := v, model, select, blockSize }
    let there : Binding := { view := v', model, select, blockSize }
    here.exact.ClassifyAlike π there.exact ∧
      ∀ size seed, (SampleEstimator.ofSize here size seed).toEstimator.ClassifyAlike π
        (SampleEstimator.ofSize there size seed).toEstimator := by
  intro here there
  constructor
  · exact (rearranges.exact model select blockSize).classifyAlike (Binding.listsWithin_exact rfl)
      v.rows_le v.cols_le
  · intro size seed
    have reads : SampleEstimator.ReadsTable (SampleEstimator.ofSize here size seed) :=
      SampleEstimator.readsTable_ofSize selects size seed
    exact (rearranges.ofSize model select blockSize size seed).classifyAlike (reads.listsWithin rfl)
      v.rows_le v.cols_le

/-- The next one of five, after the last one the first. -/
def nextOfFive (c : ℕ) : ℕ := (c + 1) % 5

theorem bijOn_nextOfFive : Set.BijOn nextOfFive (Set.Iio 5) (Set.Iio 5) := by
  refine ⟨?_, ?_, ?_⟩
  · intro c _
    exact Nat.mod_lt _ (by decide)
  · intro c (below : c < 5) d (below' : d < 5) (same : (c + 1) % 5 = (d + 1) % 5)
    omega
  · intro d (below : d < 5)
    refine ⟨(d + 4) % 5, Nat.mod_lt _ (by decide), ?_⟩
    unfold nextOfFive
    omega

/-- The rows of the table with zeros of either sign are read as columns. -/
theorem classify_rearranged_mixed_zeros :
    let view : View := ⟨Bitmap.mixedZeros.matrix, true⟩
    let here : Binding := { view, blockSize := 2 }
    let there : Binding := { view := view.rearrange nextOfFive, blockSize := 2 }
    view.Rearranges nextOfFive (view.rearrange nextOfFive) ∧ Selector.Selects Selection.seeded ∧
      here.exact.ClassifyAlike nextOfFive there.exact ∧
      ∀ size seed, (SampleEstimator.ofSize here size seed).toEstimator.ClassifyAlike nextOfFive
        (SampleEstimator.ofSize there size seed).toEstimator := by
  intro view here there
  have rearranges : view.Rearranges nextOfFive (view.rearrange nextOfFive) :=
    View.rearranges_rearrange bijOn_nextOfFive
  have selects := Selection.selects_seeded
  exact ⟨rearranges, selects, classify_rearranged rearranges .footprint _ selects 2⟩

end Estimators

end Columnar
