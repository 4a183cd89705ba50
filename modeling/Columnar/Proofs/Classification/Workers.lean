import Columnar.Proofs.Batch
import Columnar.Proofs.Classification.Outcome

/-!
# Workers do not show

The number of workers and the order in which they start and finish the columns do not show in a
classification, once the host has started the workers. Where every column is estimated, it is the
classification of the prices in column order (`sameAnswer`); where some column is not, it fails with
the failure of such a column, and never answers in part (`failsAtColumn`). `classify_of_runs` says
both of any two runs.
-/

namespace Columnar.Classifier

variable {c : Classifier} {e : Estimator}

/-- A classification fails with the failure of some column. In line it is the first that fails. -/
def FailsAtColumn (c : Classifier) (e : Estimator) : Prop :=
  ∃ failure, c.classify e = .error failure ∧
    ∃ k < e.cols, e.estimate [k] = .error failure ∧
      (c.pool.workers ≤ 1 ∨ e.cols ≤ 1 → ∀ j < k, ∃ p, e.estimate [j] = .ok p)

theorem failsAtColumn (starts : c.pool.Starts)
    (fails : ∃ k < e.cols, ∃ failure, e.estimate [k] = .error failure) : FailsAtColumn c e := by
  obtain ⟨failure, batch, column⟩ := WorkerPool.map_eq_error starts fails
  refine ⟨failure, ?_, column⟩
  unfold classify
  rw [batch]
  rfl

/-- Two classifiers do the same with the prices of all columns. -/
structure SameAnswer (c c' : Classifier) (e : Estimator) (priced : ℕ → Pricing) : Prop where
  same : c.classify e = c'.classify e
  /-- What they answer holds the prices in column order. -/
  inOrder : ∀ r, c.classify e = .ok r → r.pricings = (List.range e.cols).map priced
  /-- They answer if the baseline does and the listed rows of the columns left over fit 64 bits. -/
  answers : AllAnswered c.baseline e.rows e.cols priced →
    listed priced (leftOver c.baseline e.rows e.cols priced) ≤ maxSize → ∃ r, c.classify e = .ok r

theorem sameAnswer {c' : Classifier} (baselines : c.baseline = c'.baseline)
    (starts : c.pool.Starts) (starts' : c'.pool.Starts) {priced : ℕ → Pricing}
    (succeeds : ∀ k < e.cols, e.estimate [k] = .ok (priced k)) : SameAnswer c c' e priced := by
  have parted := classify_eq_partition starts succeeds
  refine ⟨?_, fun r success => ?_, fun answers fits => ?_⟩
  · rw [parted, classify_eq_partition starts' succeeds, baselines]
  · rw [parted] at success
    exact (answers_of_partition success).pricings
  · rw [parted]
    exact exists_partition answers fits

/-- **Workers do not show.** Two classifiers against one baseline, whose batches run in any way on
workers that have started, do the same if every column is estimated, and what they answer has the
prices in column order. If some column is not, both fail with the failure of some such column; a
classifier that works in line fails with that of the first. -/
theorem classify_of_runs (e : Estimator) (baseline : Baseline) {workers workers' : ℕ}
    (runs : ∀ count, Batch.CompleteRun workers count)
    (runs' : ∀ count, Batch.CompleteRun workers' count) {refusal? refusal?' : Option String}
    (starts : (WorkerPool.ofRuns runs refusal?).Starts)
    (starts' : (WorkerPool.ofRuns runs' refusal?').Starts) :
    let c : Classifier := ⟨.ofRuns runs refusal?, baseline⟩
    let c' : Classifier := ⟨.ofRuns runs' refusal?', baseline⟩
    (∀ priced : ℕ → Pricing, (∀ k < e.cols, e.estimate [k] = .ok (priced k)) →
      c.SameAnswer c' e priced) ∧
      ((∃ k < e.cols, ∃ failure, e.estimate [k] = .error failure) →
        c.FailsAtColumn e ∧ c'.FailsAtColumn e) := by
  intro c c'
  constructor
  · intro priced succeeds
    have baselines : c.baseline = c'.baseline := rfl
    exact sameAnswer baselines starts starts' succeeds
  · intro fails
    exact ⟨failsAtColumn starts fails, failsAtColumn starts' fails⟩

/-! Two workers that finish in reverse, beside one that works in line. -/

def reversedRuns (count : ℕ) : Batch.CompleteRun 2 count :=
  ⟨(List.range count).reverse, Batch.exists_run (by decide) (List.reverse_perm _) []⟩

def orderedRuns (count : ℕ) : Batch.CompleteRun 1 count :=
  ⟨List.range count, Batch.exists_run (by decide) (List.Perm.refl _) []⟩

/-- The estimator of the three columns, of which the last two cannot be read. -/
def unreadable : Estimator :=
  { threeColumns with
    estimate := fun columns =>
      match columns with
      | [0] => .ok (threeSizes 0)
      | [k] => .error (.invalidArgument (.columnRange k 1))
      | _ => .error (.invalidArgument .emptySubset) }

theorem classify_of_runs_three_columns :
    let pool := WorkerPool.ofRuns reversedRuns none
    let pool' := WorkerPool.ofRuns orderedRuns none
    let c : Classifier := ⟨pool, reverseClassifier.baseline⟩
    let c' : Classifier := ⟨pool', reverseClassifier.baseline⟩
    pool.Starts ∧ pool'.Starts ∧
      (∃ r, c.classify threeColumns = .ok r ∧ c'.classify threeColumns = .ok r ∧
        r.pricings = (List.range 3).map threeSizes) ∧
      (c.classify unreadable = .error (.invalidArgument (.columnRange 2 1)) ∧
        c'.classify unreadable = .error (.invalidArgument (.columnRange 1 1))) ∧
      c.FailsAtColumn unreadable ∧ c'.FailsAtColumn unreadable := by
  intro pool pool' c c'
  have starts : pool.Starts := rfl
  have starts' : pool'.Starts := rfl
  have fails : ∃ k < unreadable.cols, ∃ failure, unreadable.estimate [k] = .error failure :=
    ⟨1, by decide, _, rfl⟩
  have same := (classify_of_runs threeColumns reverseClassifier.baseline reversedRuns orderedRuns
    starts starts').1 threeSizes fun _ _ => rfl
  obtain ⟨r, success⟩ := same.answers (allAnswered_reverseClassifier 4 3 threeSizes) (by decide)
  exact ⟨starts, starts', ⟨r, success, same.same ▸ success, same.inOrder r success⟩, ⟨rfl, rfl⟩,
    (classify_of_runs unreadable reverseClassifier.baseline reversedRuns orderedRuns starts
      starts').2 fails⟩

end Columnar.Classifier
