import Columnar.WorkerPool

/-!
# Batches of a worker pool

Of a host no more is assumed than that it starts the workers (`Starts`). When every task of a batch
succeeds, the order in which the tasks finish does not show: the pool answers the results by index
(`map_eq_ok`). The argument follows the slots of a batch. A finished task fills the slot of its
index and no other (`getElem?_fill`), and a schedule finishes every index once, so at the end every
slot is full. A batch with a failing task fails (`exists_of_map_eq_ok`), with the failure of one of
its tasks, and of the first one when the tasks run in line (`map_eq_error`). Workers that do not
start fail a batch before any task runs (`map_of_refusal`).
-/

namespace Columnar.WorkerPool

variable {α : Type}

/-- The host starts the workers of a pool. -/
def Starts (pool : WorkerPool) : Prop := pool.refusal? = none

/-- The tasks run in order, without workers. -/
theorem map_inLine {pool : WorkerPool} {count : Nat} (inLine : pool.workers ≤ 1 ∨ count ≤ 1)
    (task : Nat → Except PlanError α) : pool.map count task = (List.range count).mapM task := by
  unfold WorkerPool.map
  rw [if_pos (by simpa [isParallel] using inLine)]

/-- The tasks run as they are scheduled, once the workers have started. -/
theorem map_scheduled {pool : WorkerPool} {count : Nat} (several : ¬ (pool.workers ≤ 1 ∨ count ≤ 1))
    (starts : pool.Starts) (task : Nat → Except PlanError α) :
    pool.map count task = (do
      let results ← runScheduled task (pool.schedule count) (Array.replicate count none)
      return results.toList.filterMap id) := by
  unfold WorkerPool.map
  rw [if_neg (by simpa [isParallel] using several), starts]

/-- **Workers that do not start run no task.** -/
theorem map_of_refusal {pool : WorkerPool} {count : Nat} {reason : String}
    (several : ¬ (pool.workers ≤ 1 ∨ count ≤ 1)) (refusal : pool.refusal? = some reason)
    (task : Nat → Except PlanError α) : pool.map count task = .error (.worker reason) := by
  unfold WorkerPool.map
  rw [if_neg (by simpa [isParallel] using several), refusal]

/-- The slots after tasks have finished with the given results, one after the other. -/
def fill (results : Nat → α) (order : List Nat) (slots : Array (Option α)) : Array (Option α) :=
  order.foldl (fun slots index => slots.setIfInBounds index (some (results index))) slots

theorem size_fill (results : Nat → α) (order : List Nat) (slots : Array (Option α)) :
    (fill results order slots).size = slots.size := by
  induction order generalizing slots with
  | nil => rfl
  | cons index rest ih => simpa [fill] using ih (slots.setIfInBounds index (some (results index)))

/-- A slot holds the result of its own task if that task has finished, and what it held before if
not. -/
theorem getElem?_fill (results : Nat → α) (order : List Nat) (slots : Array (Option α))
    {i : Nat} (inBounds : i < slots.size) :
    (fill results order slots)[i]? = if i ∈ order then some (some (results i)) else slots[i]? := by
  induction order generalizing slots with
  | nil => simp [fill]
  | cons index rest ih =>
    have step := ih (slots.setIfInBounds index (some (results index))) (by simpa using inBounds)
    have unfolded : fill results (index :: rest) slots
        = fill results rest (slots.setIfInBounds index (some (results index))) := rfl
    rw [unfolded, step, Array.getElem?_setIfInBounds]
    -- a later finish of the same task fills its slot with the same result
    by_cases again : i ∈ rest
    · simp [again]
    · by_cases same : index = i
      · subst same
        simp [inBounds]
      · simp [again, same, Ne.symm same]

theorem runScheduled_eq_ok {task : Nat → Except PlanError α} {results : Nat → α}
    {order : List Nat} (succeeds : ∀ i ∈ order, task i = .ok (results i))
    (slots : Array (Option α)) :
    runScheduled task order slots = .ok (fill results order slots) := by
  induction order generalizing slots with
  | nil => rfl
  | cons index rest ih =>
    have head : task index = .ok (results index) := succeeds index List.mem_cons_self
    rw [runScheduled, head]
    exact ih (fun i hi => succeeds i (List.mem_cons_of_mem _ hi)) _

/-- A batch whose tasks all finish has every slot full, in the order of the indices. -/
theorem toList_fill_perm (results : Nat → α) {count : Nat} {order : List Nat}
    (perm : order.Perm (List.range count)) :
    (fill results order (Array.replicate count none)).toList
      = (List.range count).map fun i => some (results i) := by
  apply List.ext_getElem?
  intro i
  rw [Array.getElem?_toList]
  by_cases inRange : i < count
  · have finished : i ∈ order := perm.mem_iff.mpr (List.mem_range.mpr inRange)
    rw [getElem?_fill results order _ (by simpa using inRange), if_pos finished]
    simp [inRange]
  · have slots : (fill results order (Array.replicate count none)).size = count := by
      rw [size_fill, Array.size_replicate]
    rw [Array.getElem?_eq_none (by rw [slots]; exact Nat.le_of_not_lt inRange),
      List.getElem?_eq_none (by simpa using inRange)]

theorem mapM_eq_ok {task : Nat → Except PlanError α} {results : Nat → α} {indices : List Nat}
    (succeeds : ∀ i ∈ indices, task i = .ok (results i)) :
    indices.mapM task = .ok (indices.map results) := by
  induction indices with
  | nil => rfl
  | cons index rest ih =>
    rw [List.mapM_cons, succeeds index List.mem_cons_self,
      ih fun i hi => succeeds i (List.mem_cons_of_mem _ hi)]
    rfl

/-- **The schedule does not show.** If every task of a batch succeeds, the pool answers the results
in the order of the indices, whatever the number of workers and the order in which they finish. -/
theorem map_eq_ok {pool : WorkerPool} (starts : pool.Starts) {count : Nat}
    {task : Nat → Except PlanError α} {results : Nat → α}
    (succeeds : ∀ i < count, task i = .ok (results i)) :
    pool.map count task = .ok ((List.range count).map results) := by
  by_cases inLine : pool.workers ≤ 1 ∨ count ≤ 1
  · rw [map_inLine inLine]
    exact mapM_eq_ok fun i hi => succeeds i (List.mem_range.mp hi)
  · have perm := pool.schedule_perm count
    have scheduled : ∀ i ∈ pool.schedule count, task i = .ok (results i) :=
      fun i hi => succeeds i (List.mem_range.mp (perm.mem_iff.mp hi))
    rw [map_scheduled inLine starts, runScheduled_eq_ok scheduled]
    show Except.ok _ = Except.ok _
    rw [toList_fill_perm results perm]
    simp [List.filterMap_map]

/-! ### Batches that succeed -/

theorem exists_of_runScheduled_eq_ok {task : Nat → Except PlanError α} {order : List Nat}
    {slots out : Array (Option α)} (success : runScheduled task order slots = .ok out) :
    ∀ i ∈ order, ∃ result, task i = .ok result := by
  induction order generalizing slots with
  | nil => exact fun i hi => absurd hi List.not_mem_nil
  | cons index rest ih =>
    rw [runScheduled] at success
    cases head : task index with
    | error failure =>
      rw [head] at success
      cases success
    | ok result =>
      rw [head] at success
      intro i hi
      rcases List.mem_cons.mp hi with same | later
      · exact ⟨result, same ▸ head⟩
      · exact ih success i later

theorem exists_of_mapM_eq_ok {task : Nat → Except PlanError α} {indices : List Nat}
    {out : List α} (success : indices.mapM task = .ok out) :
    ∀ i ∈ indices, ∃ result, task i = .ok result := by
  induction indices generalizing out with
  | nil => exact fun i hi => absurd hi List.not_mem_nil
  | cons index rest ih =>
    rw [List.mapM_cons] at success
    cases head : task index with
    | error failure =>
      rw [head] at success
      cases success
    | ok result =>
      cases tail : rest.mapM task with
      | error failure =>
        rw [head, tail] at success
        cases success
      | ok results =>
        intro i hi
        rcases List.mem_cons.mp hi with same | later
        · exact ⟨result, same ▸ head⟩
        · exact ih tail i later

/-- A batch succeeds only if each of its tasks does. -/
theorem exists_of_map_eq_ok (pool : WorkerPool) {count : Nat} {task : Nat → Except PlanError α}
    {out : List α} (success : pool.map count task = .ok out) :
    ∀ i < count, ∃ result, task i = .ok result := by
  intro i hi
  have inRange : i ∈ List.range count := List.mem_range.mpr hi
  by_cases inLine : pool.workers ≤ 1 ∨ count ≤ 1
  · rw [map_inLine inLine] at success
    exact exists_of_mapM_eq_ok success i inRange
  · have scheduled : i ∈ pool.schedule count := (pool.schedule_perm count).mem_iff.mpr inRange
    cases refused : pool.refusal? with
    | some reason =>
      rw [map_of_refusal inLine refused] at success
      cases success
    | none =>
      rw [map_scheduled inLine refused] at success
      cases batch : runScheduled task (pool.schedule count) (Array.replicate count none) with
      | error failure =>
        rw [batch] at success
        cases success
      | ok slots => exact exists_of_runScheduled_eq_ok batch i scheduled

/-- What it answers then are the results by index. -/
theorem eq_of_map_eq_ok (pool : WorkerPool) {count : Nat} {task : Nat → Except PlanError α}
    {results : Nat → α} {out : List α} (success : pool.map count task = .ok out)
    (succeeds : ∀ i < count, task i = .ok (results i)) : out = (List.range count).map results := by
  by_cases inLine : pool.workers ≤ 1 ∨ count ≤ 1
  · rw [map_inLine inLine, mapM_eq_ok fun i hi => succeeds i (List.mem_range.mp hi)] at success
    exact (Except.ok.inj success).symm
  · cases refused : pool.refusal? with
    | some reason => cases (map_of_refusal inLine refused task).symm.trans success
    | none => exact Except.ok.inj (success.symm.trans (map_eq_ok refused succeeds))

/-! ### Batches that fail -/

theorem exists_of_runScheduled_eq_error {task : Nat → Except PlanError α} {order : List Nat}
    {slots : Array (Option α)} {failure : PlanError}
    (fails : runScheduled task order slots = .error failure) :
    ∃ i ∈ order, task i = .error failure := by
  induction order generalizing slots with
  | nil => cases fails
  | cons index rest ih =>
    rw [runScheduled] at fails
    cases head : task index with
    | error first =>
      rw [head] at fails
      cases fails
      exact ⟨index, List.mem_cons_self, head⟩
    | ok result =>
      rw [head] at fails
      obtain ⟨i, later, failed⟩ := ih fails
      exact ⟨i, List.mem_cons_of_mem _ later, failed⟩

/-- In line, the failure is that of the first task that fails. -/
theorem exists_of_mapM_eq_error {task : Nat → Except PlanError α} {start count : Nat}
    {failure : PlanError} (fails : (List.range' start count).mapM task = .error failure) :
    ∃ i, start ≤ i ∧ i < start + count ∧ task i = .error failure ∧
      ∀ j, start ≤ j → j < i → ∃ result, task j = .ok result := by
  induction count generalizing start with
  | zero => cases fails
  | succ count ih =>
    rw [List.range'_succ, List.mapM_cons] at fails
    cases head : task start with
    | error first =>
      rw [head] at fails
      cases fails
      exact ⟨start, Nat.le_refl _, by omega, head, fun j low high => by omega⟩
    | ok result =>
      cases tail : (List.range' (start + 1) count).mapM task with
      | ok results =>
        rw [head, tail] at fails
        cases fails
      | error later =>
        rw [head, tail] at fails
        cases fails
        obtain ⟨i, low, high, failed, before⟩ := ih tail
        refine ⟨i, by omega, by omega, failed, fun j lowJ highJ => ?_⟩
        rcases Nat.eq_or_lt_of_le lowJ with rfl | above
        · exact ⟨result, head⟩
        · exact before j above highJ

/-- **A failing task fails its batch**, whatever the number of workers and the order in which they
finish: with the failure of some task, and of the first that fails when the tasks run in line. -/
theorem map_eq_error {pool : WorkerPool} (starts : pool.Starts) {count : Nat}
    {task : Nat → Except PlanError α} (fails : ∃ i < count, ∃ failure, task i = .error failure) :
    ∃ failure, pool.map count task = .error failure ∧ ∃ i < count, task i = .error failure ∧
      (pool.workers ≤ 1 ∨ count ≤ 1 → ∀ j < i, ∃ result, task j = .ok result) := by
  cases batch : pool.map count task with
  | ok out =>
    obtain ⟨i, inRange, failure, failed⟩ := fails
    obtain ⟨result, success⟩ := exists_of_map_eq_ok pool batch i inRange
    cases success.symm.trans failed
  | error failure =>
    refine ⟨failure, rfl, ?_⟩
    by_cases inLine : pool.workers ≤ 1 ∨ count ≤ 1
    · rw [map_inLine inLine, List.range_eq_range'] at batch
      obtain ⟨i, -, inRange, failed, before⟩ := exists_of_mapM_eq_error batch
      exact ⟨i, by omega, failed, fun _ j earlier => before j (Nat.zero_le _) earlier⟩
    · rw [map_scheduled inLine starts] at batch
      cases run : runScheduled task (pool.schedule count) (Array.replicate count none) with
      | ok slots =>
        rw [run] at batch
        cases batch
      | error first =>
        rw [run] at batch
        cases batch
        obtain ⟨i, scheduled, failed⟩ := exists_of_runScheduled_eq_error run
        have inRange := List.mem_range.mp ((pool.schedule_perm count).mem_iff.mp scheduled)
        exact ⟨i, inRange, failed, fun alone => absurd alone inLine⟩

end Columnar.WorkerPool
