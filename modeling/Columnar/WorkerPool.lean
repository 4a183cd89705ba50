import Columnar.Error

/-!
# Worker pools

A pool runs one task for each index and gathers the results by index. A pool of one worker runs
the tasks in order and stops at the first failure. With more workers the tasks finish in some
order that the pool does not choose: `schedule` gives it, as a permutation of the indices. A
failure then fails the whole batch, with the failure that comes first in that order. The workers
are started when there is a batch for them; a host that cannot start them gives a reason, and
the batch fails with it before any task runs.
-/

namespace Columnar

/-- The most workers of a pool. -/
def maxWorkers : Nat := 64

/-- A pool of workers. -/
structure WorkerPool where
  workers : Nat
  /-- The order in which a batch of tasks finishes. -/
  schedule : Nat → List Nat := List.range
  /-- Every task of a batch finishes once. -/
  schedule_perm : ∀ count, (schedule count).Perm (List.range count) := by
    exact fun _ => List.Perm.refl _
  /-- Why the host does not start the workers, if it does not. -/
  refusal? : Option String := none

namespace WorkerPool

def single : WorkerPool := { workers := 1 }

/-- A pool of the given number of workers, at most `maxWorkers`. -/
def ofWorkers (count : Nat) : Except PlanError WorkerPool :=
  if count < 1 then .error (.invalidConfig .noThreads)
  else .ok { workers := min count maxWorkers }

/-- The pool that suits a host: a worker for each of its processors, within the bounds. -/
def ofHost (processors : Nat) : WorkerPool := { workers := max 1 (min processors maxWorkers) }

def isParallel (pool : WorkerPool) : Bool := 1 < pool.workers

/-- Runs tasks in the order in which they finish, and keeps each result at its index. -/
def runScheduled {α : Type} (task : Nat → Except PlanError α) (order : List Nat)
    (results : Array (Option α)) : Except PlanError (Array (Option α)) :=
  match order with
  | [] => .ok results
  | index :: rest => do
    let result ← task index
    runScheduled task rest (results.setIfInBounds index (some result))

/-- Runs a task for every index below `count`, and returns the results by index. -/
def map {α : Type} (pool : WorkerPool) (count : Nat) (task : Nat → Except PlanError α) :
    Except PlanError (List α) :=
  if !pool.isParallel || count ≤ 1 then (List.range count).mapM task
  else
    match pool.refusal? with
    | some reason => .error (.worker reason)
    | none => do
      let results ← runScheduled task (pool.schedule count) (Array.replicate count none)
      return results.toList.filterMap id

end WorkerPool

end Columnar
