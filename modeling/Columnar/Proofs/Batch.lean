import Columnar.Proofs.WorkerPool
import Mathlib

/-!
# Runs of a batch

A `WorkerPool` is given the order in which the tasks of a batch finish. Here is where such an order
comes from: in a `Batch`, a free worker starts some waiting task, or some running task finishes
(`Batch.Step`). A step keeps the tasks of the batch, so a complete run finishes each of them once
(`CompleteRun.perm`). A single worker can finish them in any order (`exists_run`). The pool of some
runs is `WorkerPool.ofRuns`.
-/

namespace Columnar

/-- A batch on its way: the tasks that wait, those that run, and those that have finished, in the
order in which they did. -/
structure Batch where
  waiting : List ℕ
  running : List ℕ
  finished : List ℕ
deriving DecidableEq, Repr

namespace Batch

variable {workers count : ℕ} {b b' : Batch}

/-- All tasks of a batch wait. -/
def ofTasks (tasks : List ℕ) : Batch := ⟨tasks, [], []⟩

def tasks (b : Batch) : List ℕ := b.waiting ++ b.running ++ b.finished

/-- What happens next in a batch. -/
inductive Step (workers : ℕ) : Batch → Batch → Prop
  /-- A free worker starts a waiting task. -/
  | start {b : Batch} {i : ℕ} (free : b.running.length < workers) (waits : i ∈ b.waiting) :
      Step workers b ⟨b.waiting.erase i, i :: b.running, b.finished⟩
  /-- A running task finishes. -/
  | finish {b : Batch} {i : ℕ} (runs : i ∈ b.running) :
      Step workers b ⟨b.waiting, b.running.erase i, b.finished ++ [i]⟩

/-- A step neither loses a task nor takes one twice. -/
theorem Step.tasks_perm (step : Step workers b b') : b'.tasks.Perm b.tasks := by
  cases step with
  | @start i free waits =>
    refine List.Perm.append_right b.finished ?_
    calc (b.waiting.erase i ++ i :: b.running).Perm (i :: b.waiting.erase i ++ b.running) :=
          List.perm_middle
      _ |>.Perm (b.waiting ++ b.running) := (List.perm_cons_erase waits).symm.append_right _
  | @finish i runs =>
    have back : (b.running.erase i ++ (b.finished ++ [i])).Perm (b.running ++ b.finished) :=
      calc (b.running.erase i ++ (b.finished ++ [i])).Perm (b.running.erase i ++ i :: b.finished) :=
            (List.perm_append_singleton i b.finished).append_left _
        _ |>.Perm (i :: b.running.erase i ++ b.finished) := List.perm_middle
        _ |>.Perm (b.running ++ b.finished) := (List.perm_cons_erase runs).symm.append_right _
    simpa only [tasks, List.append_assoc] using back.append_left b.waiting

/-- The order in which a batch of tasks below `count` has finished, with the run that ended so. -/
structure CompleteRun (workers count : ℕ) where
  order : List ℕ
  run : Relation.ReflTransGen (Step workers) (ofTasks (List.range count)) ⟨[], [], order⟩

theorem tasks_perm_of_run (run : Relation.ReflTransGen (Step workers) b b') :
    b'.tasks.Perm b.tasks := by
  induction run with
  | refl => exact List.Perm.refl _
  | tail _ step ih => exact step.tasks_perm.trans ih

/-- A complete run finishes every task once. -/
theorem CompleteRun.perm (r : CompleteRun workers count) : r.order.Perm (List.range count) := by
  have kept := tasks_perm_of_run r.run
  simpa [tasks, ofTasks] using kept

/-- Tasks may finish in any order. -/
theorem exists_run (positive : 1 ≤ workers) {order waiting : List ℕ} (perm : order.Perm waiting)
    (finished : List ℕ) :
    Relation.ReflTransGen (Step workers) ⟨waiting, [], finished⟩ ⟨[], [], finished ++ order⟩ := by
  induction order generalizing waiting finished with
  | nil =>
    rw [List.nil_perm.mp perm, List.append_nil]
  | cons i rest ih =>
    have waits : i ∈ waiting := perm.subset List.mem_cons_self
    have others : rest.Perm (waiting.erase i) := by
      have := perm.erase i
      rwa [List.erase_cons_head] at this
    have started : Step workers ⟨waiting, [], finished⟩ ⟨waiting.erase i, [i], finished⟩ :=
      .start positive waits
    have ended : Step workers ⟨waiting.erase i, [i], finished⟩
        ⟨waiting.erase i, [i].erase i, finished ++ [i]⟩ := .finish List.mem_cons_self
    rw [List.erase_cons_head] at ended
    have later := ih others (finished ++ [i])
    rw [List.append_assoc] at later
    exact ((Relation.ReflTransGen.single started).tail ended).trans later

end Batch

/-- The pool whose batches finish as the given runs do, if the host starts its workers. -/
def WorkerPool.ofRuns {workers : ℕ} (runs : ∀ count, Batch.CompleteRun workers count)
    (refusal? : Option String) : WorkerPool where
  workers := workers
  schedule count := (runs count).order
  schedule_perm count := (runs count).perm
  refusal? := refusal?

end Columnar
