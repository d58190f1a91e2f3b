import Overlay.Scan.Pool

/-!
# The tasks of a scan pool

`Pool.tasks` are the tasks that were submitted and have not ended, queued or running. Submitting
adds one and finishing removes one; taking a task from the queue and a worker's leaving move none.
-/

namespace Overlay.Pool

variable {τ : Type}

def tasks (pool : Pool τ) : List τ := pool.queue ++ pool.workers.filterMap id

def running (pool : Pool τ) : List τ := pool.workers.filterMap id

theorem tasks_eq (pool : Pool τ) : pool.tasks = pool.queue ++ pool.running := rfl

/-- The tasks of the other workers stay while one worker changes its task or leaves. -/
theorem running_around {workers : List (Option τ)} {i : Nat} {worker : Option τ}
    (h : workers[i]? = some worker) :
    ∃ before after, workers.filterMap id = before ++ (worker.toList ++ after) ∧
      (∀ other, (workers.set i other).filterMap id = before ++ (other.toList ++ after)) ∧
      (workers.eraseIdx i).filterMap id = before ++ after := by
  induction workers generalizing i with
  | nil => simp at h
  | cons first rest ih =>
    cases i with
    | zero =>
      obtain rfl : first = worker := by simpa using h
      refine ⟨[], rest.filterMap id, ?_, fun other => ?_, rfl⟩
      · cases first <;> rfl
      · cases other <;> rfl
    | succ i =>
      obtain ⟨before, after, hl, hset, herase⟩ := ih (by simpa using h)
      have hcons : ∀ l : List (Option τ),
          (first :: l).filterMap id = first.toList ++ l.filterMap id := by
        intro l
        cases first <;> rfl
      refine ⟨first.toList ++ before, after, ?_, fun other => ?_, ?_⟩
      · rw [hcons, hl, List.append_assoc]
      · rw [List.set_cons_succ, hcons, hset, List.append_assoc]
      · rw [List.eraseIdx_cons_succ, hcons, herase, List.append_assoc]

theorem of_take? {pool pool' : Pool τ} {i : Nat} {task : τ}
    (h : pool.take? i = some (task, pool')) :
    pool.workers[i]? = some none ∧ ∃ queue, pool.queue = task :: queue ∧
      pool' = { pool with
        queue := queue, queued := pool.queued - 1, workers := pool.workers.set i (some task) } := by
  unfold take? at h
  split at h
  next first queue hw hq =>
    simp only [Option.some.injEq, Prod.mk.injEq] at h
    obtain ⟨rfl, rfl⟩ := h
    exact ⟨hw, queue, hq, rfl⟩
  next => simp at h

theorem of_exit? {pool pool' : Pool τ} {i : Nat} (h : pool.exit? i = some pool') :
    pool.workers[i]? = some none ∧ pool.queue = [] ∧
      pool' = { pool with active := pool.active - 1, workers := pool.workers.eraseIdx i } := by
  unfold exit? at h
  split at h
  next hw hq => exact ⟨hw, hq, (Option.some.inj h).symm⟩
  next => simp at h

theorem of_finish? {pool pool' : Pool τ} {i : Nat} {task : τ}
    (h : pool.finish? i = some (task, pool')) :
    pool.workers[i]? = some (some task) ∧
      pool' = { pool with workers := pool.workers.set i none } := by
  unfold finish? at h
  split at h
  next running hw =>
    simp only [Option.some.injEq, Prod.mk.injEq] at h
    obtain ⟨rfl, rfl⟩ := h
    exact ⟨hw, rfl⟩
  next => simp at h

theorem running_submit (pool : Pool τ) (task : τ) :
    (pool.submit task).running = pool.running := by
  unfold submit
  dsimp only
  split
  · simp [running]
  · rfl

theorem running_take {pool pool' : Pool τ} {i : Nat} {task : τ}
    (h : pool.take? i = some (task, pool')) : pool'.running.Perm (task :: pool.running) := by
  obtain ⟨hw, queue, -, rfl⟩ := of_take? h
  obtain ⟨before, after, hl, hset, -⟩ := running_around hw
  rw [running, running, hset, hl]
  exact List.perm_middle

theorem running_exit {pool pool' : Pool τ} {i : Nat} (h : pool.exit? i = some pool') :
    pool'.running = pool.running := by
  obtain ⟨hw, -, rfl⟩ := of_exit? h
  obtain ⟨before, after, hl, -, herase⟩ := running_around hw
  rw [running, running, herase, hl]
  rfl

theorem running_finish {pool pool' : Pool τ} {i : Nat} {task : τ}
    (h : pool.finish? i = some (task, pool')) : pool.running.Perm (task :: pool'.running) := by
  obtain ⟨hw, rfl⟩ := of_finish? h
  obtain ⟨before, after, hl, hset, -⟩ := running_around hw
  rw [running, running, hset, hl]
  exact List.perm_middle

theorem queue_submit (pool : Pool τ) (task : τ) :
    (pool.submit task).queue = pool.queue ++ [task] := by
  unfold submit
  dsimp only
  split <;> rfl

theorem tasks_submit (pool : Pool τ) (task : τ) :
    (pool.submit task).tasks.Perm (task :: pool.tasks) := by
  rw [tasks_eq, tasks_eq, queue_submit, running_submit, List.append_assoc]
  exact List.perm_middle

theorem tasks_take {pool pool' : Pool τ} {i : Nat} {task : τ}
    (h : pool.take? i = some (task, pool')) : pool'.tasks.Perm pool.tasks := by
  have hrunning := running_take h
  obtain ⟨-, queue, hqueue, rfl⟩ := of_take? h
  rw [tasks_eq, tasks_eq, hqueue]
  exact (hrunning.append_left queue).trans List.perm_middle

theorem tasks_exit {pool pool' : Pool τ} {i : Nat} (h : pool.exit? i = some pool') :
    pool'.tasks = pool.tasks := by
  rw [tasks_eq, tasks_eq, running_exit h]
  obtain ⟨-, -, rfl⟩ := of_exit? h
  rfl

theorem tasks_finish {pool pool' : Pool τ} {i : Nat} {task : τ}
    (h : pool.finish? i = some (task, pool')) : pool.tasks.Perm (task :: pool'.tasks) := by
  have hrunning := running_finish h
  obtain ⟨-, rfl⟩ := of_finish? h
  exact (hrunning.append_left pool.queue).trans List.perm_middle

theorem tasks_progress {pool : Pool τ} {i : Nat} {task : τ} (task' : τ)
    (h : pool.workers[i]? = some (some task)) :
    ∃ others, pool.tasks.Perm (task :: others) ∧
      (pool.progress i task').tasks.Perm (task' :: others) := by
  obtain ⟨before, after, hl, hset, -⟩ := running_around h
  refine ⟨pool.queue ++ before ++ after, ?_, ?_⟩
  · rw [tasks, hl, ← List.append_assoc]
    exact List.perm_middle
  · rw [tasks, progress, hset, ← List.append_assoc]
    exact List.perm_middle

end Overlay.Pool
