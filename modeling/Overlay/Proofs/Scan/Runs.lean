import Overlay.Proofs.Scan.Tasks
import Overlay.Scan.Run

/-!
# Submissions and workers in any order

`Run.Reached` are the runs that a scan pool can come to when submissions and moves of its workers
alternate in any order. However they do, the pool stays `Pool.Sound`: its counters are true, its
workers are no more than its cap, and there is one as long as a task waits. The run stays `Orderly`:
tasks are started in the order of their submission, and what was started is running or has ended,
each task once.
-/

namespace Overlay

variable {τ : Type}

namespace Pool

structure Sound (pool : Pool τ) : Prop where
  room : 0 < pool.maxWorkers
  capped : pool.active ≤ pool.maxWorkers
  queued : pool.queued = pool.queue.length
  active : pool.active = pool.workers.length
  manned : pool.queue ≠ [] → 0 < pool.active

namespace Sound

variable {pool pool' : Pool τ} {i : Nat} {task : τ}

theorem new (maxWorkers : Nat) : (Pool.new (τ := τ) maxWorkers).Sound where
  room := Nat.lt_of_lt_of_le Nat.one_pos (Nat.le_max_right _ _)
  capped := Nat.zero_le _
  queued := rfl
  active := rfl
  manned h := absurd rfl h

theorem submit (h : pool.Sound) (task : τ) : (pool.submit task).Sound := by
  have hqueued := h.queued
  unfold Pool.submit
  dsimp only
  split
  next hspawn =>
    refine ⟨h.room, Nat.succ_le_of_lt hspawn.1, ?_, ?_, fun _ => Nat.succ_pos _⟩
    · simp [hqueued]
    · simp [h.active]
  next hnone =>
    refine ⟨h.room, h.capped, ?_, h.active, fun _ => ?_⟩
    · simp [hqueued]
    · -- a pool without workers has room for one and would have started it
      have hroom := h.room
      dsimp only at hnone ⊢
      omega

/-- The counter of waiting tasks is not below one when a task is taken. -/
theorem queued_pos (h : pool.Sound) (htake : pool.take? i = some (task, pool')) :
    0 < pool.queued := by
  obtain ⟨-, queue, hqueue, -⟩ := of_take? htake
  rw [h.queued, hqueue]
  exact Nat.succ_pos _

theorem active_pos (h : pool.Sound) {worker : Option τ} (hw : pool.workers[i]? = some worker) :
    0 < pool.active := by
  rw [h.active]
  exact Nat.lt_of_le_of_lt (Nat.zero_le i) (List.getElem?_eq_some_iff.1 hw).1

theorem take (h : pool.Sound) (htake : pool.take? i = some (task, pool')) : pool'.Sound := by
  obtain ⟨hw, queue, hqueue, rfl⟩ := of_take? htake
  have hqueued := h.queued
  rw [hqueue, List.length_cons] at hqueued
  refine ⟨h.room, h.capped, ?_, ?_, fun _ => h.active_pos hw⟩
  · dsimp only
    omega
  · rw [List.length_set]
    exact h.active

theorem exit (h : pool.Sound) (hexit : pool.exit? i = some pool') : pool'.Sound := by
  obtain ⟨hw, hqueue, rfl⟩ := of_exit? hexit
  have hi := (List.getElem?_eq_some_iff.1 hw).1
  refine ⟨h.room, Nat.le_trans (Nat.sub_le _ _) h.capped, h.queued, ?_,
    fun hne => absurd hqueue hne⟩
  rw [List.length_eraseIdx_of_lt hi, h.active]

theorem finish (h : pool.Sound) (hfinish : pool.finish? i = some (task, pool')) : pool'.Sound := by
  obtain ⟨-, rfl⟩ := of_finish? hfinish
  refine ⟨h.room, h.capped, h.queued, ?_, h.manned⟩
  rw [List.length_set]
  exact h.active

end Sound

theorem maxWorkers_submit (pool : Pool τ) (task : τ) :
    (pool.submit task).maxWorkers = pool.maxWorkers := by
  unfold submit
  dsimp only
  split <;> rfl

end Pool

namespace Run

/-- All that one move of a worker can do. -/
theorem of_move? {run : Run τ} {crashes : τ → Bool} {m : Pool.Move} {next : Logged (Run τ)}
    (h : run.move? crashes m = some next) :
    (∃ i task pool, m = .take i ∧ run.pool.take? i = some (task, pool) ∧
      next.value = { run with pool := pool, started := run.started ++ [task] }) ∨
    (∃ i pool, m = .exit i ∧ run.pool.exit? i = some pool ∧
      next.value = { run with pool := pool }) ∨
    ∃ i task pool, m = .work i ∧ run.pool.finish? i = some (task, pool) ∧
      next.value = { run with pool := pool, ended := run.ended ++ [task] } := by
  cases m with
  | take i =>
    simp only [move?, Option.map_eq_some_iff, Prod.exists] at h
    obtain ⟨task, pool, htake, rfl⟩ := h
    exact .inl ⟨i, task, pool, rfl, htake, rfl⟩
  | exit i =>
    simp only [move?, Option.map_eq_some_iff] at h
    obtain ⟨pool, hexit, rfl⟩ := h
    exact .inr (.inl ⟨i, pool, rfl, hexit, rfl⟩)
  | work i =>
    simp only [move?, Option.map_eq_some_iff, Prod.exists] at h
    obtain ⟨task, pool, hfinish, rfl⟩ := h
    exact .inr (.inr ⟨i, task, pool, rfl, hfinish, rfl⟩)

/-- The tasks submitted so far, and a run that these submissions and moves of the workers can lead
to. Any task may crash. -/
inductive Reached (maxWorkers : Nat) : List τ → Run τ → Prop where
  | new : Reached maxWorkers [] (.new maxWorkers)
  | submit {submitted : List τ} {run : Run τ} (h : Reached maxWorkers submitted run) (task : τ) :
      Reached maxWorkers (submitted ++ [task]) (run.submit task)
  | move {submitted : List τ} {run : Run τ} {next : Logged (Run τ)}
      (h : Reached maxWorkers submitted run) (crashes : τ → Bool) (m : Pool.Move)
      (hmove : run.move? crashes m = some next) : Reached maxWorkers submitted next.value

structure Orderly (submitted : List τ) (run : Run τ) : Prop where
  sound : run.pool.Sound
  order : run.started ++ run.pool.queue = submitted
  once : (run.pool.running ++ run.ended).Perm run.started

namespace Orderly

variable {submitted : List τ} {run : Run τ}

theorem new (maxWorkers : Nat) : Orderly (τ := τ) [] (.new maxWorkers) :=
  ⟨.new maxWorkers, rfl, .nil⟩

theorem submit (h : Orderly submitted run) (task : τ) :
    Orderly (submitted ++ [task]) (run.submit task) where
  sound := h.sound.submit task
  order := by rw [Run.submit, Pool.queue_submit, ← List.append_assoc, h.order]
  once := by rw [Run.submit, Pool.running_submit]; exact h.once

theorem move (h : Orderly submitted run) {crashes : τ → Bool} {m : Pool.Move}
    {next : Logged (Run τ)} (hmove : run.move? crashes m = some next) :
    Orderly submitted next.value := by
  obtain ⟨i, task, pool, -, htake, hnext⟩ | ⟨i, pool, -, hexit, hnext⟩ |
    ⟨i, task, pool, -, hfinish, hnext⟩ := of_move? hmove
  · obtain ⟨-, queue, hqueue, hpool⟩ := Pool.of_take? htake
    rw [hnext]
    refine ⟨h.sound.take htake, ?_, ?_⟩
    · rw [← h.order, hqueue, hpool, List.append_assoc, List.singleton_append]
    · have hrunning := (Pool.running_take htake).append_right run.ended
      refine (hrunning.trans (h.once.cons task)).trans ?_
      exact (List.perm_append_singleton task run.started).symm
  · have hrunning := Pool.running_exit hexit
    obtain ⟨-, -, hpool⟩ := Pool.of_exit? hexit
    rw [hnext]
    refine ⟨h.sound.exit hexit, ?_, ?_⟩
    · rw [hpool]
      exact h.order
    · rw [hrunning]
      exact h.once
  · obtain ⟨-, hpool⟩ := Pool.of_finish? hfinish
    rw [hnext]
    refine ⟨h.sound.finish hfinish, ?_, ?_⟩
    · rw [hpool]
      exact h.order
    · -- the task goes from those that run to those that have ended
      have hrunning := (Pool.running_finish hfinish).append_right run.ended
      refine List.Perm.trans ?_ (hrunning.symm.trans h.once)
      rw [← List.append_assoc]
      exact List.perm_append_singleton task _

end Orderly

theorem maxWorkers_move {run : Run τ} {crashes : τ → Bool} {m : Pool.Move} {next : Logged (Run τ)}
    (hmove : run.move? crashes m = some next) :
    next.value.pool.maxWorkers = run.pool.maxWorkers := by
  obtain ⟨i, task, pool, -, htake, hnext⟩ | ⟨i, pool, -, hexit, hnext⟩ |
    ⟨i, task, pool, -, hfinish, hnext⟩ := of_move? hmove
  · obtain ⟨-, queue, -, rfl⟩ := Pool.of_take? htake
    rw [hnext]
  · obtain ⟨-, -, rfl⟩ := Pool.of_exit? hexit
    rw [hnext]
  · obtain ⟨-, rfl⟩ := Pool.of_finish? hfinish
    rw [hnext]

namespace Reached

variable {maxWorkers : Nat} {submitted : List τ} {run : Run τ}

theorem orderly (h : Reached maxWorkers submitted run) : Orderly submitted run := by
  induction h with
  | new => exact .new maxWorkers
  | submit _ task ih => exact ih.submit task
  | move _ crashes m hmove ih => exact ih.move hmove

theorem maxWorkers_eq (h : Reached maxWorkers submitted run) :
    run.pool.maxWorkers = max maxWorkers 1 := by
  induction h with
  | new => rfl
  | submit _ task ih => rw [Run.submit, Pool.maxWorkers_submit, ih]
  | move _ crashes m hmove ih => rw [maxWorkers_move hmove, ih]

/-- A pool without workers and without waiting tasks runs none either. -/
theorem ended_of_isIdle (h : Reached maxWorkers submitted run) (hidle : run.pool.isIdle = true) :
    run.ended.Perm submitted := by
  obtain ⟨hsound, horder, honce⟩ := h.orderly
  simp only [Pool.isIdle, Bool.and_eq_true, beq_iff_eq] at hidle
  have hqueue : run.pool.queue = [] := List.eq_nil_of_length_eq_zero (hsound.queued ▸ hidle.2)
  have hworkers : run.pool.workers = [] :=
    List.eq_nil_of_length_eq_zero (hsound.active ▸ hidle.1)
  have hrunning : run.pool.running = [] := by rw [Pool.running, hworkers]; rfl
  rw [hqueue, List.append_nil] at horder
  rw [hrunning, List.nil_append] at honce
  exact horder ▸ honce

end Reached

/-- However submissions and workers alternate, the counters of the pool are true and never go below
zero, its workers are no more than its cap, no waiting task is left without a worker, tasks start in
the order of their submission, and each submitted task waits, runs or has ended, once. -/
theorem pool_safe {maxWorkers : Nat} {submitted : List τ} {run : Run τ}
    (h : Reached maxWorkers submitted run) :
    run.pool.active ≤ max maxWorkers 1 ∧
    run.pool.queued = run.pool.queue.length ∧
    (∀ i task pool, run.pool.take? i = some (task, pool) → 0 < run.pool.queued) ∧
    (∀ i pool, run.pool.exit? i = some pool → 0 < run.pool.active) ∧
    run.pool.active = run.pool.workers.length ∧
    (run.pool.queue ≠ [] → 1 ≤ run.pool.active) ∧
    run.started ++ run.pool.queue = submitted ∧
    (run.pool.running ++ run.ended).Perm run.started ∧
    (run.pool.queue ++ run.pool.running ++ run.ended).Perm submitted ∧
    (run.pool.isIdle = true → run.ended.Perm submitted) := by
  obtain ⟨hsound, horder, honce⟩ := h.orderly
  refine ⟨h.maxWorkers_eq ▸ hsound.capped, hsound.queued, ?_, ?_, hsound.active, hsound.manned,
    horder, honce, ?_, h.ended_of_isIdle⟩
  · intro i task pool htake
    exact hsound.queued_pos htake
  · intro i pool hexit
    exact hsound.active_pos (Pool.of_exit? hexit).1
  · have hstarted := honce.append_left run.pool.queue
    rw [← List.append_assoc] at hstarted
    exact hstarted.trans (horder ▸ List.perm_append_comm)

/-- A pool that was asked for no worker has one. Its first task crashed, and it runs the second. -/
theorem pool_safe_crashed : ∃ run : Run Nat, Reached 0 [1, 2, 3] run ∧
    run.pool.queue = [3] ∧ run.pool.running = [2] ∧ run.ended = [1] ∧ run.pool.active ≤ 1 := by
  have h : Reached 0 [1, 2, 3] _ :=
    (((((Reached.new.submit 1).submit 2).move (· == 1) (.take 0) rfl).move (· == 1) (.work 0)
      rfl).move (· == 1) (.take 0) rfl).submit 3
  exact ⟨_, h, rfl, rfl, rfl, (pool_safe h).1⟩

end Run

end Overlay
