import Overlay.Proofs.Scan.Rest

/-!
# How much of its room a pool uses

A submitted task starts a worker if there is room for one and the tasks that wait are then more than
the workers alive, whether these are held up or not. So a pool is always `Pool.Staffed`: its workers
are as many as it has room for, or no fewer than the tasks that wait, `Run.room_used`. This is all
that holds of a pool at rest. Any number of workers may be held up with as many tasks waiting behind
them, whatever room is left: `Run.exists_rest_waiting`.
-/

namespace Overlay

variable {τ : Type}

namespace Pool

variable {held : τ → Bool} {pool pool' : Pool τ} {i : Nat} {task : τ}

/-- The workers are as many as there is room for, or no fewer than the tasks that wait. -/
def Staffed (pool : Pool τ) : Prop := pool.active = pool.maxWorkers ∨ pool.queued ≤ pool.active

theorem workers_submit (pool : Pool τ) (task : τ) : (pool.submit task).workers =
    if pool.active < pool.maxWorkers ∧ pool.active < pool.queued + 1 then pool.workers ++ [none]
    else pool.workers := by
  unfold submit
  dsimp only
  split <;> rfl

namespace Staffed

theorem submit (h : pool.Staffed) (hcap : pool.active ≤ pool.maxWorkers) (task : τ) :
    (pool.submit task).Staffed := by
  unfold Staffed at h
  unfold Pool.submit Staffed
  dsimp only
  split
  next => right; dsimp only; omega
  next hnone => dsimp only; omega

theorem take (h : pool.Staffed) (htake : pool.take? i = some (task, pool')) : pool'.Staffed := by
  obtain ⟨-, queue, -, rfl⟩ := of_take? htake
  unfold Staffed at h ⊢
  dsimp only
  omega

/-- A worker is gone only when no task waits. -/
theorem exit (hsound : pool.Sound) (hexit : pool.exit? i = some pool') : pool'.Staffed := by
  obtain ⟨-, hqueue, rfl⟩ := of_exit? hexit
  have hqueued := hsound.queued
  rw [hqueue, List.length_nil] at hqueued
  exact .inr (hqueued ▸ Nat.zero_le _)

theorem finish (h : pool.Staffed) (hfinish : pool.finish? i = some (task, pool')) :
    pool'.Staffed := by
  obtain ⟨-, rfl⟩ := of_finish? hfinish
  exact h

end Staffed

theorem leftOf_of_held (free : Nat) (queue : List τ) :
    leftOf (fun _ => true) free queue = queue.drop free := by
  induction queue generalizing free with
  | nil => rw [leftOf_nil, List.drop_nil]
  | cons task queue ih =>
    cases free with
    | zero => rfl
    | succ free => exact ih free

end Pool

namespace Run

variable {run : Run τ} {maxWorkers active waiting : Nat} {submitted : List τ}

theorem Reached.staffed (h : Reached maxWorkers submitted run) : run.pool.Staffed := by
  induction h with
  | new => exact .inr (Nat.le_refl _)
  | submit h task ih => exact ih.submit h.orderly.sound.capped task
  | move h crashes m hmove ih =>
    obtain ⟨i, task, pool, -, htake, hnext⟩ | ⟨i, pool, -, hexit, hnext⟩ |
      ⟨i, task, pool, -, hfinish, hnext⟩ := of_move? hmove
    · rw [hnext]
      exact ih.take htake
    · rw [hnext]
      exact .exit h.orderly.sound hexit
    · rw [hnext]
      exact ih.finish hfinish

/-- If the tasks that wait are more than the workers, these are as many as there may be, at rest or
not. A task that is submitted while there is room starts a worker if and only if the tasks that
wait, this one among them, are then more than the workers alive. -/
theorem room_used (h : Reached maxWorkers submitted run) :
    (run.pool.active < run.pool.queue.length → run.pool.active = max maxWorkers 1) ∧
    ∀ task, run.pool.active < max maxWorkers 1 →
      (run.submit task).pool.workers =
        if run.pool.active < (run.submit task).pool.queue.length then run.pool.workers ++ [none]
        else run.pool.workers := by
  have hqueued := h.orderly.sound.queued
  have hmax := h.maxWorkers_eq
  constructor
  · intro hwait
    have hstaffed := h.staffed
    unfold Pool.Staffed at hstaffed
    omega
  · intro task hroom
    rw [Run.submit, Pool.workers_submit, Pool.queue_submit, List.length_append,
      List.length_singleton, hqueued, hmax]
    simp only [hroom, true_and]

/-- The second task waits behind the first, which is held up, though there is room for two workers.
The third one starts the other worker, and with the fourth there is no room left. -/
theorem room_used_late : ∃ run : Run Nat, Reached 2 [1, 2] run ∧
    run.pool.Blocked (fun _ => true) ∧ run.pool.workers = [some 1] ∧
    (run.submit 3).pool.workers = [some 1, none] ∧
    ((run.submit 3).submit 4).pool.active = 2 := by
  have h : Reached 2 [1, 2] _ := ((Reached.new.submit 1).move (· == 1) (.take 0) rfl).submit 2
  refine ⟨_, h, List.forall_mem_cons.2 ⟨⟨1, rfl, rfl⟩, nofun⟩, rfl, ?_, ?_⟩
  · exact (room_used h).2 3 (by decide)
  · exact (room_used ((h.submit 3).submit 4)).1 (by decide)

/-- The pool may come to rest with room for a worker and a task that waits. -/
theorem room_left : ¬ ∀ (maxWorkers : Nat) (submitted : List Nat) (run : Run Nat)
    (held : Nat → Bool), Reached maxWorkers submitted run → run.pool.Blocked held →
      run.pool.queue ≠ [] → run.pool.active = max maxWorkers 1 := by
  intro hclaim
  have h : Reached 2 [1, 2] _ := ((Reached.new.submit 1).move (· == 1) (.take 0) rfl).submit 2
  have hactive := hclaim 2 [1, 2] _ (fun _ => true) h
    (List.forall_mem_cons.2 ⟨⟨1, rfl, rfl⟩, nofun⟩) (List.cons_ne_nil 2 [])
  exact absurd hactive (by decide)

/-- Tasks that are submitted before any is taken get a worker each, while there is room. -/
theorem exists_untaken (maxWorkers : Nat) (task : τ) (hroom : active ≤ max maxWorkers 1) :
    ∃ (submitted : List τ) (run : Run τ), Reached maxWorkers submitted run ∧
      run.pool.active = active ∧ run.pool.queue.length = active ∧ run.started = [] ∧
      run.ended = [] := by
  induction active with
  | zero => exact ⟨[], _, .new, rfl, rfl, rfl, rfl⟩
  | succ n ih =>
    obtain ⟨submitted, run, h, hactive, hqueue, hstarted, hended⟩ := ih (by omega)
    have hnext := h.submit task
    have hworkers : (run.submit task).pool.workers = run.pool.workers ++ [none] := by
      rw [Run.submit, Pool.workers_submit, h.maxWorkers_eq, h.orderly.sound.queued, if_pos]
      omega
    refine ⟨_, _, hnext, ?_, ?_, hstarted, hended⟩
    · rw [hnext.orderly.sound.active, hworkers, List.length_append, ← h.orderly.sound.active,
        hactive, List.length_singleton]
    · rw [Run.submit, Pool.queue_submit, List.length_append, hqueue, List.length_singleton]

/-- As many workers as there is room for may be held up at rest, with no task behind them. -/
theorem exists_rest (maxWorkers : Nat) (task : τ) (hroom : active ≤ max maxWorkers 1) :
    ∃ (submitted : List τ) (run : Run τ), Reached maxWorkers submitted run ∧
      run.pool.Blocked (fun _ => true) ∧ run.pool.active = active ∧ run.pool.queue = [] := by
  obtain ⟨submitted, run, h, hactive, hqueue, hstarted, hended⟩ :=
    exists_untaken maxWorkers task hroom
  have hrest := comesTo_settle (fun _ => true) (fun _ => false) run
  obtain ⟨hreached, hkept⟩ := hrest.kept h
  have hblocked := rest_iff.1 hrest.rest
  have hfree : run.pool.free (fun _ => true) = run.pool.queue.length := by
    have honce := h.orderly.once.length_eq
    rw [hended, hstarted, List.append_nil, List.length_nil] at honce
    rw [Pool.free, List.countP_true, honce, hactive, hqueue, Nat.sub_zero]
  have hnone : (run.settle (fun _ => true) fun _ => false).value.pool.queue = [] := by
    rw [← hblocked.left_eq hreached.orderly.sound, hkept.left, Pool.left, hfree,
      Pool.leftOf_of_held, List.drop_length]
  refine ⟨submitted, _, hreached, hblocked, ?_, hnone⟩
  have hworkers := hreached.orderly.active_add_countP hblocked
  have horder := congrArg List.length hkept.order
  rw [hkept.ended, hended, List.filter_nil, List.length_nil, List.countP_true] at hworkers
  rw [hnone, List.append_nil, hstarted, List.nil_append, hqueue] at horder
  omega

/-- The pool may rest with any number of workers that there is room for, held up, and with as many
tasks waiting behind them. -/
theorem exists_rest_waiting (maxWorkers : Nat) (task : τ) (hroom : active ≤ max maxWorkers 1)
    (hwaiting : waiting ≤ active) :
    ∃ (submitted : List τ) (run : Run τ), Reached maxWorkers submitted run ∧
      run.pool.Blocked (fun _ => true) ∧ run.pool.active = active ∧
      run.pool.queue.length = waiting := by
  induction waiting with
  | zero =>
    obtain ⟨submitted, run, h, hblocked, hactive, hqueue⟩ := exists_rest maxWorkers task hroom
    exact ⟨submitted, run, h, hblocked, hactive, congrArg List.length hqueue⟩
  | succ n ih =>
    obtain ⟨submitted, run, h, hblocked, hactive, hqueue⟩ := ih (by omega)
    have hnext := h.submit task
    have hworkers : (run.submit task).pool.workers = run.pool.workers := by
      rw [Run.submit, Pool.workers_submit, h.orderly.sound.queued, if_neg]
      omega
    refine ⟨_, _, hnext, fun worker hworker => hblocked worker (hworkers ▸ hworker), ?_, ?_⟩
    · rw [hnext.orderly.sound.active, hworkers, ← h.orderly.sound.active, hactive]
    · rw [Run.submit, Pool.queue_submit, List.length_append, hqueue, List.length_singleton]

end Run

end Overlay
