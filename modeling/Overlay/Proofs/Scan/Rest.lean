import Mathlib.Logic.Relation
import Mathlib.Tactic.ByContra
import Overlay.Proofs.Scan.Runs

/-!
# Where a pool comes to rest

When nothing more is submitted, workers move as long as their tasks let them. Each move lowers the
weight of the pool, so there is an end to it, and which worker moves first has no say in that end.
A worker that takes a held task is stuck with it, every other one goes on with the queue, so what
stays in the queue can be counted off from its front: `Pool.left`. With the queue the rest is
settled, since tasks start in the order of the queue and those that have started run or have ended:
`Run.comes_to_one_rest`.
-/

namespace Overlay

variable {τ : Type}

namespace Pool

variable {held : τ → Bool} {pool pool' : Pool τ} {i : Nat} {task : τ}

def Blocked (held : τ → Bool) (pool : Pool τ) : Prop :=
  ∀ worker ∈ pool.workers, ∃ task, worker = some task ∧ held task = true

def Move.Free (held : τ → Bool) (pool : Pool τ) : Move → Prop
  | work i => ∀ task, pool.workers[i]? = some (some task) → held task = false
  | take _ | exit _ => True

def free (held : τ → Bool) (pool : Pool τ) : Nat := pool.active - pool.running.countP held

/-- What is left of a queue if some workers go on with it until each of them has a held task. -/
def leftOf (held : τ → Bool) : Nat → List τ → List τ
  | 0, queue => queue
  | _ + 1, [] => []
  | free + 1, task :: queue => leftOf held (if held task then free else free + 1) queue

def left (held : τ → Bool) (pool : Pool τ) : List τ := leftOf held (pool.free held) pool.queue

@[simp] theorem leftOf_zero (queue : List τ) : leftOf held 0 queue = queue := by
  cases queue <;> rfl

@[simp] theorem leftOf_nil (free : Nat) : leftOf held free [] = [] := by
  cases free <;> rfl

namespace Sound

theorem running_le (h : pool.Sound) : pool.running.length ≤ pool.active := by
  rw [h.active]
  exact List.length_filterMap_le id pool.workers

theorem left_take (h : pool.Sound) (htake : pool.take? i = some (task, pool')) :
    pool'.left held = pool.left held := by
  have hrunning := running_take htake
  have hroom := (h.take htake).running_le
  have hle : pool.running.countP held ≤ pool.running.length := List.countP_le_length
  rw [hrunning.length_eq, List.length_cons] at hroom
  obtain ⟨-, queue, hqueue, hpool⟩ := of_take? htake
  have hactive : pool'.active = pool.active := by rw [hpool]
  have hrest : pool'.queue = queue := by rw [hpool]
  -- the worker that takes the task is not held up yet
  obtain ⟨n, hfree⟩ : ∃ n, pool.free held = n + 1 :=
    ⟨pool.free held - 1, by unfold free; omega⟩
  rw [left, left, hfree, hqueue, hrest, leftOf]
  congr 1
  unfold free at hfree ⊢
  rw [hrunning.countP_eq, List.countP_cons, hactive]
  split <;> omega

end Sound

theorem left_exit (hexit : pool.exit? i = some pool') : pool'.left held = pool.left held := by
  obtain ⟨-, hqueue, rfl⟩ := of_exit? hexit
  rw [left, left, hqueue, leftOf_nil, leftOf_nil]

theorem left_finish (hfinish : pool.finish? i = some (task, pool')) (htask : held task = false) :
    pool'.left held = pool.left held := by
  have hrunning := running_finish hfinish
  obtain ⟨-, hpool⟩ := of_finish? hfinish
  have hactive : pool'.active = pool.active := by rw [hpool]
  have hqueue : pool'.queue = pool.queue := by rw [hpool]
  have hcount : pool.running.countP held = pool'.running.countP held := by
    rw [hrunning.countP_eq, List.countP_cons, htask]
    rfl
  rw [left, left, free, free, hactive, hqueue, hcount]

/-- In a blocked pool as many tasks run as there are workers, all of them held up. -/
theorem Blocked.running (h : pool.Blocked held) :
    pool.running.length = pool.workers.length ∧ ∀ task ∈ pool.running, held task = true := by
  constructor
  · rw [Pool.running, List.length_filterMap_eq_countP, List.countP_eq_length]
    intro worker hworker
    obtain ⟨task, rfl, -⟩ := h worker hworker
    rfl
  · intro task htask
    obtain ⟨worker, hworker, rfl⟩ := List.mem_filterMap.1 htask
    obtain ⟨other, hother, hheld⟩ := h _ hworker
    cases hother
    exact hheld

theorem Blocked.left_eq (h : pool.Blocked held) (hsound : pool.Sound) :
    pool.left held = pool.queue := by
  obtain ⟨hlength, hheld⟩ := h.running
  have hnone : pool.free held = 0 := by
    rw [free, List.countP_eq_length.2 hheld, hlength, hsound.active, Nat.sub_self]
  rw [left, hnone, leftOf_zero]

section NextMove

variable {workers : List (Option τ)} {m : Move}

theorem go_eq_none_iff {n : Nat} : nextMove?.go held pool workers n = none ↔
    ∀ worker ∈ workers, ∃ task, worker = some task ∧ held task = true := by
  induction workers generalizing n with
  | nil => simp [nextMove?.go]
  | cons worker rest ih =>
    cases worker with
    | none => simp [nextMove?.go]
    | some task =>
      rw [nextMove?.go, List.forall_mem_cons]
      by_cases htask : held task = true
      · rw [if_pos htask, ih]
        simp [htask]
      · rw [if_neg htask]
        simp [htask]

/-- The move that is found is one of a worker that can make it. -/
theorem of_go {n : Nat} (h : nextMove?.go held pool workers n = some m) :
    ∃ i, (workers[i]? = some none ∧
        m = if pool.queue.isEmpty then .exit (n + i) else .take (n + i)) ∨
      ∃ task, workers[i]? = some (some task) ∧ held task = false ∧ m = .work (n + i) := by
  induction workers generalizing n with
  | nil => cases h
  | cons worker rest ih =>
    cases worker with
    | none =>
      rw [nextMove?.go, Option.some.injEq] at h
      exact ⟨0, .inl ⟨rfl, h.symm⟩⟩
    | some task =>
      rw [nextMove?.go] at h
      by_cases htask : held task = true
      · rw [if_pos htask] at h
        obtain ⟨i, hi⟩ := ih h
        rw [Nat.add_assoc, Nat.add_comm 1 i] at hi
        exact ⟨i + 1, hi⟩
      · rw [if_neg htask, Option.some.injEq] at h
        exact ⟨0, .inr ⟨task, rfl, Bool.eq_false_iff.2 htask, h.symm⟩⟩

end NextMove

end Pool

namespace Run

variable {held crashes : τ → Bool} {run next last last' : Run τ} {maxWorkers : Nat}
  {submitted : List τ}

inductive Step (held : τ → Bool) (run : Run τ) : Run τ → Prop
  | move {next : Logged (Run τ)} (crashes : τ → Bool) (m : Pool.Move)
      (hfree : m.Free held run.pool) (hmove : run.move? crashes m = some next) :
      Step held run next.value

structure ComesTo (held : τ → Bool) (run last : Run τ) : Prop where
  moves : Relation.ReflTransGen (Step held) run last
  rest : ∀ next, ¬ Step held last next

theorem Step.weight_lt (h : Step held run next) :
    next.pool.weight (fun _ => 0) < run.pool.weight fun _ => 0 := by
  cases h with
  | move crashes m _ hmove => exact weight_move hmove _

theorem Step.reached (h : Step held run next) (hrun : Reached maxWorkers submitted run) :
    Reached maxWorkers submitted next := by
  cases h with
  | move crashes m _ hmove => exact hrun.move crashes m hmove

section NextMove

theorem exists_step {m : Pool.Move} (h : run.pool.nextMove? held = some m) (crashes : τ → Bool) :
    ∃ next, run.move? crashes m = some next ∧ Step held run next.value := by
  obtain ⟨i, ⟨hworker, rfl⟩ | ⟨task, hworker, htask, rfl⟩⟩ := Pool.of_go h
  · rw [Nat.zero_add]
    cases hqueue : run.pool.queue with
    | nil =>
      obtain ⟨next, hmove⟩ : ∃ next, run.move? crashes (.exit i) = some next :=
        ⟨_, by simp only [move?, Pool.exit?, hworker, hqueue, Option.map_some]; rfl⟩
      exact ⟨next, hmove, .move crashes (.exit i) trivial hmove⟩
    | cons task rest =>
      obtain ⟨next, hmove⟩ : ∃ next, run.move? crashes (.take i) = some next :=
        ⟨_, by simp only [move?, Pool.take?, hworker, hqueue, Option.map_some]; rfl⟩
      exact ⟨next, hmove, .move crashes (.take i) trivial hmove⟩
  · rw [Nat.zero_add]
    obtain ⟨next, hmove⟩ : ∃ next, run.move? crashes (.work i) = some next :=
      ⟨_, by simp only [move?, Pool.finish?, hworker, Option.map_some]; rfl⟩
    have hfree : Pool.Move.Free held run.pool (.work i) := by
      intro other hother
      rw [hworker, Option.some.injEq, Option.some.injEq] at hother
      exact hother ▸ htask
    exact ⟨next, hmove, .move crashes _ hfree hmove⟩

theorem blocked_of_next? (h : run.next? held crashes = none) : run.pool.Blocked held := by
  have hnone : run.pool.nextMove? held = none := by
    refine Option.eq_none_iff_forall_ne_some.2 fun m hm => ?_
    obtain ⟨next, hmove, -⟩ := exists_step hm crashes
    rw [next?, hm, Option.bind_some, hmove] at h
    cases h
  exact Pool.go_eq_none_iff.1 hnone

theorem step_of_next? {next : Logged (Run τ)} (h : run.next? held crashes = some next) :
    Step held run next.value := by
  obtain ⟨m, hm, hmove⟩ := Option.bind_eq_some_iff.1 h
  obtain ⟨other, hother, hstep⟩ := exists_step hm crashes
  rw [hmove, Option.some.injEq] at hother
  exact hother ▸ hstep

/-- No worker can move if and only if every worker runs a held task. -/
theorem rest_iff : (∀ next, ¬ Step held run next) ↔ run.pool.Blocked held := by
  constructor
  · intro hrest
    cases hnext : run.next? held fun _ => false with
    | none => exact blocked_of_next? hnext
    | some next => exact absurd (step_of_next? hnext) (hrest next.value)
  · rintro hblocked _ ⟨crashes, m, hfree, hmove⟩
    obtain ⟨i, task, pool, rfl, htake, -⟩ | ⟨i, pool, rfl, hexit, -⟩ |
      ⟨i, task, pool, rfl, hfinish, -⟩ := of_move? hmove
    · obtain ⟨task, hnone, -⟩ := hblocked _ (List.mem_of_getElem? (Pool.of_take? htake).1)
      cases hnone
    · obtain ⟨task, hnone, -⟩ := hblocked _ (List.mem_of_getElem? (Pool.of_exit? hexit).1)
      cases hnone
    · have hworker := (Pool.of_finish? hfinish).1
      obtain ⟨other, hother, hheld⟩ := hblocked _ (List.mem_of_getElem? hworker)
      cases hother
      rw [hfree task hworker] at hheld
      cases hheld

theorem comesTo_settle (held crashes : τ → Bool) (run : Run τ) :
    ComesTo held run (run.settle held crashes).value := by
  induction run using settle.induct held crashes with
  | case1 run hnone =>
    rw [settle]
    split
    next => exact ⟨.refl, rest_iff.2 (blocked_of_next? hnone)⟩
    next next hnext => rw [hnone] at hnext; cases hnext
  | case2 run next hnext ih =>
    rw [settle]
    split
    next hnone => rw [hnext] at hnone; cases hnone
    next other hother =>
      obtain rfl : next = other := by rw [hnext, Option.some.injEq] at hother; exact hother
      exact ⟨.head (step_of_next? hnext) ih.moves, ih.rest⟩

end NextMove

/-- What a step leaves as it was: what will be left of the queue, the order of all tasks, and the
held ones among those that have ended. And it brings no new task. -/
structure Kept (held : τ → Bool) (run next : Run τ) : Prop where
  left : next.pool.left held = run.pool.left held
  order : next.started ++ next.pool.queue = run.started ++ run.pool.queue
  ended : next.ended.filter held = run.ended.filter held
  tasks : ∀ task ∈ next.pool.tasks, task ∈ run.pool.tasks

theorem Step.kept (h : Step held run next) (hsound : run.pool.Sound) : Kept held run next := by
  obtain ⟨crashes, m, hfree, hmove⟩ := h
  obtain ⟨i, task, pool, -, htake, hnext⟩ | ⟨i, pool, -, hexit, hnext⟩ |
    ⟨i, task, pool, rfl, hfinish, hnext⟩ := of_move? hmove
  · rw [hnext]
    obtain ⟨-, queue, hqueue, hpool⟩ := Pool.of_take? htake
    refine ⟨hsound.left_take htake, ?_, rfl, fun _ => (Pool.tasks_take htake).mem_iff.1⟩
    rw [hpool, hqueue, List.append_assoc, List.singleton_append]
  · rw [hnext]
    obtain ⟨-, -, hpool⟩ := Pool.of_exit? hexit
    refine ⟨Pool.left_exit hexit, by rw [hpool], rfl, fun other hother => ?_⟩
    exact Pool.tasks_exit hexit ▸ hother
  · rw [hnext]
    obtain ⟨hworker, hpool⟩ := Pool.of_finish? hfinish
    have htask : held task = false := hfree task hworker
    refine ⟨Pool.left_finish hfinish htask, by rw [hpool], ?_, fun other hother => ?_⟩
    · rw [List.filter_append, List.filter_cons_of_neg (by simp [htask]), List.filter_nil,
        List.append_nil]
    · exact (Pool.tasks_finish hfinish).mem_iff.2 (List.mem_cons_of_mem task hother)

theorem ComesTo.kept (h : ComesTo held run last) (hrun : Reached maxWorkers submitted run) :
    Reached maxWorkers submitted last ∧ Kept held run last := by
  obtain ⟨hmoves, -⟩ := h
  induction hmoves with
  | refl => exact ⟨hrun, rfl, rfl, rfl, fun _ => id⟩
  | tail _ hstep ih =>
    obtain ⟨hreached, hkept⟩ := ih
    have hnext := hstep.kept hreached.orderly.sound
    exact ⟨hstep.reached hreached, hnext.left.trans hkept.left, hnext.order.trans hkept.order,
      hnext.ended.trans hkept.ended, fun task htask => hkept.tasks task (hnext.tasks task htask)⟩

namespace Orderly

/-- At rest the workers are the held tasks that have started and not ended. -/
theorem active_add_countP (h : Orderly submitted last) (hblocked : last.pool.Blocked held) :
    last.pool.active + (last.ended.filter held).length = last.started.countP held := by
  obtain ⟨hlength, hheld⟩ := hblocked.running
  rw [← h.once.countP_eq, List.countP_append, List.countP_eq_length.2 hheld, hlength,
    h.sound.active, List.countP_eq_length_filter]

/-- At rest all has ended that has started and is not held. -/
theorem ended_perm (h : Orderly submitted last) (hblocked : last.pool.Blocked held) :
    last.ended.Perm (last.ended.filter held ++ last.started.filter fun task => !held task) := by
  obtain ⟨-, hheld⟩ := hblocked.running
  have hnone : (last.pool.running.filter fun task => !held task) = [] := by
    rw [List.filter_eq_nil_iff]
    intro task htask
    simp [hheld task htask]
  have hstarted := h.once.filter fun task => !held task
  rw [List.filter_append, hnone, List.nil_append] at hstarted
  exact (List.filter_append_perm held last.ended).symm.trans (hstarted.append_left _)

theorem isIdle_of_blocked (h : Orderly submitted last) (hblocked : last.pool.Blocked held)
    (hfree : ∀ task ∈ last.pool.tasks, held task = false) : last.pool.isIdle = true := by
  obtain ⟨hlength, hheld⟩ := hblocked.running
  have hrunning : last.pool.running = [] := by
    refine List.eq_nil_iff_forall_not_mem.2 fun task htask => ?_
    have hnot := hfree task (List.mem_append_right _ htask)
    rw [hheld task htask] at hnot
    cases hnot
  have hactive : last.pool.active = 0 := by
    rw [h.sound.active, ← hlength, hrunning, List.length_nil]
  have hqueue : last.pool.queue = [] := by
    by_contra hne
    have := h.sound.manned hne
    omega
  simp [Pool.isIdle, hactive, h.sound.queued, hqueue]

end Orderly

/-- No sequence of moves goes on forever. -/
theorem exists_not_step (held : τ → Bool) (runs : Nat → Run τ) :
    ∃ n, ¬ Step held (runs n) (runs (n + 1)) := by
  by_contra! hsteps
  have hweight : ∀ n, (runs n).pool.weight (fun _ => 0) + n ≤
      (runs 0).pool.weight fun _ => 0 := by
    intro n
    induction n with
    | zero => exact Nat.le_refl _
    | succ n ih =>
      have := (hsteps n).weight_lt
      omega
  have := hweight ((runs 0).pool.weight (fun _ => 0) + 1)
  omega

/-- Moves come to an end, and whichever workers move first, they all end the same way: with as many
workers, the same tasks in the queue, the same tasks started in the same order, and the same tasks
ended. If no task is held that is left to do, the pool is idle in the end and all tasks have
ended. -/
theorem comes_to_one_rest (h : Reached maxWorkers submitted run) (held : τ → Bool) :
    (∀ runs : Nat → Run τ, runs 0 = run → ∃ n, ¬ Step held (runs n) (runs (n + 1))) ∧
    (∀ crashes, ComesTo held run (run.settle held crashes).value) ∧
    (∀ last last', ComesTo held run last → ComesTo held run last' →
      last.pool.active = last'.pool.active ∧ last.pool.queue = last'.pool.queue ∧
        last.started = last'.started ∧ last.ended.Perm last'.ended) ∧
    ((∀ task ∈ run.pool.tasks, held task = false) → ∀ last, ComesTo held run last →
      last.pool.isIdle = true ∧ last.ended.Perm submitted) := by
  refine ⟨fun runs _ => exists_not_step held runs,
    fun crashes => comesTo_settle held crashes run, ?_, ?_⟩
  · intro last last' hlast hlast'
    obtain ⟨hreached, hkept⟩ := hlast.kept h
    obtain ⟨hreached', hkept'⟩ := hlast'.kept h
    have hblocked := rest_iff.1 hlast.rest
    have hblocked' := rest_iff.1 hlast'.rest
    have hqueue : last.pool.queue = last'.pool.queue := by
      rw [← hblocked.left_eq hreached.orderly.sound, ← hblocked'.left_eq hreached'.orderly.sound,
        hkept.left, hkept'.left]
    have hstarted : last.started = last'.started := by
      have horder := hkept.order.trans hkept'.order.symm
      rw [hqueue] at horder
      exact List.append_cancel_right horder
    have hended := hkept.ended.trans hkept'.ended.symm
    refine ⟨?_, hqueue, hstarted, ?_⟩
    · have hactive := hreached.orderly.active_add_countP hblocked
      have hactive' := hreached'.orderly.active_add_countP hblocked'
      rw [hended, hstarted] at hactive
      omega
    · have hperm := hreached.orderly.ended_perm hblocked
      rw [hended, hstarted] at hperm
      exact hperm.trans (hreached'.orderly.ended_perm hblocked').symm
  · intro hfree last hlast
    obtain ⟨hreached, hkept⟩ := hlast.kept h
    have hidle := hreached.orderly.isIdle_of_blocked (rest_iff.1 hlast.rest)
      fun task htask => hfree task (hkept.tasks task htask)
    exact ⟨hidle, hreached.ended_of_isIdle hidle⟩

section Turns

def fiveTasks : Run Nat := [1, 2, 3, 4, 5].foldl submit (new 2)

theorem reached_fiveTasks : Reached 2 [1, 2, 3, 4, 5] fiveTasks :=
  ((((Reached.new.submit 1).submit 2).submit 3).submit 4).submit 5

/-- Of two ways to the end the first has the workers take turns, and the second task ends before the
first; in the other all but the last task is left to one worker. -/
theorem comes_to_one_rest_unlike : ∃ last last' : Run Nat,
    ComesTo (2 < ·) fiveTasks last ∧ ComesTo (2 < ·) fiveTasks last' ∧
    last.pool.workers = [some 4, some 3] ∧ last'.pool.workers = [some 3, some 4] ∧
    last.ended = [2, 1] ∧ last'.ended = [1, 2] ∧ last.pool.queue = [5] ∧
    last.pool.active = last'.pool.active ∧ last.pool.queue = last'.pool.queue ∧
    last.started = last'.started ∧ last.ended.Perm last'.ended ∧
    (fiveTasks.settle (fun _ => false) (· == 1)).value.pool.isIdle = true := by
  let crashes : Nat → Bool := (· == 1)
  have turns : Relation.ReflTransGen (Step (2 < ·)) fiveTasks _ :=
    .head (.move crashes (.take 0) trivial rfl) <|
    .head (.move crashes (.take 1) trivial rfl) <|
    .head (.move crashes (.work 1) (by rintro task ⟨⟩; rfl) rfl) <|
    .head (.move crashes (.take 1) trivial rfl) <|
    .head (.move crashes (.work 0) (by rintro task ⟨⟩; rfl) rfl) <|
    .head (.move crashes (.take 0) trivial rfl) .refl
  have alone : Relation.ReflTransGen (Step (2 < ·)) fiveTasks _ :=
    .head (.move crashes (.take 0) trivial rfl) <|
    .head (.move crashes (.work 0) (by rintro task ⟨⟩; rfl) rfl) <|
    .head (.move crashes (.take 0) trivial rfl) <|
    .head (.move crashes (.work 0) (by rintro task ⟨⟩; rfl) rfl) <|
    .head (.move crashes (.take 0) trivial rfl) <|
    .head (.move crashes (.take 1) trivial rfl) .refl
  have hlast : ComesTo (2 < ·) fiveTasks _ := ⟨turns, rest_iff.2 <|
    List.forall_mem_cons.2 ⟨⟨4, rfl, rfl⟩, List.forall_mem_cons.2 ⟨⟨3, rfl, rfl⟩, nofun⟩⟩⟩
  have hlast' : ComesTo (2 < ·) fiveTasks _ := ⟨alone, rest_iff.2 <|
    List.forall_mem_cons.2 ⟨⟨3, rfl, rfl⟩, List.forall_mem_cons.2 ⟨⟨4, rfl, rfl⟩, nofun⟩⟩⟩
  obtain ⟨-, -, hsame, -⟩ := comes_to_one_rest reached_fiveTasks (2 < ·)
  obtain ⟨-, hsettle, -, hidle⟩ := comes_to_one_rest reached_fiveTasks fun _ => false
  obtain ⟨hactive, hqueue, hstarted, hended⟩ := hsame _ _ hlast hlast'
  exact ⟨_, _, hlast, hlast', rfl, rfl, rfl, rfl, rfl, hactive, hqueue, hstarted, hended,
    (hidle (fun _ _ => rfl) _ (hsettle crashes)).1⟩

end Turns

end Run

end Overlay
