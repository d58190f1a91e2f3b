/-!
# The scan pool

Tasks wait in a queue for one of a few workers. A worker is either looking for a task or running
one. A submitted task starts a worker if there is room for one and the workers alive are fewer
than the tasks waiting; a worker that finds the queue empty is gone.
-/

namespace Overlay

structure Pool (τ : Type) where
  maxWorkers : Nat
  active : Nat
  /-- The number of tasks no worker has taken. -/
  queued : Nat
  queue : List τ
  /-- Each worker alive with the task it runs, if it runs one. -/
  workers : List (Option τ)

namespace Pool

variable {τ : Type}

def new (maxWorkers : Nat) : Pool τ := ⟨max maxWorkers 1, 0, 0, [], []⟩

def submit (pool : Pool τ) (task : τ) : Pool τ :=
  let pool := { pool with queue := pool.queue ++ [task], queued := pool.queued + 1 }
  if pool.active < pool.maxWorkers ∧ pool.active < pool.queued then
    { pool with active := pool.active + 1, workers := pool.workers ++ [none] }
  else pool

def isIdle (pool : Pool τ) : Bool := pool.active == 0 && pool.queued == 0

/-- A worker that is looking for a task takes the first one of the queue. -/
def take? (pool : Pool τ) (i : Nat) : Option (τ × Pool τ) :=
  match pool.workers[i]?, pool.queue with
  | some none, task :: queue =>
    some (task, { pool with
      queue := queue, queued := pool.queued - 1, workers := pool.workers.set i (some task) })
  | _, _ => none

/-- A worker that is looking for a task is gone if there is none. -/
def exit? (pool : Pool τ) (i : Nat) : Option (Pool τ) :=
  match pool.workers[i]?, pool.queue with
  | some none, [] =>
    some { pool with active := pool.active - 1, workers := pool.workers.eraseIdx i }
  | _, _ => none

/-- The task of a worker ends, and the worker looks for another one. -/
def finish? (pool : Pool τ) (i : Nat) : Option (τ × Pool τ) :=
  match pool.workers[i]? with
  | some (some task) => some (task, { pool with workers := pool.workers.set i none })
  | _ => none

def progress (pool : Pool τ) (i : Nat) (task : τ) : Pool τ :=
  { pool with workers := pool.workers.set i (some task) }

def shown (pool : Pool τ) : String :=
  "ScanScheduler \x7b max_workers: " ++ Nat.repr pool.maxWorkers ++ ", active: " ++
    Nat.repr pool.active ++ ", queued: " ++ Nat.repr pool.queued ++ " \x7d"

inductive Move where
  | take (i : Nat)
  | exit (i : Nat)
  | work (i : Nat)
deriving DecidableEq

/-- The next move of the first worker that is not held up by its task. -/
def nextMove? (held : τ → Bool) (pool : Pool τ) : Option Move :=
  go pool.workers 0
where
  go : List (Option τ) → Nat → Option Move
    | [], _ => none
    | none :: _, i => some (if pool.queue.isEmpty then .exit i else .take i)
    | some task :: rest, i => if held task then go rest (i + 1) else some (.work i)

/-- How much a worker has left to do when a task takes `cost` steps of its own. -/
def load (cost : τ → Nat) : Option τ → Nat
  | none => 1
  | some task => cost task + 2

/-- What a function gives for the members of a list, in all. -/
def total {α : Type} (f : α → Nat) : List α → Nat
  | [] => 0
  | a :: l => f a + total f l

def weight (cost : τ → Nat) (pool : Pool τ) : Nat :=
  total (fun task => cost task + 3) pool.queue + total (load cost) pool.workers

theorem total_set {α : Type} (f : α → Nat) (b : α) :
    ∀ (l : List α) (i : Nat) (a : α), l[i]? = some a →
      total f (l.set i b) + f a = total f l + f b
  | [], _, _, h => by simp at h
  | x :: l, 0, a, h => by
    obtain rfl : x = a := by simpa using h
    simp only [List.set_cons_zero, total]; omega
  | x :: l, i + 1, a, h => by
    have := total_set f b l i a (by simpa using h)
    simp only [List.set_cons_succ, total]; omega

theorem total_eraseIdx {α : Type} (f : α → Nat) :
    ∀ (l : List α) (i : Nat) (a : α), l[i]? = some a →
      total f (l.eraseIdx i) + f a = total f l
  | [], _, _, h => by simp at h
  | x :: l, 0, a, h => by
    obtain rfl : x = a := by simpa using h
    simp only [List.eraseIdx_zero, List.tail_cons, total]; omega
  | x :: l, i + 1, a, h => by
    have := total_eraseIdx f l i a (by simpa using h)
    simp only [List.eraseIdx_cons_succ, total]; omega

theorem weight_take (cost : τ → Nat) {pool pool' : Pool τ} {i : Nat} {task : τ}
    (h : pool.take? i = some (task, pool')) : pool'.weight cost < pool.weight cost := by
  unfold take? at h
  split at h
  next first queue hw hq =>
    simp only [Option.some.injEq, Prod.mk.injEq] at h
    obtain ⟨rfl, rfl⟩ := h
    have := total_set (load cost) (some first) pool.workers i none hw
    simp only [weight, load, hq, total] at this ⊢; omega
  next => simp at h

theorem weight_exit (cost : τ → Nat) {pool pool' : Pool τ} {i : Nat}
    (h : pool.exit? i = some pool') : pool'.weight cost < pool.weight cost := by
  unfold exit? at h
  split at h
  next hw hq =>
    simp only [Option.some.injEq] at h
    subst h
    have := total_eraseIdx (load cost) pool.workers i none hw
    simp only [weight, load, hq] at this ⊢; omega
  next => simp at h

theorem weight_finish (cost : τ → Nat) {pool pool' : Pool τ} {i : Nat} {task : τ}
    (h : pool.finish? i = some (task, pool')) : pool'.weight cost < pool.weight cost := by
  unfold finish? at h
  split at h
  next running hw =>
    simp only [Option.some.injEq, Prod.mk.injEq] at h
    obtain ⟨rfl, rfl⟩ := h
    have := total_set (load cost) none pool.workers i _ hw
    simp only [weight, load] at this ⊢; omega
  next => simp at h

theorem weight_progress (cost : τ → Nat) {pool : Pool τ} {i : Nat} {task task' : τ}
    (h : pool.workers[i]? = some (some task)) (hc : cost task' < cost task) :
    (pool.progress i task').weight cost < pool.weight cost := by
  have := total_set (load cost) (some task') pool.workers i _ h
  simp only [weight, progress, load] at this ⊢; omega

end Pool

end Overlay
