import Overlay.Event
import Overlay.Scan.Pool

/-!
# Runs of a scan pool

A run is a pool together with the tasks that were started and those that came to their end, each
in that order. `Run.settle` lets the workers move until every one of them is held up by its task.
-/

namespace Overlay

structure Run (τ : Type) where
  pool : Pool τ
  started : List τ := []
  ended : List τ := []

namespace Run

variable {τ : Type}

def new (maxWorkers : Nat) : Run τ := { pool := .new maxWorkers }

def submit (run : Run τ) (task : τ) : Run τ := { run with pool := run.pool.submit task }

/-- One move of a worker. A task that crashes is reported, and its worker goes on. -/
def move? (crashes : τ → Bool) (run : Run τ) : Pool.Move → Option (Logged (Run τ))
  | .take i => (run.pool.take? i).map fun (task, pool) =>
    pure { run with pool := pool, started := run.started ++ [task] }
  | .exit i => (run.pool.exit? i).map fun pool => pure { run with pool := pool }
  | .work i => (run.pool.finish? i).map fun (task, pool) =>
    ⟨{ run with pool := pool, ended := run.ended ++ [task] },
      if crashes task then [.scanCrashed] else []⟩

theorem weight_move {crashes : τ → Bool} {run : Run τ} {m : Pool.Move} {next : Logged (Run τ)}
    (h : run.move? crashes m = some next) (cost : τ → Nat) :
    next.value.pool.weight cost < run.pool.weight cost := by
  cases m <;> simp only [move?, Option.map_eq_some_iff, Prod.exists] at h
  · obtain ⟨task, pool, h, rfl⟩ := h
    exact Pool.weight_take cost h
  · obtain ⟨pool, h, rfl⟩ := h
    exact Pool.weight_exit cost h
  · obtain ⟨task, pool, h, rfl⟩ := h
    exact Pool.weight_finish cost h

def next? (held crashes : τ → Bool) (run : Run τ) : Option (Logged (Run τ)) :=
  (run.pool.nextMove? held).bind (run.move? crashes)

def settle (held crashes : τ → Bool) (run : Run τ) : Logged (Run τ) :=
  match _h : run.next? held crashes with
  | none => pure run
  | some next =>
    let rest := settle held crashes next.value
    ⟨rest.value, next.events ++ rest.events⟩
termination_by run.pool.weight fun _ => 0
decreasing_by
  obtain ⟨m, _, hm⟩ := Option.bind_eq_some_iff.1 _h
  exact weight_move hm _

end Run

end Overlay
