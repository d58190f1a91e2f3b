import Overlay.ClassPath.Basic

/-!
# Scans under way

A scan delivers the events of its walk to the indexer one at a time, and what the indexer asks for
is put into the index. An archive leaves the fallback registry when its scan is through; if the
scan fails or crashes, it stays there.
-/

namespace Overlay.ClassPath

variable {σ δ : Type}

/-- What the end of a scan does to the class path. -/
def conclude (cp : ClassPath σ δ) (scan : Scan σ δ) : Ending → Logged (ClassPath σ δ)
  | .done =>
    ⟨{ cp with fallback := cp.fallback.remove scan.entry.ordinal },
      [.indexed scan.entry.root.name scan.indexer.folders scan.indexer.files]⟩
  | .failed _ => ⟨cp, [.scanFailed scan.entry.root.name]⟩
  | .crashed => ⟨cp, [.scanCrashed]⟩

/-- The state of a scan after a step: still under way, or at its end. -/
inductive Progress (σ δ : Type) where
  | going (scan : Scan σ δ)
  | over (ending : Ending)

def deliver (cp : ClassPath σ δ) (scan : Scan σ δ) :
    Logged (ClassPath σ δ × Progress σ δ) :=
  match scan.rest with
  | [] => pure (cp, .over scan.entry.root.walk.ending)
  | e :: rest => do
    let (answer, s) ←
      Indexing.deliver scan.entry.root.name ⟨cp.index, scan.entry, scan.indexer⟩ e
    let scan := { scan with indexer := s.indexer, rest := rest, calls := scan.calls + 1 }
    let progress := match answer with
      | .error error => .over (.failed error)
      | .ok .stop => .over .done
      | .ok .proceed => .going scan
    pure ({ cp with index := s.index }, progress)

theorem deliver_going {cp : ClassPath σ δ} {scan next : Scan σ δ}
    (h : (cp.deliver scan).value.2 = .going next) : next.rest.length < scan.rest.length := by
  unfold deliver at h
  split at h
  · simp at h
  next e rest hr =>
    simp only [Logged.value_bind, Logged.value_pure] at h
    split at h <;> simp only [Progress.going.injEq, reduceCtorEq] at h
    subst h
    simp [hr]

@[simp] theorem pool_deliver (cp : ClassPath σ δ) (scan : Scan σ δ) :
    (cp.deliver scan).value.1.pool = cp.pool := by
  unfold deliver
  split <;> rfl

@[simp] theorem pool_conclude (cp : ClassPath σ δ) (scan : Scan σ δ) (ending : Ending) :
    (cp.conclude scan ending).value.pool = cp.pool := by
  cases ending <;> rfl

def work (cp : ClassPath σ δ) (i : Nat) (scan : Scan σ δ) : Logged (ClassPath σ δ) := do
  match ← cp.deliver scan with
  | (cp, .going scan) => pure { cp with pool := cp.pool.progress i scan }
  | (cp, .over ending) =>
    let cp ← cp.conclude scan ending
    pure { cp with pool := ((cp.pool.finish? i).map Prod.snd).getD cp.pool }

def move? (cp : ClassPath σ δ) : Pool.Move → Option (Logged (ClassPath σ δ))
  | .take i => (cp.pool.take? i).map fun (_, pool) => pure { cp with pool := pool }
  | .exit i => (cp.pool.exit? i).map fun pool => pure { cp with pool := pool }
  | .work i => match cp.pool.workers[i]? with
    | some (some scan) => some (cp.work i scan)
    | _ => none

def scanCost (scan : Scan σ δ) : Nat := scan.rest.length

theorem weight_work {cp : ClassPath σ δ} {i : Nat} {scan : Scan σ δ}
    (h : cp.pool.workers[i]? = some (some scan)) :
    (cp.work i scan).value.pool.weight scanCost < cp.pool.weight scanCost := by
  simp only [work, Logged.value_bind]
  split
  next cp' next hd =>
    have hp : cp'.pool = cp.pool := by rw [← pool_deliver cp scan, hd]
    simp only [Logged.value_pure, hp]
    exact Pool.weight_progress scanCost h (deliver_going (by rw [hd]))
  next cp' ending hd =>
    have hp : cp'.pool = cp.pool := by rw [← pool_deliver cp scan, hd]
    simp only [Logged.value_bind, Logged.value_pure, pool_conclude, hp]
    obtain ⟨pool, hf⟩ : ∃ pool, cp.pool.finish? i = some (scan, pool) := by
      simp [Pool.finish?, h]
    simp only [hf, Option.map_some, Option.getD_some]
    exact Pool.weight_finish scanCost hf

theorem weight_move {cp : ClassPath σ δ} {m : Pool.Move} {next : Logged (ClassPath σ δ)}
    (h : cp.move? m = some next) : next.value.pool.weight scanCost < cp.pool.weight scanCost := by
  cases m with
  | take i =>
    simp only [move?, Option.map_eq_some_iff, Prod.exists] at h
    obtain ⟨task, pool, h, rfl⟩ := h
    exact Pool.weight_take scanCost h
  | exit i =>
    simp only [move?, Option.map_eq_some_iff] at h
    obtain ⟨pool, h, rfl⟩ := h
    exact Pool.weight_exit scanCost h
  | work i =>
    simp only [move?] at h
    split at h
    next scan hw =>
      obtain rfl : _ = next := by simpa using h
      exact weight_work hw
    next => simp at h

def next? (w : σ) (cp : ClassPath σ δ) : Option (Logged (ClassPath σ δ)) :=
  (cp.pool.nextMove? (Scan.held w)).bind cp.move?

/-- Lets the scans go on until every one of them is held up or through. -/
def settle (w : σ) (cp : ClassPath σ δ) : Logged (ClassPath σ δ) :=
  match _h : cp.next? w with
  | none => pure cp
  | some next =>
    let rest := settle w next.value
    ⟨rest.value, next.events ++ rest.events⟩
termination_by cp.pool.weight scanCost
decreasing_by
  obtain ⟨m, _, hm⟩ := Option.bind_eq_some_iff.1 _h
  exact weight_move hm

end Overlay.ClassPath
