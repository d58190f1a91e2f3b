import Mathlib.Logic.Relation
import Overlay.ClassPath.Resources
import Overlay.ClassPath.Scanning
import Overlay.Proofs.Registration
import Overlay.Proofs.Scan.Delivery
import Overlay.Proofs.Scan.Tasks

/-!
# What a move of a worker does

`ClassPath.Moved` lists everything that one move can do to a class path, in terms of the tasks of
the pool: nothing, an event that its scan answers by proceeding, the end of a scan that leaves the
archive in the fallback registry, and the end of one that takes it out. Lookups change less: they
take warnings and may ask for full logs, `ClassPath.Touched`, and so the class path stays `Alike`.
-/

namespace Overlay

variable {σ δ : Type}

namespace Scan

def response (scan : Scan σ δ) (e : WalkEvent) : Indexer.Response :=
  scan.indexer.step scan.entry.root.name e

def onward (scan : Scan σ δ) (e : WalkEvent) (rest : List WalkEvent) : Scan σ δ :=
  { scan with indexer := (scan.response e).after, rest := rest, calls := scan.calls + 1 }

def located (scan : Scan σ δ) (e : WalkEvent) : List (Found σ δ) :=
  (scan.response e).put?.toList.map fun path => ⟨path, scan.entry⟩

def indexing (scan : Scan σ δ) (e : WalkEvent) (index : Index (Member σ δ)) : Index (Member σ δ) :=
  (Indexing.put? ⟨index, scan.entry, scan.indexer⟩ (scan.response e).put?).value

theorem indexing_of_not_proceed {scan : Scan σ δ} {e : WalkEvent}
    (h : (scan.response e).answer ≠ .ok .proceed) (index : Index (Member σ δ)) :
    scan.indexing e index = index := by
  rw [indexing, response, (Indexer.step_of_not_proceed h).1]
  rfl

end Scan

theorem Index.Holds.indexing {index : Index (Member σ δ)} {log : List (Found σ δ)}
    (h : index.Holds log) (scan : Scan σ δ) (e : WalkEvent) :
    (scan.indexing e index).Holds (log ++ scan.located e) := by
  rw [Scan.indexing, Indexing.put?_eq]
  exact h.putAll _

namespace ClassPath

/-- What one move of a worker can put into the index, and the class path it can lead to. -/
inductive Moved (cp : ClassPath σ δ) : List (Found σ δ) → ClassPath σ δ → Prop where
  /-- A worker takes a task or leaves. -/
  | idle {pool : Pool (Scan σ δ)} (htasks : pool.tasks.Perm cp.pool.tasks) :
      Moved cp [] { cp with pool := pool }
  | advance {scan : Scan σ δ} {others : List (Scan σ δ)} {e : WalkEvent} {rest : List WalkEvent}
      {pool : Pool (Scan σ δ)} (hbefore : cp.pool.tasks.Perm (scan :: others))
      (hrest : scan.rest = e :: rest) (hproceed : (scan.response e).answer = .ok .proceed)
      (hafter : pool.tasks.Perm (scan.onward e rest :: others)) :
      Moved cp (scan.located e) { cp with index := scan.indexing e cp.index, pool := pool }
  /-- A scan fails or crashes, by the end of its walk or because its indexer refuses an event. -/
  | abandon {scan : Scan σ δ} {others : List (Scan σ δ)} {pool : Pool (Scan σ δ)}
      (hbefore : cp.pool.tasks.Perm (scan :: others)) (hafter : pool.tasks.Perm others)
      (hfailed : (scan.rest = [] ∧ scan.entry.root.walk.ending ≠ .done) ∨
        ∃ e rest error, scan.rest = e :: rest ∧ (scan.response e).answer = .error error) :
      Moved cp [] { cp with pool := pool }
  /-- A scan is through, by the end of its walk or because its indexer stops it. -/
  | complete {scan : Scan σ δ} {others : List (Scan σ δ)} {pool : Pool (Scan σ δ)}
      (hbefore : cp.pool.tasks.Perm (scan :: others)) (hafter : pool.tasks.Perm others)
      (hthrough : (scan.rest = [] ∧ scan.entry.root.walk.ending = .done) ∨
        ∃ e rest, scan.rest = e :: rest ∧ (scan.response e).answer = .ok .stop) :
      Moved cp [] { cp with fallback := cp.fallback.remove scan.entry.ordinal, pool := pool }

/-- No move of a worker enters a member into the registry. -/
theorem Moved.fallback_subset {cp cp' : ClassPath σ δ} {new : List (Found σ δ)}
    (h : cp.Moved new cp') : ∀ m ∈ cp'.fallback, m ∈ cp.fallback := by
  cases h with
  | idle htasks => exact fun m hm => hm
  | advance hbefore hrest hproceed hafter => exact fun m hm => hm
  | abandon hbefore hafter => exact fun m hm => hm
  | complete hbefore hafter hthrough => exact fun m hm => (Registry.mem_remove.1 hm).1

theorem Moved.known_eq {cp cp' : ClassPath σ δ} {new : List (Found σ δ)} (h : cp.Moved new cp') :
    cp'.known = cp.known := by
  cases h <;> rfl

theorem deliver_cons (cp : ClassPath σ δ) {scan : Scan σ δ} {e : WalkEvent}
    {rest : List WalkEvent} (hrest : scan.rest = e :: rest) :
    (cp.deliver scan).value = ({ cp with index := scan.indexing e cp.index },
      match (scan.response e).answer with
      | .error error => .over (.failed error)
      | .ok .stop => .over .done
      | .ok .proceed => .going (scan.onward e rest)) := by
  simp only [deliver, hrest, Logged.value_bind, Logged.value_pure]
  rfl

/-- A scan is over with nothing put, or its indexer proceeds and it goes on. -/
theorem deliver_cases (cp : ClassPath σ δ) (scan : Scan σ δ) :
    (∃ ending, (cp.deliver scan).value = (cp, .over ending) ∧
      (ending = .done → (scan.rest = [] ∧ scan.entry.root.walk.ending = .done) ∨
        ∃ e rest, scan.rest = e :: rest ∧ (scan.response e).answer = .ok .stop) ∧
      (ending ≠ .done → (scan.rest = [] ∧ scan.entry.root.walk.ending ≠ .done) ∨
        ∃ e rest error, scan.rest = e :: rest ∧ (scan.response e).answer = .error error)) ∨
    ∃ e rest, scan.rest = e :: rest ∧ (scan.response e).answer = .ok .proceed ∧
      (cp.deliver scan).value =
        ({ cp with index := scan.indexing e cp.index }, .going (scan.onward e rest)) := by
  cases hrest : scan.rest with
  | nil =>
    refine .inl ⟨scan.entry.root.walk.ending, ?_, fun hend => .inl ⟨rfl, hend⟩,
      fun hend => .inl ⟨rfl, hend⟩⟩
    rw [deliver, hrest]
    rfl
  | cons e rest =>
    have hdeliver := deliver_cons cp hrest
    cases hanswer : (scan.response e).answer with
    | error error =>
      rw [hanswer, Scan.indexing_of_not_proceed (by simp [hanswer])] at hdeliver
      exact .inl ⟨.failed error, hdeliver, nofun, fun _ => .inr ⟨e, rest, error, rfl, hanswer⟩⟩
    | ok control =>
      rw [hanswer] at hdeliver
      cases control with
      | stop =>
        rw [Scan.indexing_of_not_proceed (by simp [hanswer])] at hdeliver
        exact .inl ⟨.done, hdeliver, fun _ => .inr ⟨e, rest, rfl, hanswer⟩,
          fun hend => absurd rfl hend⟩
      | proceed => exact .inr ⟨e, rest, rfl, hanswer, hdeliver⟩

theorem work_over {cp : ClassPath σ δ} {i : Nat} {scan : Scan σ δ} {pool : Pool (Scan σ δ)}
    (hfinish : cp.pool.finish? i = some (scan, pool)) {ending : Ending}
    (hover : (cp.deliver scan).value = (cp, .over ending)) :
    (cp.work i scan).value = { (cp.conclude scan ending).value with pool := pool } := by
  simp only [work, Logged.value_bind, hover, Logged.value_pure, pool_conclude, hfinish,
    Option.map_some, Option.getD_some]

theorem work_going {cp : ClassPath σ δ} {i : Nat} {scan next : Scan σ δ}
    {index : Index (Member σ δ)}
    (hgoing : (cp.deliver scan).value = ({ cp with index := index }, .going next)) :
    (cp.work i scan).value = { cp with index := index, pool := cp.pool.progress i next } := by
  simp only [work, Logged.value_bind, hgoing, Logged.value_pure]

theorem moved_conclude {cp : ClassPath σ δ} {scan : Scan σ δ} {others : List (Scan σ δ)}
    {pool : Pool (Scan σ δ)} {ending : Ending} (hbefore : cp.pool.tasks.Perm (scan :: others))
    (hafter : pool.tasks.Perm others)
    (hthrough : ending = .done → (scan.rest = [] ∧ scan.entry.root.walk.ending = .done) ∨
      ∃ e rest, scan.rest = e :: rest ∧ (scan.response e).answer = .ok .stop)
    (hfailed : ending ≠ .done → (scan.rest = [] ∧ scan.entry.root.walk.ending ≠ .done) ∨
      ∃ e rest error, scan.rest = e :: rest ∧ (scan.response e).answer = .error error) :
    cp.Moved [] { (cp.conclude scan ending).value with pool := pool } := by
  cases ending with
  | done => exact .complete hbefore hafter (hthrough rfl)
  | failed error => exact .abandon hbefore hafter (hfailed nofun)
  | crashed => exact .abandon hbefore hafter (hfailed nofun)

theorem moved_work {cp : ClassPath σ δ} {i : Nat} {scan : Scan σ δ}
    (h : cp.pool.workers[i]? = some (some scan)) : ∃ new, cp.Moved new (cp.work i scan).value := by
  rcases cp.deliver_cases scan with ⟨ending, hover, hthrough, hfailed⟩ |
    ⟨e, rest, hrest, hproceed, hgoing⟩
  · obtain ⟨pool, hfinish⟩ : ∃ pool, cp.pool.finish? i = some (scan, pool) := by
      simp [Pool.finish?, h]
    rw [work_over hfinish hover]
    exact ⟨[], moved_conclude (Pool.tasks_finish hfinish) (.refl _) hthrough hfailed⟩
  · obtain ⟨others, hbefore, hafter⟩ := Pool.tasks_progress (scan.onward e rest) h
    rw [work_going hgoing]
    exact ⟨scan.located e, .advance hbefore hrest hproceed hafter⟩

/-- A worker that takes a scan or leaves changes the pool alone; one that has a scan goes on with
it. -/
theorem move?_cases {cp : ClassPath σ δ} {m : Pool.Move} {next : Logged (ClassPath σ δ)}
    (h : cp.move? m = some next) :
    (∃ pool : Pool (Scan σ δ), (∀ i, m ≠ .work i) ∧ pool.tasks.Perm cp.pool.tasks ∧
      next.value = { cp with pool := pool }) ∨
    ∃ i scan, m = .work i ∧ cp.pool.workers[i]? = some (some scan) ∧ next = cp.work i scan := by
  cases m with
  | take i =>
    simp only [move?, Option.map_eq_some_iff, Prod.exists] at h
    obtain ⟨task, pool, h, rfl⟩ := h
    exact .inl ⟨pool, by simp, Pool.tasks_take h, rfl⟩
  | exit i =>
    simp only [move?, Option.map_eq_some_iff] at h
    obtain ⟨pool, h, rfl⟩ := h
    exact .inl ⟨pool, by simp, .of_eq (Pool.tasks_exit h), rfl⟩
  | work i =>
    simp only [move?] at h
    split at h
    next scan hw => exact .inr ⟨i, scan, rfl, hw, (Option.some.inj h).symm⟩
    next => cases h

theorem moved_of_move? {cp : ClassPath σ δ} {m : Pool.Move} {next : Logged (ClassPath σ δ)}
    (h : cp.move? m = some next) : ∃ new, cp.Moved new next.value := by
  rcases move?_cases h with ⟨pool, -, htasks, hvalue⟩ | ⟨i, scan, -, hw, rfl⟩
  · rw [hvalue]
    exact ⟨[], .idle htasks⟩
  · exact moved_work hw

abbrev Scans : ClassPath σ δ → ClassPath σ δ → Prop :=
  Relation.ReflTransGen fun cp cp' => ∃ m next, cp.move? m = some next ∧ next.value = cp'

def moves (cp : ClassPath σ δ) : List Pool.Move → Option (ClassPath σ δ)
  | [] => some cp
  | m :: rest => (cp.move? m).bind fun next => next.value.moves rest

theorem Scans.of_moves {cp cp' : ClassPath σ δ} {ms : List Pool.Move}
    (h : cp.moves ms = some cp') : cp.Scans cp' := by
  induction ms generalizing cp with
  | nil =>
    obtain rfl : cp = cp' := Option.some.inj h
    exact .refl
  | cons m rest ih =>
    obtain ⟨next, hmove, hrest⟩ := Option.bind_eq_some_iff.1 h
    exact .head ⟨m, next, hmove, rfl⟩ (ih hrest)

/-- What a lookup may do to a class path: take a warning, or ask for full logs. -/
inductive Touch (cp : ClassPath σ δ) : ClassPath σ δ → Prop where
  | warn (key : String) : Touch cp { cp with index := cp.index.warn key }
  | detail : Touch cp { cp with fullDetail := true }

abbrev Touched : ClassPath σ δ → ClassPath σ δ → Prop := Relation.ReflTransGen Touch

namespace Touched

variable {cp cp' : ClassPath σ δ} {α β : Type}

theorem andThen {reply : Reply σ δ α} {f : α → ClassPath σ δ → Reply σ δ β}
    (h : cp.Touched reply.after) (hf : ∀ a, reply.after.Touched (f a reply.after).after) :
    cp.Touched (reply.andThen f).after := by
  unfold Reply.andThen
  split
  · exact h
  next a _ => exact h.trans (hf a)

theorem reportAmbiguity (cp : ClassPath σ δ) (key : String) (entry : Option (Entry (Member σ δ))) :
    cp.Touched (cp.reportAmbiguity key entry).value := by
  cases entry with
  | none => exact .refl
  | some e =>
    unfold ClassPath.reportAmbiguity
    dsimp only
    split
    · exact .single (.warn key)
    · exact .refl

theorem find (w : σ) (cp : ClassPath σ δ) (key : String) : cp.Touched (cp.find w key).after := by
  unfold ClassPath.find
  split
  · exact .refl
  next entry _ => exact reportAmbiguity cp key entry

theorem findAll (w : σ) (cp : ClassPath σ δ) (key : String) :
    cp.Touched (cp.findAll w key).after := by
  unfold ClassPath.findAll
  split <;> exact .refl

theorem giveUp {operation key : String} {known : List (Member σ δ)} {shown : α → String}
    {quick slow : α} {again : Reply σ δ α} (h : cp.Touched again.after) :
    cp.Touched (ClassPath.giveUp operation key known shown quick slow again).after :=
  andThen h fun _ => .single .detail

theorem checkedFind (w : σ) (cp : ClassPath σ δ) (known : List (Member σ δ)) (key : String) :
    cp.Touched (cp.checkedFind w known key).after := by
  refine andThen (find w cp key) fun found => ?_
  dsimp only
  split
  · exact .refl
  · exact giveUp (find w _ _)

theorem checkedFindAll (w : σ) (cp : ClassPath σ δ) (known : List (Member σ δ)) (key : String) :
    cp.Touched (cp.checkedFindAll w known key).after := by
  refine andThen (findAll w cp key) fun found => ?_
  dsimp only
  split
  · exact .refl
  · exact giveUp (findAll w _ _)

theorem findResource (w : σ) (cp : ClassPath σ δ) (path : String) :
    cp.Touched (cp.findResource w path).after := by
  unfold ClassPath.findResource
  split
  · exact find w cp _
  next known _ => exact checkedFind w cp known _

theorem allResources (w : σ) (cp : ClassPath σ δ) (path : String) :
    cp.Touched (cp.allResources w path).after := by
  unfold ClassPath.allResources
  split
  · exact findAll w cp _
  next known _ => exact checkedFindAll w cp known _

end Touched

/-- Only the warnings given and the wish for full logs may differ. -/
structure Alike (cp cp' : ClassPath σ δ) : Prop where
  same : cp' = { cp with index := cp'.index, fullDetail := cp'.fullDetail }
  index : ∀ log, cp.index.Holds log → cp'.index.Holds log

namespace Alike

variable {cp cp' cp'' : ClassPath σ δ}

theorem refl (cp : ClassPath σ δ) : cp.Alike cp := ⟨rfl, fun _ h => h⟩

theorem trans (h : cp.Alike cp') (h' : cp'.Alike cp'') : cp.Alike cp'' where
  same := by rw [h'.same, h.same]
  index log hlog := h'.index log (h.index log hlog)

theorem known_eq (h : cp.Alike cp') : cp'.known = cp.known := by
  rw [h.same]

theorem of_touched (h : cp.Touched cp') : cp.Alike cp' := by
  induction h with
  | refl => exact refl cp
  | tail _ hlast ih =>
    refine ih.trans ?_
    cases hlast with
    | warn key => exact ⟨rfl, fun _ h => h.warn key⟩
    | detail => exact ⟨rfl, fun _ h => h⟩

theorem findResource (w : σ) (cp : ClassPath σ δ) (path : String) :
    cp.Alike (cp.findResource w path).after :=
  of_touched (.findResource w cp path)

theorem allResources (w : σ) (cp : ClassPath σ δ) (path : String) :
    cp.Alike (cp.allResources w path).after :=
  of_touched (.allResources w cp path)

end Alike

end ClassPath

end Overlay
