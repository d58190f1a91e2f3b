import Overlay.Proofs.Path.Rendering
import Overlay.Proofs.Scan.Traversal

/-!
# What comes of a walk

A walk names paths, whoever listens: `Walk.named`. An indexer puts those that it hears until it
refuses an event or stops at a root directory that is presented again, `Indexer.puts`, and so the
walk ends as `Indexer.ending` says. As far as an indexer follows a walk it puts what the walk names:
`Indexer.Follows.named`.
-/

namespace Overlay

namespace WalkEvent

def path? (dirs : List EntryPath) : WalkEvent → Option EntryPath
  | enter none => some .root
  | enter (some name) | file name => dirs.head?.map fun dir => dir.child name
  | leave => none

def opened (dirs : List EntryPath) (e : WalkEvent) : List EntryPath :=
  match e with
  | enter _ => (e.path? dirs).toList ++ dirs
  | file _ => dirs
  | leave => dirs.tail

def Plain : WalkEvent → Prop
  | enter (some name) | file name => name ≠ "" ∧ '/' ∉ name.toList
  | enter none | leave => True

instance : DecidablePred Plain
  | enter (some name) | file name => inferInstanceAs (Decidable (name ≠ "" ∧ '/' ∉ name.toList))
  | enter none | leave => .isTrue trivial

namespace Plain

variable {e : WalkEvent} {dirs : List EntryPath}

theorem path? (h : e.Plain) (hdirs : ∀ dir ∈ dirs, dir.Plain) :
    ∀ path ∈ e.path? dirs, path.Plain := by
  have hchild : ∀ name : String, name ≠ "" ∧ '/' ∉ name.toList →
      ∀ path ∈ dirs.head?.map fun dir => dir.child name, path.Plain := by
    intro name hname path hpath
    obtain ⟨dir, hdir, rfl⟩ := Option.map_eq_some_iff.1 hpath
    exact EntryPath.plain_child.2 ⟨hdirs dir (List.mem_of_head? hdir), hname⟩
  cases e with
  | enter name =>
    cases name with
    | none =>
      rintro path ⟨⟩
      exact nofun
    | some name => exact hchild name h
  | file name => exact hchild name h
  | leave => exact nofun

theorem opened (h : e.Plain) (hdirs : ∀ dir ∈ dirs, dir.Plain) :
    ∀ dir ∈ e.opened dirs, dir.Plain := by
  cases e with
  | enter name =>
    intro dir hdir
    rcases List.mem_append.1 hdir with hnew | hold
    · exact h.path? hdirs dir (Option.mem_toList.1 hnew)
    · exact hdirs dir hold
  | file name => exact hdirs
  | leave => exact fun dir hdir => hdirs dir (List.mem_of_mem_tail hdir)

end Plain

end WalkEvent

namespace Walk

def named (dirs : List EntryPath) : List WalkEvent → List EntryPath
  | [] => []
  | e :: rest => (e.path? dirs).toList ++ named (e.opened dirs) rest

def opened (dirs : List EntryPath) (events : List WalkEvent) : List EntryPath :=
  events.foldl WalkEvent.opened dirs

end Walk

namespace Indexer

variable {root : String} {ix mid : Indexer} {e : WalkEvent} {before rest : List WalkEvent}
  {paths : List EntryPath}

/-- The paths that an indexer puts during a walk, until an answer ends the walk. -/
def puts (root : String) (ix : Indexer) : List WalkEvent → List EntryPath
  | [] => []
  | e :: rest =>
    match (ix.step root e).answer with
    | .ok .proceed => (ix.step root e).put?.toList ++ (ix.step root e).after.puts root rest
    | .ok .stop | .error _ => []

def ending (root : String) (last : Ending) (ix : Indexer) : List WalkEvent → Ending
  | [] => last
  | e :: rest =>
    match (ix.step root e).answer with
    | .ok .proceed => (ix.step root e).after.ending root last rest
    | .ok .stop => .done
    | .error error => .failed error

theorem puts_cons (h : (ix.step root e).answer = .ok .proceed) (rest : List WalkEvent) :
    ix.puts root (e :: rest) =
      (ix.step root e).put?.toList ++ (ix.step root e).after.puts root rest := by
  rw [puts, h]

theorem puts_of_not_proceed (h : (ix.step root e).answer ≠ .ok .proceed) (rest : List WalkEvent) :
    ix.puts root (e :: rest) = [] := by
  rw [puts]
  split
  next hproceed => exact absurd hproceed h
  all_goals rfl

theorem ending_cons (h : (ix.step root e).answer = .ok .proceed) (last : Ending)
    (rest : List WalkEvent) :
    ix.ending root last (e :: rest) = (ix.step root e).after.ending root last rest := by
  rw [ending, h]

namespace Follows

theorem ending_append (h : Follows root ix before paths mid) (last : Ending)
    (rest : List WalkEvent) :
    ix.ending root last (before ++ rest) = mid.ending root last rest := by
  induction h with
  | nil ix => rfl
  | cons hanswer _ ih => rw [List.cons_append, ending_cons hanswer, ih]

end Follows

/-- An indexer that proceeds puts what the event names, and has the same directories open. -/
theorem step_of_proceed (h : (ix.step root e).answer = .ok .proceed) :
    (ix.step root e).put? = e.path? ix.stack ∧
      (ix.step root e).after.stack = e.opened ix.stack := by
  have hstep := stepped root ix e
  generalize ix.step root e = response at hstep h ⊢
  cases hstep with
  | begin | leave => exact ⟨rfl, rfl⟩
  | enter hstack | file hstack =>
    simp [WalkEvent.path?, WalkEvent.opened, enter, hstack]
  | stop | nested | outside => cases h

/-- The one thing that stops an indexer is the root directory right inside the root directory. -/
theorem answer_eq_stop_iff :
    (ix.step root e).answer = .ok .stop ↔ e = .enter none ∧ ix.stack.length = 1 := by
  have hstep := stepped root ix e
  generalize ix.step root e = response at hstep ⊢
  cases hstep with
  | begin hstack | nested hstack => simp [hstack, enter, refuse]
  | stop hstack => simp [hstack]
  | outside hnamed =>
    rcases hnamed with rfl | rfl <;> simp [refuse]
  | enter | file | leave => simp [enter]

/-- As far as an indexer follows a walk, it puts what the walk names. -/
theorem Follows.named (h : Follows root ix before paths mid) :
    paths = Walk.named ix.stack before ∧ mid.stack = Walk.opened ix.stack before := by
  induction h with
  | nil ix => exact ⟨rfl, rfl⟩
  | cons hanswer _ ih =>
    obtain ⟨hput, hstack⟩ := step_of_proceed hanswer
    obtain ⟨hpaths, hopened⟩ := ih
    rw [hstack] at hpaths hopened
    exact ⟨by rw [hpaths, hput]; rfl, hopened⟩

theorem plain_puts (hstack : ∀ path ∈ ix.stack, path.Plain) {events : List WalkEvent}
    (hevents : ∀ e ∈ events, e.Plain) : ∀ path ∈ ix.puts root events, path.Plain := by
  induction events generalizing ix with
  | nil => exact nofun
  | cons e rest ih =>
    by_cases hproceed : (ix.step root e).answer = .ok .proceed
    · obtain ⟨he, hrest⟩ := List.forall_mem_cons.1 hevents
      obtain ⟨hput, hopened⟩ := step_of_proceed hproceed
      intro path hpath
      rw [puts_cons hproceed, hput] at hpath
      rcases List.mem_append.1 hpath with hfirst | hlater
      · exact he.path? hstack path (Option.mem_toList.1 hfirst)
      · exact ih (hopened ▸ he.opened hstack) hrest path hlater
    · rw [puts_of_not_proceed hproceed]
      exact nofun

end Indexer

end Overlay
