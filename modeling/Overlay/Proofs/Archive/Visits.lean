import Overlay.Proofs.Archive.Scan
import Overlay.Proofs.Scan.Outcome

/-!
# Visits that are cut short

The walk of an archive is a tour of what stands in its map, `ArchiveTree.Tour`: every directory that
is entered is left again, and files and directories are met once each, in the order of their names.
A visitor that decides from the calls it has received gets this walk up to the first call that it
does not answer by proceeding, and nothing after that call: `ArchiveTree.visit_cut`.
-/

namespace Overlay

namespace WalkEvent

def isFile : WalkEvent → Bool
  | file _ => true
  | enter _ | leave => false

end WalkEvent

def Ending.ofAnswer : Except IoError Control → Ending
  | .ok _ => .done
  | .error error => .failed error

/-- A visitor that answers from all the calls it has received, the present one being the last. -/
def Visitor.recalling (answer : List WalkEvent → Except IoError Control) :
    Visitor (List WalkEvent) := fun calls e => (answer (calls ++ [e]), calls ++ [e])

namespace Walk

def places (dirs : List EntryPath) : List WalkEvent → List (EntryPath × Bool)
  | [] => []
  | e :: rest =>
    (e.path? dirs).toList.map (fun path => (path, e.isFile)) ++ places (e.opened dirs) rest

/-- How many directories are open after some events, if none is left that is not open. -/
def depth? : Nat → List WalkEvent → Option Nat
  | depth, [] => some depth
  | depth, .enter _ :: rest => depth? (depth + 1) rest
  | depth, .file _ :: rest => depth? depth rest
  | 0, .leave :: _ => none
  | depth + 1, .leave :: rest => depth? depth rest

section Recalling

variable {answer : List WalkEvent → Except IoError Control} {ending : Ending}
  {events before later calls : List WalkEvent}

theorem resume_of_not_proceed {ω : Type} {visitor : Visitor ω} {a : Except IoError Control}
    (h : a ≠ .ok .proceed) (s : ω) : resume visitor ending later (a, s) = (.ofAnswer a, s) := by
  cases a with
  | error error => rfl
  | ok control =>
    cases control with
    | proceed => exact absurd rfl h
    | stop => rfl

/-- As long as a visitor proceeds, it has received the events so far. -/
theorem playFrom_append_of_proceed
    (h : ∀ j < before.length, answer (calls ++ before.take (j + 1)) = .ok .proceed) :
    playFrom (.recalling answer) ending (before ++ later) calls =
      playFrom (.recalling answer) ending later (calls ++ before) := by
  induction before generalizing calls with
  | nil => rw [List.nil_append, List.append_nil]
  | cons e rest ih =>
    have hassoc : ∀ l, calls ++ [e] ++ l = calls ++ e :: l := fun l => by
      rw [List.append_assoc, List.singleton_append]
    have hrest : ∀ j < rest.length, answer (calls ++ [e] ++ rest.take (j + 1)) = .ok .proceed := by
      intro j hj
      rw [hassoc, ← List.take_succ_cons]
      exact h (j + 1) (Nat.succ_lt_succ hj)
    have hfirst : Visitor.recalling answer calls e = (.ok .proceed, calls ++ [e]) :=
      Prod.ext (h 0 (Nat.succ_pos _)) rfl
    rw [List.cons_append, playFrom_cons, hfirst, ← hassoc rest]
    exact ih hrest

/-- The call that stops a visitor is the last that it receives. -/
theorem playFrom_of_stop {k : Nat} (hk : k < events.length)
    (hbefore : ∀ j < k, answer (events.take (j + 1)) = .ok .proceed)
    (hstop : answer (events.take (k + 1)) ≠ .ok .proceed) :
    playFrom (.recalling answer) ending events [] =
      (.ofAnswer (answer (events.take (k + 1))), events.take (k + 1)) := by
  have hproceed : ∀ j < (events.take k).length,
      answer ([] ++ (events.take k).take (j + 1)) = .ok .proceed := by
    intro j hj
    have hjk : j < k := by rw [List.length_take] at hj; omega
    rw [List.nil_append, List.take_take, Nat.min_eq_left hjk]
    exact hbefore j hjk
  have hcalls : events.take k ++ [events[k]] = events.take (k + 1) :=
    (List.take_succ_eq_append_getElem hk).symm
  calc playFrom (.recalling answer) ending events []
      = playFrom (.recalling answer) ending
          (events.take k ++ events[k] :: events.drop (k + 1)) [] := by
        rw [← List.drop_eq_getElem_cons hk, List.take_append_drop]
    _ = playFrom (.recalling answer) ending (events[k] :: events.drop (k + 1)) (events.take k) :=
        playFrom_append_of_proceed hproceed
    _ = resume (.recalling answer) ending (events.drop (k + 1))
          (answer (events.take (k + 1)), events.take (k + 1)) := by
        rw [playFrom_cons, Visitor.recalling, hcalls]
    _ = (.ofAnswer (answer (events.take (k + 1))), events.take (k + 1)) :=
        resume_of_not_proceed hstop _

/-- A visitor that always proceeds receives everything. -/
theorem playFrom_of_proceed
    (h : ∀ j < events.length, answer (events.take (j + 1)) = .ok .proceed) :
    playFrom (.recalling answer) ending events [] = (ending, events) := by
  have hall : playFrom (.recalling answer) ending (events ++ []) [] =
      playFrom (.recalling answer) ending [] ([] ++ events) :=
    playFrom_append_of_proceed h
  rw [List.append_nil] at hall
  exact hall

end Recalling

end Walk

namespace Forest

theorem depth?_events (forest : Forest) (depth : Nat) (later : List WalkEvent) :
    Walk.depth? depth (forest.events ++ later) = Walk.depth? depth later := by
  induction forest generalizing depth later with
  | nil => rfl
  | file name rest ih =>
    rw [events, List.cons_append, Walk.depth?, ih]
  | directory name inside rest ihInside ih =>
    rw [events, List.cons_append, List.append_assoc, List.cons_append, Walk.depth?, ihInside,
      Walk.depth?, ih]

theorem places_events (forest : Forest) (dir : EntryPath) (outer : List EntryPath)
    (later : List WalkEvent) :
    Walk.places (dir :: outer) (forest.events ++ later) =
      (forest.items dir).map (fun node => (node.1, node.2.isFile)) ++
        Walk.places (dir :: outer) later := by
  induction forest generalizing dir outer later with
  | nil => rfl
  | file name rest ih =>
    rw [events, List.cons_append, Walk.places, items, List.map_cons, List.cons_append]
    exact congrArg _ (ih dir outer later)
  | directory name inside rest ihInside ih =>
    have hleave : Walk.places (dir.child name :: dir :: outer) (.leave :: (rest.events ++ later)) =
        Walk.places (dir :: outer) (rest.events ++ later) := rfl
    rw [events, List.cons_append, List.append_assoc, List.cons_append, Walk.places, items,
      List.map_cons, List.map_append, List.cons_append, List.append_assoc, ← ih, ← hleave]
    exact congrArg _ (ihInside (dir.child name) (dir :: outer) _)

end Forest

namespace ArchiveTree

variable {tree : ArchiveTree}

structure Tour (tree : ArchiveTree) (events : List WalkEvent) : Prop where
  enclosed : ∃ inside, events = .enter none :: (inside ++ [.leave]) ∧ Walk.depth? 0 inside = some 0
  ordered : (Walk.places [] events).Pairwise fun a b => a.1.names < b.1.names
  complete : ∀ path isFile, (path, isFile) ∈ Walk.places [] events ↔
    ∃ entry, tree.entries[path.render]? = some entry ∧ entry.path = path ∧
      entry.backing.isSome = isFile

theorem places_walk (tree : ArchiveTree) : Walk.places [] tree.events =
    ((Forest.Item.directory tree.forest).items .root).map fun node => (node.1, node.2.isFile) := by
  have hinside : Walk.places [.root] (tree.forest.events ++ [.leave]) =
      (tree.forest.items .root).map fun node => (node.1, node.2.isFile) :=
    (tree.forest.places_events .root [] [.leave]).trans (List.append_nil _)
  exact congrArg _ hinside

theorem Linked.tour (h : tree.Linked .root) : tree.Tour tree.events where
  enclosed := by
    have hdepth : Walk.depth? 0 (tree.forest.events ++ []) = some 0 :=
      tree.forest.depth?_events 0 []
    rw [List.append_nil] at hdepth
    exact ⟨_, rfl, hdepth⟩
  ordered := by
    rw [places_walk, List.pairwise_map]
    exact Forest.Item.pairwise_directory (h.proper.pairwise_items .root)
  complete path isFile := by
    have hproper : (Forest.Item.directory tree.forest).Proper := h.proper
    rw [places_walk, ← path.root_under_names, List.mem_map]
    constructor
    · rintro ⟨⟨other, item⟩, hmem, heq⟩
      obtain ⟨rfl, rfl⟩ := Prod.mk.inj heq
      obtain ⟨backing, hget, hkind⟩ := h.exists_entry (hproper.mem_items.1 hmem)
      exact ⟨_, hget, rfl, hkind⟩
    · rintro ⟨entry, hget, hpath, rfl⟩
      obtain ⟨item, hat, hkind⟩ := h.exists_item hget
      rw [hpath, EntryPath.names_under, EntryPath.names, List.nil_append] at hat
      exact ⟨(_, item), hproper.mem_items.2 hat, Prod.ext rfl hkind⟩

/-- A visitor receives the walk of an archive up to the first call that it does not answer by
proceeding, and the visit ends as that answer says. -/
theorem visit_cut (archive : String) (names : List String)
    (answer : List WalkEvent → Except IoError Control) :
    let tree := (ofNames archive names).value
    tree.Tour tree.events ∧
    (∀ k < tree.events.length,
      (∀ j < k, answer (tree.events.take (j + 1)) = .ok .proceed) →
      answer (tree.events.take (k + 1)) ≠ .ok .proceed →
      tree.visit (.recalling answer) [] =
        (.ofAnswer (answer (tree.events.take (k + 1))), tree.events.take (k + 1))) ∧
    ((∀ j < tree.events.length, answer (tree.events.take (j + 1)) = .ok .proceed) →
      tree.visit (.recalling answer) [] = (.done, tree.events)) := by
  intro tree
  refine ⟨(linked_ofNames archive names).tour, fun k hk hbefore hstop => ?_, fun hall => ?_⟩
  · rw [visit_eq_play]
    exact Walk.playFrom_of_stop hk hbefore hstop
  · rw [visit_eq_play]
    exact Walk.playFrom_of_proceed hall

/-- A visitor that fails inside a directory hears neither of its end nor of what comes behind it. -/
theorem visit_cut_inside :
    let answer : List WalkEvent → Except IoError Control := fun calls =>
      if calls.length = 3 then .error (.outsideRoot "jar") else .ok .proceed
    let tree := (ofNames "jar" ["c", "a/b", "a/d"]).value
    tree.events =
      [.enter none, .enter (some "a"), .file "b", .file "d", .leave, .file "c", .leave] ∧
      tree.visit (.recalling answer) [] =
        (.failed (.outsideRoot "jar"), [.enter none, .enter (some "a"), .file "b"]) := by
  intro answer tree
  have hevents : tree.events =
      [.enter none, .enter (some "a"), .file "b", .file "d", .leave, .file "c", .leave] := by decide
  obtain ⟨-, hcut, -⟩ := visit_cut "jar" ["c", "a/b", "a/d"] answer
  have hvisit := hcut 2
  rw [hevents] at hvisit
  exact ⟨hevents, hvisit (by decide) (by decide) (by decide)⟩

end ArchiveTree

end Overlay
