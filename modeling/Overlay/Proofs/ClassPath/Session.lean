import Mathlib.Logic.Relation
import Overlay.ClassPath.Register
import Overlay.Proofs.ClassPath.Moves
import Overlay.Proofs.Root.Contract

/-!
# Sessions of a class path

A session is a class path in its world, with what was added to it so far. Its steps are those that
can come in any order: roots are added, one action at a time; workers move; lookups are made; the
world changes. `Reachable` are the sessions that such steps lead to while the roots keep to a
contract.

`constituents_eq` says what the members are: the leaves of the roots that were added, in depth-first
order, each with the metadata its root came with.
-/

namespace Overlay

variable {σ δ : Type}

structure Session (σ δ : Type) where
  world : σ
  cp : ClassPath σ δ
  /-- The roots that were added, with the metadata of each. -/
  added : List (RootTree σ × Option δ) := []
  /-- The members there are, in the order of their ordinals. -/
  members : List (Member σ δ) := []
  /-- What is left to do for the last member. -/
  todo : List (Action σ δ) := []
  /-- What is left of the root being added, and the metadata it came with. -/
  coming : List (RootTree σ) := []
  data : Option δ := none

namespace Session

def start (config : Config) (w : σ) : Session σ δ := { world := w, cp := .new config }

/-- Makes a root the next member. What there is to do for it is left to be done. -/
def enroll (s : Session σ δ) (root : Root σ) (rest : List (RootTree σ)) : Session σ δ :=
  let (entry, cp) := s.cp.enroll root s.data
  { s with
    cp := cp
    members := s.members ++ [entry]
    todo := ClassPath.publish s.world cp.config entry ++ [.remember entry]
    coming := rest }

inductive Step (c : Contract σ) : Session σ δ → Session σ δ → Prop where
  | add {s : Session σ δ} (tree : RootTree σ) (data : Option δ) (hcoming : s.coming = [])
      (htodo : s.todo = []) :
      Step c s { s with added := s.added ++ [(tree, data)], coming := [tree], data := data }
  | unpack {s : Session σ δ} {name : String} {trees rest : List (RootTree σ)}
      (hcoming : s.coming = .joined name trees :: rest) :
      Step c s { s with coming := trees ++ rest }
  | enroll {s : Session σ δ} {root : Root σ} {rest : List (RootTree σ)}
      (hcoming : s.coming = .leaf root :: rest) (htodo : s.todo = [])
      (hadmits : c.admits s.world root) : Step c s (s.enroll root rest)
  | act {s : Session σ δ} {a : Action σ δ} {rest : List (Action σ δ)} (htodo : s.todo = a :: rest) :
      Step c s { s with cp := (s.cp.apply a).value, todo := rest }
  | scan {s : Session σ δ} {m : Pool.Move} {next : Logged (ClassPath σ δ)}
      (hmove : s.cp.move? m = some next) : Step c s { s with cp := next.value }
  | find {s : Session σ δ} (path : String) :
      Step c s { s with cp := (s.cp.findResource s.world path).after }
  | findAll {s : Session σ δ} (path : String) :
      Step c s { s with cp := (s.cp.allResources s.world path).after }
  | change {s : Session σ δ} (w : σ)
      (hkeeps : ∀ m ∈ s.members, c.admits w m.root ∧ c.keeps s.world w m.root) :
      Step c s { s with world := w }

/-- What a step comes to, for what is kept by all of them: it changes what waits to be added, makes a
root a member, does an action, moves a worker, leaves the class path as it was but for what lookups
do to it, or changes the world. -/
inductive Effect (c : Contract σ) (s : Session σ δ) : Session σ δ → Prop where
  | queue (added : List (RootTree σ × Option δ)) (coming : List (RootTree σ)) (data : Option δ) :
      Effect c s { s with added := added, coming := coming, data := data }
  | enroll {root : Root σ} (rest : List (RootTree σ)) (htodo : s.todo = [])
      (hadmits : c.admits s.world root) : Effect c s (s.enroll root rest)
  | act {a : Action σ δ} {rest : List (Action σ δ)} (htodo : s.todo = a :: rest) :
      Effect c s { s with cp := (s.cp.apply a).value, todo := rest }
  | move {new : List (Found σ δ)} {cp : ClassPath σ δ} (hmoved : s.cp.Moved new cp) :
      Effect c s { s with cp := cp }
  | look {cp : ClassPath σ δ} (halike : s.cp.Alike cp) : Effect c s { s with cp := cp }
  | change (w : σ) (hkeeps : ∀ m ∈ s.members, c.admits w m.root ∧ c.keeps s.world w m.root) :
      Effect c s { s with world := w }

theorem Step.effect {c : Contract σ} {s s' : Session σ δ} (h : Step c s s') : Effect c s s' := by
  cases h with
  | add tree data hcoming htodo => exact .queue _ _ _
  | unpack hcoming => exact .queue _ _ _
  | enroll hcoming htodo hadmits => exact .enroll _ htodo hadmits
  | act htodo => exact .act htodo
  | scan hmove =>
    obtain ⟨new, hmoved⟩ := ClassPath.moved_of_move? hmove
    exact .move hmoved
  | find path => exact .look (.findResource s.world s.cp path)
  | findAll path => exact .look (.allResources s.world s.cp path)
  | change w hkeeps => exact .change w hkeeps

abbrev Steps (c : Contract σ) : Session σ δ → Session σ δ → Prop := Relation.ReflTransGen (Step c)

/-- The sessions that a class path of its configuration can come to. -/
def Reachable (c : Contract σ) (config : Config) (s : Session σ δ) : Prop :=
  ∃ w, Steps c (start config w) s

theorem Reachable.invariant {c : Contract σ} {config : Config} {P : Session σ δ → Prop}
    (hstart : ∀ w, P (start config w)) (hstep : ∀ {s s'}, P s → Step c s s' → P s')
    {s : Session σ δ} (h : Reachable c config s) : P s := by
  obtain ⟨w, h⟩ := h
  induction h with
  | refl => exact hstart w
  | tail _ hlast ih => exact hstep ih hlast

theorem Reachable.admitted {c : Contract σ} {config : Config} {s : Session σ δ}
    (h : Reachable c config s) : ∀ m ∈ s.members, c.admits s.world m.root := by
  refine h.invariant (P := fun s => ∀ m ∈ s.members, c.admits s.world m.root) (fun _ => nofun) ?_
  intro s s' h hstep
  cases hstep.effect with
  | enroll rest htodo hadmits =>
    intro m hm
    rcases List.mem_append.1 hm with hold | hnew
    · exact h m hold
    · rw [List.mem_singleton.1 hnew]
      exact hadmits
  | change w hkeeps => exact fun m hm => (hkeeps m hm).1
  | queue added coming data => exact h
  | act htodo => exact h
  | move hmoved => exact h
  | look halike => exact h

theorem Reachable.scans {c : Contract σ} {config : Config} {s : Session σ δ}
    (h : Reachable c config s) {cp : ClassPath σ δ} (hscans : s.cp.Scans cp) :
    Reachable c config { s with cp := cp } := by
  obtain ⟨w, hsteps⟩ := h
  refine ⟨w, ?_⟩
  induction hscans with
  | refl => exact hsteps
  | tail _ hlast ih =>
    obtain ⟨m, next, hmove, rfl⟩ := hlast
    exact ih.tail (.scan hmove)

def constituents (added : List (RootTree σ × Option δ)) : List (Root σ × Option δ) :=
  added.flatMap fun (tree, data) => tree.leaves.map fun root => (root, data)

def registered (added : List (RootTree σ × Option δ)) : List (Member σ δ) :=
  (constituents added).zipIdx.map fun ((root, data), ordinal) => ⟨ordinal, root, data⟩

end Session

theorem RootTree.leavesOf_append (a b : List (RootTree σ)) :
    leavesOf (a ++ b) = leavesOf a ++ leavesOf b := by
  induction a with
  | nil => rfl
  | cons tree rest ih => rw [List.cons_append, leavesOf, ih, leavesOf, List.append_assoc]

namespace Session

variable {c : Contract σ} {config : Config}

/-- The constituents are the members and what is still to come. -/
theorem Reachable.constituents_eq {s : Session σ δ} (h : Reachable c config s) :
    constituents s.added = s.members.map (fun m => (m.root, m.data)) ++
      (RootTree.leavesOf s.coming).map fun root => (root, s.data) := by
  obtain ⟨w, h⟩ := h
  induction h with
  | refl => rfl
  | tail _ hlast ih =>
    cases hlast with
    | add tree data hcoming htodo =>
      simp only [constituents, List.flatMap_append, List.flatMap_cons, List.flatMap_nil,
        List.append_nil, RootTree.leavesOf] at ih ⊢
      rw [ih, hcoming, RootTree.leavesOf, List.map_nil, List.append_nil]
    | unpack hcoming =>
      rw [ih, hcoming, RootTree.leavesOf_append, RootTree.leavesOf, RootTree.leaves]
    | enroll hcoming htodo hadmits =>
      rw [enroll, ClassPath.enroll]
      rw [ih, hcoming, RootTree.leavesOf, RootTree.leaves]
      simp
    | act htodo => exact ih
    | scan hmove => exact ih
    | find path => exact ih
    | findAll path => exact ih
    | change w hkeeps => exact ih

/-- What is left to be done can be done in one go, wherever one action is a step. -/
theorem publish_of_act {R : Session σ δ → Session σ δ → Prop}
    (hact : ∀ {s : Session σ δ} {a : Action σ δ} {rest : List (Action σ δ)}, s.todo = a :: rest →
      R s { s with cp := (s.cp.apply a).value, todo := rest }) (s : Session σ δ) :
    Relation.ReflTransGen R s { s with cp := (s.cp.applyAll s.todo).value, todo := [] } := by
  obtain ⟨world, cp, added, members, todo, coming, data⟩ := s
  induction todo generalizing cp with
  | nil => exact .refl
  | cons a rest ih => exact .head (hact rfl) (ih _)

theorem Steps.leaf {s : Session σ δ} {root : Root σ} {rest : List (RootTree σ)}
    (hcoming : s.coming = .leaf root :: rest) (htodo : s.todo = [])
    (hadmits : c.admits s.world root) :
    Steps c s { s with
      cp := (s.cp.addLeaf s.world s.data root).value
      members := s.members ++ [⟨s.cp.nextOrdinal, root, s.data⟩]
      coming := rest } := by
  have hsteps : Steps c s _ := (publish_of_act (R := Step c) .act (s.enroll root rest)).head
    (.enroll hcoming htodo hadmits)
  rw [htodo]
  exact hsteps

mutual

/-- The steps by which a root is added come to what adding it at once comes to. -/
theorem Steps.tree (tree : RootTree σ) {s : Session σ δ} {rest : List (RootTree σ)}
    (hcoming : s.coming = tree :: rest) (htodo : s.todo = [])
    (hadmits : ∀ root ∈ tree.leaves, c.admits s.world root) :
    ∃ members, Steps c s { s with
      cp := (s.cp.add s.world s.data tree).value, members := members, coming := rest } := by
  cases tree with
  | leaf root => exact ⟨_, Steps.leaf hcoming htodo (hadmits root List.mem_cons_self)⟩
  | joined name trees =>
    obtain ⟨members, hsteps⟩ := Steps.trees trees (s := { s with coming := trees ++ rest })
      rfl htodo hadmits
    exact ⟨members, hsteps.head (.unpack hcoming)⟩

theorem Steps.trees (trees : List (RootTree σ)) {s : Session σ δ} {rest : List (RootTree σ)}
    (hcoming : s.coming = trees ++ rest) (htodo : s.todo = [])
    (hadmits : ∀ root ∈ RootTree.leavesOf trees, c.admits s.world root) :
    ∃ members, Steps c s { s with
      cp := (s.cp.addEach s.world s.data trees).value, members := members, coming := rest } := by
  cases trees with
  | nil =>
    refine ⟨s.members, ?_⟩
    rw [List.nil_append] at hcoming
    rw [← hcoming]
    exact .refl
  | cons tree others =>
    rw [RootTree.leavesOf, List.forall_mem_append] at hadmits
    obtain ⟨members, hfirst⟩ := Steps.tree tree hcoming htodo hadmits.1
    obtain ⟨members', hothers⟩ := Steps.trees others (s := { s with
      cp := (s.cp.add s.world s.data tree).value, members := members, coming := others ++ rest })
      rfl htodo hadmits.2
    exact ⟨members', hfirst.trans hothers⟩

end

/-- Between two roots being added, a root can be added at once. -/
theorem Reachable.add {s : Session σ δ} (h : Reachable c config s) (hcoming : s.coming = [])
    (htodo : s.todo = []) (tree : RootTree σ) (data : Option δ)
    (hadmits : ∀ root ∈ tree.leaves, c.admits s.world root) :
    ∃ members, Reachable c config { s with
      cp := (s.cp.add s.world data tree).value, added := s.added ++ [(tree, data)],
      members := members, data := data } := by
  obtain ⟨w, hsteps⟩ := h
  obtain ⟨members, htree⟩ := Steps.tree (c := c) tree
    (s := { s with added := s.added ++ [(tree, data)], coming := [tree], data := data })
    rfl htodo hadmits
  refine ⟨members, w, (hsteps.tail (.add tree data hcoming htodo)).trans ?_⟩
  rw [hcoming]
  exact htree

/-- Moves of the workers after a first root was added at once. -/
theorem reachable_of_add (c : Contract σ) (config : Config) (w : σ) (tree : RootTree σ)
    (data : Option δ) (hadmits : ∀ root ∈ tree.leaves, c.admits w root) {cp : ClassPath σ δ}
    (hscans : ((ClassPath.new config).add w data tree).value.Scans cp) :
    ∃ members, Reachable c config
      { world := w, cp := cp, added := [(tree, data)], members := members, data := data } := by
  have hstart : Reachable c config (start (δ := δ) config w) := ⟨w, .refl⟩
  obtain ⟨members, hadded⟩ := hstart.add rfl rfl tree data hadmits
  dsimp only [start] at hadded
  exact ⟨members, hadded.scans hscans⟩

end Session

end Overlay
