import Overlay.Archive.Tree
import Overlay.Scan.Indexer

/-!
# Indexing a pre-order traversal

`Indexer.Follows` relates an indexer to what it has become after a list of events, all of which it
answered by proceeding, and to the paths that it asked to put on the way. An indexer follows the
traversal of every forest: it asks for the root directory and then for `Forest.paths`, each path
being the names from the root down to a node. Nothing but the end of the walk ends such a scan.
-/

namespace Overlay

namespace Forest

def paths (dir : EntryPath) : Forest → List EntryPath
  | nil => []
  | file name rest => dir.child name :: rest.paths dir
  | directory name inside rest =>
    dir.child name :: (inside.paths (dir.child name) ++ rest.paths dir)

def folders : Forest → Nat
  | nil => 0
  | file _ rest => rest.folders
  | directory _ inside rest => inside.folders + rest.folders + 1

def files : Forest → Nat
  | nil => 0
  | file _ rest => rest.files + 1
  | directory _ inside rest => inside.files + rest.files

theorem length_paths (forest : Forest) (dir : EntryPath) :
    (forest.paths dir).length = forest.folders + forest.files := by
  induction forest generalizing dir with
  | nil => rfl
  | file name rest ih =>
    rw [paths, List.length_cons, ih, folders, files, Nat.add_assoc]
  | directory name inside rest ihInside ih =>
    rw [paths, List.length_cons, List.length_append, ihInside, ih, folders, files]
    omega

def nodes : Option Forest → List EntryPath
  | none => []
  | some forest => .root :: forest.paths .root

def traversal : Option Forest → List WalkEvent
  | none => []
  | some forest => .enter none :: (forest.events ++ [.leave])

end Forest

namespace Indexer

/-- Every event is answered by proceeding, and the paths are those put on the way. -/
inductive Follows (root : String) : Indexer → List WalkEvent → List EntryPath → Indexer → Prop where
  | nil (ix : Indexer) : Follows root ix [] [] ix
  | cons {ix last : Indexer} {e : WalkEvent} {rest : List WalkEvent} {paths : List EntryPath}
      (hanswer : (ix.step root e).answer = .ok .proceed)
      (hrest : Follows root (ix.step root e).after rest paths last) :
      Follows root ix (e :: rest) ((ix.step root e).put?.toList ++ paths) last

namespace Follows

variable {root : String} {ix mid last : Indexer} {a b : List WalkEvent} {ps qs : List EntryPath}

theorem single {e : WalkEvent} (h : (ix.step root e).answer = .ok .proceed) :
    Follows root ix [e] (ix.step root e).put?.toList (ix.step root e).after := by
  simpa using cons h (nil (ix.step root e).after)

theorem append (ha : Follows root ix a ps mid) (hb : Follows root mid b qs last) :
    Follows root ix (a ++ b) (ps ++ qs) last := by
  induction ha with
  | nil => exact hb
  | cons hanswer _ ih =>
    rw [List.append_assoc]
    exact cons hanswer (ih hb)

theorem split (h : Follows root ix (a ++ b) ps last) :
    ∃ mid qs rs, Follows root ix a qs mid ∧ Follows root mid b rs last ∧ ps = qs ++ rs := by
  induction a generalizing ix ps with
  | nil => exact ⟨ix, [], ps, nil ix, h, rfl⟩
  | cons e rest ih =>
    cases h with
    | cons hanswer hrest =>
      obtain ⟨mid, qs, rs, hfirst, hsecond, rfl⟩ := ih hrest
      exact ⟨mid, _, rs, cons hanswer hfirst, hsecond, (List.append_assoc ..).symm⟩

theorem unique (ha : Follows root ix a ps mid) (hb : Follows root ix a qs last) :
    ps = qs ∧ mid = last := by
  induction ha generalizing qs with
  | nil => cases hb; exact ⟨rfl, rfl⟩
  | cons hanswer _ ih =>
    cases hb with
    | cons _ hrest =>
      obtain ⟨rfl, rfl⟩ := ih hrest
      exact ⟨rfl, rfl⟩

/-- The events inside a directory put what is in it, and leave the directory open. -/
theorem events (forest : Forest) (dir : EntryPath) (outer : List EntryPath) (folders files : Nat) :
    Follows root ⟨dir :: outer, folders, files⟩ forest.events (forest.paths dir)
      ⟨dir :: outer, folders + forest.folders, files + forest.files⟩ := by
  induction forest generalizing dir outer folders files with
  | nil => exact nil _
  | file name rest ih =>
    have hrest := ih dir outer folders (files + 1)
    rw [Nat.add_assoc, Nat.add_comm 1] at hrest
    exact cons rfl hrest
  | directory name inside rest ihInside ihRest =>
    have hinside := ihInside (dir.child name) (dir :: outer) (folders + 1) files
    have hleave : Follows root
        ⟨dir.child name :: dir :: outer, folders + 1 + inside.folders, files + inside.files⟩
        [.leave] [] ⟨dir :: outer, folders + 1 + inside.folders, files + inside.files⟩ :=
      single rfl
    have hrest := ihRest dir outer (folders + 1 + inside.folders) (files + inside.files)
    have hfolders : folders + 1 + inside.folders + rest.folders =
        folders + (inside.folders + rest.folders + 1) := by omega
    have hfiles : files + inside.files + rest.files = files + (inside.files + rest.files) := by
      omega
    rw [hfolders, hfiles] at hrest
    exact cons rfl (hinside.append (hleave.append hrest))

theorem rooted (forest : Forest) :
    Follows root {} (Forest.traversal forest) (Forest.nodes forest)
      ⟨[], forest.folders + 1, forest.files⟩ := by
  have hevents : Follows root ⟨[.root], 1, 0⟩ forest.events (forest.paths .root)
      ⟨[.root], forest.folders + 1, forest.files⟩ := by
    simpa [Nat.add_comm] using events forest .root [] 1 0
  have hleave : Follows root ⟨[.root], forest.folders + 1, forest.files⟩ [.leave] []
      ⟨[], forest.folders + 1, forest.files⟩ := single rfl
  have hrest := hevents.append hleave
  rw [List.append_nil] at hrest
  exact cons rfl hrest

theorem traversal (root : String) (tree : Option Forest) :
    ∃ last, Follows root {} (Forest.traversal tree) (Forest.nodes tree) last := by
  cases tree with
  | none => exact ⟨{}, nil {}⟩
  | some forest => exact ⟨_, rooted forest⟩

end Follows

inductive Stepped (root : String) (ix : Indexer) : WalkEvent → Response → Prop where
  | begin (hstack : ix.stack = []) : Stepped root ix (.enter none) (ix.enter .root)
  | enter {name : String} {dir : EntryPath} {outer : List EntryPath}
      (hstack : ix.stack = dir :: outer) :
      Stepped root ix (.enter (some name)) (ix.enter (dir.child name))
  | file {name : String} {dir : EntryPath} {outer : List EntryPath}
      (hstack : ix.stack = dir :: outer) :
      Stepped root ix (.file name)
        ⟨.ok .proceed, some (dir.child name), { ix with files := ix.files + 1 }⟩
  | leave : Stepped root ix .leave ⟨.ok .proceed, none, { ix with stack := ix.stack.tail }⟩
  /-- The root directory is presented right inside the root directory. -/
  | stop {dir : EntryPath} (hstack : ix.stack = [dir]) :
      Stepped root ix (.enter none) ⟨.ok .stop, none, ix⟩
  | nested {inner dir : EntryPath} {outer : List EntryPath}
      (hstack : ix.stack = inner :: dir :: outer) :
      Stepped root ix (.enter none) (ix.refuse (.nestedRoot root inner.render))
  | outside {name : String} {e : WalkEvent} (hnamed : e = .enter (some name) ∨ e = .file name)
      (hstack : ix.stack = []) : Stepped root ix e (ix.refuse (.outsideRoot root))

theorem stepped (root : String) (ix : Indexer) (e : WalkEvent) :
    Stepped root ix e (ix.step root e) := by
  obtain ⟨stack, folders, files⟩ := ix
  cases e with
  | enter name =>
    cases name with
    | none =>
      cases stack with
      | nil => exact .begin rfl
      | cons inner outer =>
        cases outer with
        | nil => exact .stop rfl
        | cons dir outer => exact .nested rfl
    | some name =>
      cases stack with
      | nil => exact .outside (.inl rfl) rfl
      | cons dir outer => exact .enter rfl
  | file name =>
    cases stack with
    | nil => exact .outside (.inr rfl) rfl
    | cons dir outer => exact .file rfl
  | leave => exact .leave

/-- What an event does that does not let the walk proceed: nothing. -/
theorem step_of_not_proceed {root : String} {ix : Indexer} {e : WalkEvent}
    (h : (ix.step root e).answer ≠ .ok .proceed) :
    (ix.step root e).put? = none ∧ (ix.step root e).after = ix := by
  have hstep := stepped root ix e
  generalize ix.step root e = response at hstep h ⊢
  cases hstep with
  | stop | nested | outside => exact ⟨rfl, rfl⟩
  | begin | enter | file | leave => exact absurd rfl h

theorem count_step (root : String) (ix : Indexer) (e : WalkEvent) :
    (ix.step root e).after.folders + (ix.step root e).after.files =
      ix.folders + ix.files + (ix.step root e).put?.toList.length := by
  have hstep := stepped root ix e
  generalize ix.step root e = response at hstep ⊢
  cases hstep with
  | begin | enter => exact Nat.add_right_comm ix.folders 1 ix.files
  | file | leave | stop | nested | outside => rfl

end Indexer

end Overlay
