import Overlay.Proofs.Index.Contents
import Overlay.Proofs.Scan.Traversal
import Overlay.Scan.Indexing

/-!
# Delivering a traversal

What an event puts is a list of at most one location, and an index holds whatever lists are put into
it, `Index.Holds.putAll`.

Where `Walk.play` stops at the first answer that does not let it proceed, `Indexing.deliverAll`
delivers all events and collects the answers. The traversal of a tree is answered by proceeding
throughout, and what it does to the index is to put the paths of the tree, in pre-order and from one
origin: `Indexing.deliverAll_traversal`. Every path is put behind the directories above it,
`Forest.exists_chain`.
-/

namespace Overlay

variable {ω : Type}

def Index.putAll (index : Index ω) (locations : List (Located ω)) : Logged (Index ω) :=
  locations.foldlM Index.put index

theorem Index.putAll_append (index : Index ω) (a b : List (Located ω)) :
    index.putAll (a ++ b) = index.putAll a >>= fun index => index.putAll b :=
  List.foldlM_append

theorem Index.Holds.putAll {index : Index ω} {log : List (Located ω)} (h : index.Holds log)
    (locations : List (Located ω)) : (index.putAll locations).value.Holds (log ++ locations) := by
  induction locations generalizing index log with
  | nil =>
    rw [List.append_nil]
    exact h
  | cons l rest ih =>
    rw [List.append_cons]
    exact ih (h.put l)

namespace Indexing

theorem put?_eq (s : Indexing ω) (path? : Option EntryPath) :
    s.put? path? = s.index.putAll (path?.toList.map fun path => ⟨path, s.origin⟩) := by
  cases path? with
  | none => rfl
  | some path => exact (bind_pure _).symm

/-- Delivers events of the walk of the root called `root`, whatever the answers are. -/
def deliverAll (root : String) (s : Indexing ω) :
    List WalkEvent → Logged (List (Except IoError Control) × Indexing ω)
  | [] => pure ([], s)
  | e :: rest => do
    let (answer, s) ← s.deliver root e
    let (answers, s) ← s.deliverAll root rest
    pure (answer :: answers, s)

/-- An event that is answered by proceeding does nothing but to put its path. -/
theorem deliver_of_proceed {root : String} {s : Indexing ω} {e : WalkEvent}
    (h : (s.indexer.step root e).answer = .ok .proceed) :
    s.deliver root e = (fun index => (.ok .proceed,
      { s with index := index, indexer := (s.indexer.step root e).after })) <$>
        s.index.putAll ((s.indexer.step root e).put?.toList.map fun path => ⟨path, s.origin⟩) := by
  have hquiet : (s.indexer.step root e).events root = [] := by rw [Indexer.Response.events, h]
  rw [← put?_eq, deliver, hquiet, h]
  rfl

end Indexing

namespace Forest

/-- A node of a forest comes behind the directories above it. -/
theorem exists_chain {forest : Forest} {dir path : EntryPath} (h : path ∈ forest.paths dir) :
    ∃ chain, path.ancestors.reverse ++ [path] = dir.ancestors.reverse ++ dir :: chain ∧
      chain.Sublist (forest.paths dir) := by
  induction forest generalizing dir with
  | nil => cases h
  | file name rest ih =>
    rw [paths, List.mem_cons] at h
    rcases h with rfl | h
    · refine ⟨[dir.child name], by simp [EntryPath.ancestors], ?_⟩
      exact (List.nil_sublist _).cons_cons _
    · obtain ⟨chain, hchain, hsublist⟩ := ih h
      exact ⟨chain, hchain, hsublist.cons _⟩
  | directory name inside rest ihInside ih =>
    rw [paths, List.mem_cons, List.mem_append] at h
    rcases h with rfl | h | h
    · refine ⟨[dir.child name], by simp [EntryPath.ancestors], ?_⟩
      exact (List.nil_sublist _).cons_cons _
    · obtain ⟨chain, hchain, hsublist⟩ := ihInside h
      refine ⟨dir.child name :: chain, by rw [hchain]; simp [EntryPath.ancestors], ?_⟩
      exact (hsublist.trans (List.sublist_append_left ..)).cons_cons _
    · obtain ⟨chain, hchain, hsublist⟩ := ih h
      exact ⟨chain, hchain, (hsublist.trans (List.sublist_append_right ..)).cons _⟩

end Forest

namespace Indexing

/-- An indexer that follows events proceeds throughout, and puts the paths in their order. -/
theorem deliverAll_of_follows {root : String} {ix last : Indexer} {events : List WalkEvent}
    {paths : List EntryPath} (h : ix.Follows root events paths last) (index : Index ω)
    (origin : ω) :
    deliverAll root ⟨index, origin, ix⟩ events =
      (fun after => (List.replicate events.length (.ok .proceed), ⟨after, origin, last⟩)) <$>
        index.putAll (paths.map fun path => ⟨path, origin⟩) := by
  induction h generalizing index with
  | nil ix => rfl
  | @cons ix last e rest paths hanswer hrest ih =>
    rw [deliverAll, deliver_of_proceed hanswer]
    simp only [bind_map_left, ih]
    rw [List.map_append, Index.putAll_append, map_bind]
    simp only [map_eq_pure_bind]
    rfl

/-- The traversal of a tree is answered by proceeding throughout. It puts every node of the tree,
each behind the directories above it, counts them, and leaves no directory open. -/
theorem deliverAll_traversal (root : String) (index : Index ω) (origin : ω) (forest : Forest) :
    deliverAll root ⟨index, origin, {}⟩ (Forest.traversal forest) =
      (fun after => (List.replicate (Forest.traversal forest).length (.ok .proceed),
        ⟨after, origin, [], forest.folders + 1, forest.files⟩)) <$>
        index.putAll ((Forest.nodes forest).map fun path => ⟨path, origin⟩) ∧
    (Forest.nodes forest).length = forest.folders + 1 + forest.files ∧
    ∀ path ∈ Forest.nodes forest,
      (path.ancestors.reverse ++ [path]).Sublist (Forest.nodes forest) := by
  refine ⟨deliverAll_of_follows (.rooted forest) index origin, ?_, fun path hpath => ?_⟩
  · rw [Forest.nodes, List.length_cons, Forest.length_paths]
    omega
  · rcases List.mem_cons.1 hpath with rfl | hpath
    · exact (List.nil_sublist _).cons_cons _
    · obtain ⟨chain, hchain, hsublist⟩ := Forest.exists_chain hpath
      rw [hchain]
      exact hsublist.cons_cons _

end Indexing

end Overlay
