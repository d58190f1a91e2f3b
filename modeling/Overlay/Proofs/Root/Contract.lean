import Overlay.Proofs.Path.Rendering
import Overlay.Proofs.Scan.Traversal
import Overlay.Root.Tables

/-!
# What roots promise

A class path relies on what its roots say of themselves. `Root.Honest` is the promise under which
its answers are those of the roots: what is resolved renders as the key that was asked for, what a
read-only memory root lists is what it resolves, and the walk of an archive shows what the archive
resolves. A walk may break off, but then it does not end well.
-/

namespace Overlay

variable {σ : Type}

def RootKind.indexed : RootKind → Bool
  | memory writable => !writable
  | archive => true
  | external => false

namespace Root

structure Shows (root : Root σ) (w : σ) (paths : List EntryPath) : Prop where
  plain : ∀ path ∈ paths, path.Plain
  resolves : ∀ p path, root.resolve w (normalize p) = some path ↔
    path ∈ paths ∧ path.render = normalize p

structure Honest (root : Root σ) (w : σ) : Prop where
  renders : ∀ p path, root.resolve w (normalize p) = some path →
    path.render = normalize p ∧ path.Plain
  listed : root.kind = .memory false → root.listing w = [] ∨ root.Shows w (root.listing w)
  walked : root.kind = .archive → ∃ tree, root.Shows w (Forest.nodes tree) ∧
    root.walk.events <+: Forest.traversal tree ∧
    (root.walk.ending = .done → root.walk.events = Forest.traversal tree)

end Root

/-- What is asked of the roots of a class path: of a root at any time, and of a root when the
world changes. -/
structure Contract (σ : Type) where
  admits : σ → Root σ → Prop
  keeps : σ → σ → Root σ → Prop

/-- Honest roots, of which those that can be indexed go on to resolve what they resolve. -/
def Contract.honest : Contract σ where
  admits w root := root.Honest w
  keeps w w' root := root.kind.indexed →
    ∀ p, root.resolve w' (normalize p) = root.resolve w (normalize p)

/-- An indexer proceeds at every event of an honest walk. -/
theorem Root.Honest.follows {root : Root σ} {w : σ} (h : root.Honest w)
    (hkind : root.kind = .archive) :
    ∃ puts ix, Indexer.Follows root.name {} root.walk.events puts ix ∧
      (∀ path ∈ puts, path.Plain ∧ ∀ p, path.render = normalize p →
        root.resolve w (normalize p) = some path) ∧
      (root.walk.ending = .done → ∀ p path, root.resolve w (normalize p) = some path →
        path ∈ puts) := by
  obtain ⟨tree, hshows, ⟨behind, hcut⟩, hdone⟩ := h.walked hkind
  obtain ⟨last, htree⟩ := Indexer.Follows.traversal root.name tree
  rw [← hcut] at htree
  obtain ⟨ix, puts, later, hwalk, -, hnodes⟩ := htree.split
  refine ⟨puts, ix, hwalk, fun path hpath => ?_, fun hend p path hp => ?_⟩
  · have hnode : path ∈ Forest.nodes tree := hnodes ▸ List.mem_append_left _ hpath
    exact ⟨hshows.plain path hnode, fun p hp => (hshows.resolves p path).2 ⟨hnode, hp⟩⟩
  · obtain ⟨last', htree'⟩ := Indexer.Follows.traversal root.name tree
    rw [← hdone hend] at htree'
    rw [(hwalk.unique htree').1]
    exact ((hshows.resolves p path).1 hp).1

section Scripted

def RootTables.ofPaths (name : String) (kind : RootKind) (paths : List EntryPath)
    (walk : Walk := .unsupported name) : RootTables where
  name := name
  kind := kind
  listing := paths
  targets := paths.map fun path => (path.render, path)
  walk := walk

theorem RootTables.shows_ofPaths {name : String} {kind : RootKind} {paths : List EntryPath}
    {walk : Walk} (w : σ) (hplain : ∀ path ∈ paths, path.Plain) :
    Root.Shows (RootTables.ofPaths name kind paths walk).toRoot w paths where
  plain := hplain
  resolves p path := by
    change (paths.map fun path => (path.render, path)).lookup (normalize p) = some path ↔ _
    induction paths with
    | nil => simp
    | cons first rest ih =>
      have hrest := ih fun path hpath => hplain path (List.mem_cons_of_mem _ hpath)
      rw [List.map_cons, List.lookup_cons]
      by_cases hfirst : normalize p = first.render
      · rw [beq_iff_eq.2 hfirst]
        simp only [Option.some.injEq, List.mem_cons]
        constructor
        · rintro rfl
          exact ⟨.inl rfl, hfirst.symm⟩
        · rintro ⟨hpath, hrender⟩
          have hmem := List.mem_cons.2 hpath
          exact (hplain first List.mem_cons_self).render_inj (hplain path hmem)
            (hfirst.symm.trans hrender.symm)
      · rw [beq_eq_false_iff_ne.2 hfirst, hrest, List.mem_cons]
        constructor
        · exact fun h => ⟨.inr h.1, h.2⟩
        · rintro ⟨rfl | hpath, hrender⟩
          · exact absurd hrender.symm hfirst
          · exact ⟨hpath, hrender⟩

/-- A root of the paths of a tree is honest, if its walk is one of the tree. -/
theorem RootTables.honest_ofPaths {name : String} {kind : RootKind} {tree : Option Forest}
    {walk : Walk} (w : σ) (hplain : ∀ path ∈ Forest.nodes tree, path.Plain)
    (hevents : walk.events <+: Forest.traversal tree)
    (hdone : walk.ending = .done → walk.events = Forest.traversal tree) :
    Root.Honest (RootTables.ofPaths name kind (Forest.nodes tree) walk).toRoot w where
  renders p path hpath := by
    obtain ⟨hmem, hrender⟩ := ((RootTables.shows_ofPaths w hplain).resolves p path).1 hpath
    exact ⟨hrender, hplain path hmem⟩
  listed _ := .inr (RootTables.shows_ofPaths w hplain)
  walked _ := ⟨tree, RootTables.shows_ofPaths w hplain, hevents, hdone⟩

end Scripted

end Overlay
