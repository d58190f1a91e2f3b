import Overlay.Proofs.Root.Contract
import Overlay.Proofs.Root.Edits

/-!
# Files in memory

In a memory tree every entry stands under the text of its own path, `MemoryTree.Keyed`, whatever
was written to it and whether that failed or not. So a file that was written stands under the path
made of its segments, `get?_of_write`, and is read back from there; and a tree in memory makes an
honest root.

Segments are not names that are left of them: a `..` among them becomes the name of a directory.
No normal form has such a name, so what was written behind it is not found by any lookup.
-/

namespace Overlay.MemoryTree

variable {tree : MemoryTree}

/-- What a writable tree has become by edits of the empty one, those that failed included. -/
def after (root : String) (edits : List Edit) : MemoryTree :=
  edits.foldl (fun tree e => (tree.editRoot root true e).1) empty

theorem Reached.foldl_editRoot (h : tree.Reached) (root : String) (edits : List Edit) :
    (edits.foldl (fun tree e => (tree.editRoot root true e).1) tree).Reached := by
  induction edits generalizing tree with
  | nil => exact h
  | cons e rest ih => exact ih (h.edited (.written root true))

theorem reached_after (root : String) (edits : List Edit) : (after root edits).Reached :=
  Reached.empty.foldl_editRoot root edits

/-- A file that was written stands under the path made of its segments. -/
theorem get?_of_write {after : MemoryTree} {path : String} {contents : ByteArray}
    (h : tree.Closed) (hwrite : tree.edit (.file path contents) = (after, .ok ())) :
    after.get? (EntryPath.ofNames (segments path)).render =
      some (.file (.ofNames (segments path)) contents) := by
  obtain ⟨other, hedit, -, hlaid⟩ | ⟨node, -, -, hedit⟩ := h.edit_cases (.file path contents)
  · cases hedit.symm.trans hwrite
    exact hlaid.there _ (List.mem_append_right _ (List.mem_singleton_self _))
  · cases hedit.symm.trans hwrite

theorem resolve_of_get? {key : String} {node : MemoryNode}
    (h : tree.get? key = some node) : tree.resolve key = some node.path := by
  rw [resolve, h, Option.map_some]

theorem read_of_get? {path : EntryPath} {contents : ByteArray}
    (root : String) (h : tree.get? path.render = some (.file path contents)) :
    tree.read root path = .ok contents := by
  simp only [read, h]

namespace Keyed

theorem empty : MemoryTree.empty.Keyed := Closed.empty.keyed

theorem shows {σ : Type} (trees : σ → MemoryTree) (w : σ) (h : (trees w).Keyed) (name : String)
    (writable : Bool) :
    (Root.memory name writable trees).Shows w ((Root.memory name writable trees).listing w) where
  plain _ hpath := Overlay.Keyed.plain_of_mem h hpath
  resolves _ _ := Overlay.Keyed.resolves h

theorem honest {σ : Type} (trees : σ → MemoryTree) (w : σ) (h : (trees w).Keyed) (name : String)
    (writable : Bool) : (Root.memory name writable trees).Honest w where
  renders p path hpath := by
    obtain ⟨hmem, hrender⟩ := ((shows trees w h name writable).resolves p path).1 hpath
    exact ⟨hrender, (shows trees w h name writable).plain path hmem⟩
  listed _ := .inr (shows trees w h name writable)
  walked hkind := nomatch hkind

/-- No name on the way to an entry that is found under a normal form leads back. -/
theorem parent_not_mem (h : tree.Keyed) {p : String} {path : EntryPath}
    (hpath : tree.resolve (normalize p) = some path) : ".." ∉ path.names := by
  obtain ⟨node, hget, rfl⟩ := Option.map_eq_some_iff.1 hpath
  rw [normalize_eq] at hget
  rw [h.path_eq (plain_ofNames_collapse p) hget, EntryPath.names_ofNames]
  exact fun hmem => (mem_collapse hmem).2 rfl

end Keyed

end Overlay.MemoryTree
