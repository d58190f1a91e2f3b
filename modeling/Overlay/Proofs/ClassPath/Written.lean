import Overlay.Proofs.ClassPath.Checking
import Overlay.Proofs.Root.Memory

/-!
# Reading what was written

A file that was written to a tree in memory is found under the normal form of the path it was
written to, unless a `..` is among the segments of that path: `read_written`. Then it stands in the
tree under a key that is no normal form, `lost_behind_parent`.
-/

namespace Overlay.MemoryTree

variable {σ δ : Type} {root path : String} {edits : List Edit} {contents : ByteArray}
  {tree : MemoryTree}

theorem keyed_of_write
    (hwrite : (after root edits).editRoot root true (.file path contents) = (tree, .ok ())) :
    tree.Keyed ∧ tree.get? (EntryPath.ofNames (segments path)).render =
      some (.file (.ofNames (segments path)) contents) := by
  have hreached := (reached_after root edits).edited (.written root true (e := .file path contents))
  rw [hwrite] at hreached
  exact ⟨hreached.closed.keyed, get?_of_write (reached_after root edits).closed hwrite⟩

/-- What was written to a path is found under its normal form and read back, also by a class path
in which no earlier member has that path. -/
theorem read_written
    (hwrite : (after root edits).editRoot root true (.file path contents) = (tree, .ok ()))
    (hparent : ".." ∉ segments path) :
    (∃ e, tree.resolve (normalize path) = some e ∧ e.render = normalize path ∧
      tree.read root e = .ok contents) ∧
    ∀ (config : Config) (trees : σ → MemoryTree) (s : Session σ δ) (m : Member σ δ),
      s.Reachable .honest config → s.todo = [] → trees s.world = tree → m ∈ s.members →
      m.root = Root.memory root true trees →
      (∀ other ∈ s.members, other.Before m →
        other.root.resolve s.world (normalize path) = none) →
      (s.cp.readResource s.world path).answer = .ok (some (.ok contents)) := by
  obtain ⟨-, hget⟩ := keyed_of_write hwrite
  have hnormal := normalize_of_not_mem hparent
  have hread := read_of_get? root hget
  rw [← hnormal] at hget
  have hresolve : tree.resolve (normalize path) = some (.ofNames (segments path)) :=
    resolve_of_get? hget
  refine ⟨⟨_, hresolve, hnormal.symm, hread⟩, ?_⟩
  intro config trees s m hreach htodo htree hm hroot hearlier
  have hmember : m.root.resolve s.world (normalize path) =
      some (.ofNames (segments path)) := by
    rw [hroot, ← hresolve, ← htree]
    rfl
  have hfound := hreach.findResource_of_earliest htodo hm hmember hearlier
  have hcontents : m.root.read s.world (.ofNames (segments path)) = .ok contents := by
    rw [hroot, ← hread, ← htree]
    rfl
  rw [ClassPath.readResource, Reply.map, hfound]
  exact congrArg (fun c => Except.ok (some c)) hcontents

/-- A file is replaced in a tree that was added when it was empty. -/
theorem read_written_replaced :
    ∃ (tree : MemoryTree) (s : Session MemoryTree String),
      (after "m" [.file "a/b" ⟨#[1]⟩]).editRoot "m" true (.file ".//a\\b" ⟨#[2]⟩) =
        (tree, .ok ()) ∧
      ".." ∉ segments ".//a\\b" ∧ s.Reachable .honest {} ∧ s.world = tree ∧
      s.members.map (fun m => m.root.name) = ["m"] ∧
      (s.cp.readResource s.world ".//a\\b").answer = .ok (some (.ok ⟨#[2]⟩)) := by
  let root : Root MemoryTree := .memory "m" true id
  let tree := ((after "m" [.file "a/b" ⟨#[1]⟩]).editRoot "m" true (.file ".//a\\b" ⟨#[2]⟩)).1
  have hwrite : (after "m" [.file "a/b" ⟨#[1]⟩]).editRoot "m" true (.file ".//a\\b" ⟨#[2]⟩) =
      (tree, .ok ()) := rfl
  have hkeyed : tree.Keyed := (keyed_of_write hwrite).1
  have hstart : Session.Reachable .honest {} (.start (δ := String) {} MemoryTree.empty) :=
    ⟨_, .refl⟩
  obtain ⟨members, hadded⟩ := hstart.add rfl rfl (.leaf root) none fun other hother => by
    obtain rfl := List.mem_singleton.1 hother
    exact Keyed.honest id .empty .empty "m" true
  obtain rfl : members = [⟨0, root, none⟩] := hadded.members_registered.2 rfl
  obtain ⟨w, hsteps⟩ := hadded
  have hreach := hsteps.tail (.change tree fun m hm => by
    obtain rfl := List.mem_singleton.1 hm
    exact ⟨Keyed.honest id tree hkeyed "m" true, nofun⟩)
  have hparent : ".." ∉ segments ".//a\\b" := by decide
  obtain ⟨-, hread⟩ := read_written (σ := MemoryTree) (δ := String) hwrite hparent
  refine ⟨tree, _, hwrite, hparent, ⟨w, hreach⟩, rfl, rfl, ?_⟩
  refine hread {} id _ _ ⟨w, hreach⟩ rfl rfl List.mem_cons_self rfl fun other hother hbefore => ?_
  obtain rfl := List.mem_singleton.1 hother
  exact absurd hbefore (Nat.lt_irrefl _)

/-- What was written behind a `..` stands in the tree, and no lookup finds it. -/
theorem lost_behind_parent
    (hwrite : (after root edits).editRoot root true (.file path contents) = (tree, .ok ()))
    (hparent : ".." ∈ segments path) :
    ∃ e, tree.read root e = .ok contents ∧ ∀ p, tree.resolve (normalize p) ≠ some e := by
  obtain ⟨hkeyed, hget⟩ := keyed_of_write hwrite
  refine ⟨_, read_of_get? root hget, fun p hfound => hkeyed.parent_not_mem hfound ?_⟩
  rwa [EntryPath.names_ofNames]

theorem lost_written : ∃ tree, (after "m" []).editRoot "m" true (.file "a/../b" ⟨#[99]⟩) =
      (tree, .ok ()) ∧ tree.resolve (normalize "a/../b") = none :=
  ⟨_, rfl, rfl⟩

end Overlay.MemoryTree
