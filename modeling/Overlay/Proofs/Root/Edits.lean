import Overlay.Proofs.Path.Keyed
import Overlay.Proofs.Path.Normal
import Overlay.Root.Memory

/-!
# Edits of trees in memory

An edit asks for nodes: the directories that its segments lead through and, if a file is written,
the file. It makes them one after the other and stops at the first that does not fit in. Still no
half of an edit is ever seen, `MemoryTree.edit_all_or_nothing`. In a tree that edits led to, every
entry stands in a directory, `MemoryTree.Closed`, so nothing stands below a place where nothing
stands. Once a directory had to be made, all that is asked for below it fits in; and if a directory
is in the way of a file, those above it were there already.
-/

namespace Overlay

namespace MemoryNode

/-- A node can take the place of another: a directory only that of itself, a file that of a file. -/
def Replaces : MemoryNode → MemoryNode → Prop
  | directory path, old => old = directory path
  | file path _, old => ∃ contents, old = file path contents

def clash : MemoryNode → IoError
  | directory path => .fileInTheWay path.render
  | file .root _ => .rootIsDirectory
  | file path _ => .directoryInTheWay path.render

end MemoryNode

namespace MemoryTree

variable {tree after : MemoryTree} {dir parent : EntryPath} {name : String}
  {names : List String} {node : MemoryNode}

def Keyed (tree : MemoryTree) : Prop := Overlay.Keyed MemoryNode.path tree.nodes

theorem get?_insert (tree : MemoryTree) (key other : String) (node : MemoryNode) :
    (tree.insert key node).get? other = if key = other then some node else tree.get? other :=
  getElem?_insert tree.nodes key other node

theorem get?_insert_self (tree : MemoryTree) (key : String) (node : MemoryNode) :
    (tree.insert key node).get? key = some node := by
  rw [get?_insert, if_pos rfl]

theorem get?_insert_of_ne {key other : String} (h : key ≠ other) :
    (tree.insert key node).get? other = tree.get? other := by
  rw [get?_insert, if_neg h]

def Fits (tree : MemoryTree) (node : MemoryNode) : Prop :=
  ∀ old, tree.get? node.path.render = some old → node.Replaces old

theorem not_fits_of_directory {path other : EntryPath} {contents : ByteArray}
    (hget : tree.get? path.render = some (.directory other)) :
    ¬ tree.Fits (.file path contents) := by
  intro hfits
  obtain ⟨old, hfile⟩ := hfits _ hget
  cases hfile

/-- Nodes that fit in are laid over a tree, and nothing else is changed. -/
structure Laid (tree : MemoryTree) (nodes : List MemoryNode) (after : MemoryTree) : Prop where
  fits : ∀ node ∈ nodes, tree.Fits node
  there : ∀ node ∈ nodes, after.get? node.path.render = some node
  others : ∀ key, (∀ node ∈ nodes, node.path.render ≠ key) → after.get? key = tree.get? key

structure Closed (tree : MemoryTree) : Prop where
  keyed : tree.Keyed
  top : tree.get? "/" = some (.directory .root)
  parents : ∀ (parent : EntryPath) (name : String) (node : MemoryNode), (parent.child name).Plain →
    tree.get? (parent.child name).render = some node →
    tree.get? parent.render = some (.directory parent)

def directories (dir : EntryPath) : List String → List MemoryNode
  | [] => []
  | name :: rest => .directory (dir.child name) :: directories (dir.child name) rest

def Edit.nodes : Edit → List MemoryNode
  | file path contents =>
    directories .root (segments path).dropLast ++ [.file (.ofNames (segments path)) contents]
  | directory path => directories .root (segments path)

theorem mem_directories : node ∈ directories dir names ↔
    ∃ ns, ns ≠ [] ∧ ns <+: names ∧ node = .directory (dir.under ns) := by
  induction names generalizing dir with
  | nil =>
    simp only [directories, List.not_mem_nil, List.prefix_nil, false_iff]
    rintro ⟨ns, hne, hnil, -⟩
    exact hne hnil
  | cons name rest ih =>
    rw [directories, List.mem_cons, ih]
    constructor
    · rintro (rfl | ⟨ns, -, hns, rfl⟩)
      · exact ⟨[name], List.cons_ne_nil name [], ⟨rest, rfl⟩, rfl⟩
      · exact ⟨name :: ns, List.cons_ne_nil name ns, List.cons_prefix_cons.2 ⟨rfl, hns⟩, rfl⟩
    · rintro ⟨ns, hne, hns, rfl⟩
      cases ns with
      | nil => exact absurd rfl hne
      | cons n ns =>
        obtain ⟨rfl, hrest⟩ := List.cons_prefix_cons.1 hns
        cases ns with
        | nil => exact .inl rfl
        | cons m ns => exact .inr ⟨m :: ns, List.cons_ne_nil m ns, hrest, rfl⟩

/-- The directories above a place have other texts than the place. -/
theorem render_ne_of_mem_directories (hplain : ((EntryPath.ofNames names).child name).Plain)
    (hnode : node ∈ directories .root names) :
    node.path.render ≠ ((EntryPath.ofNames names).child name).render := by
  intro hrender
  obtain ⟨ns, -, hns, rfl⟩ := mem_directories.1 hnode
  have hnames : (EntryPath.ofNames names).Plain := (EntryPath.plain_child.1 hplain).1
  have hsame := (hnames.of_prefix hns).render_inj hplain hrender
  rw [← EntryPath.ofNames_concat] at hsame
  have hlength := hns.length_le
  rw [EntryPath.under_inj.1 hsame, List.length_append, List.length_singleton] at hlength
  omega

namespace Laid

variable {nodes : List MemoryNode}

theorem nil (tree : MemoryTree) : tree.Laid [] tree := ⟨nofun, nofun, fun _ _ => rfl⟩

theorem cons_of_get (hget : tree.get? node.path.render = some node) (hfits : tree.Fits node)
    (hnodes : ∀ other ∈ nodes, other.path.render ≠ node.path.render) (h : tree.Laid nodes after) :
    tree.Laid (node :: nodes) after where
  fits := List.forall_mem_cons.2 ⟨hfits, h.fits⟩
  there := List.forall_mem_cons.2 ⟨(h.others _ hnodes).trans hget, h.there⟩
  others key hkey := h.others key fun other hother => hkey other (List.mem_cons_of_mem node hother)

theorem cons_of_insert (hfits : tree.Fits node)
    (hnodes : ∀ other ∈ nodes, tree.Fits other ∧ other.path.render ≠ node.path.render)
    (h : (tree.insert node.path.render node).Laid nodes after) :
    tree.Laid (node :: nodes) after where
  fits := List.forall_mem_cons.2 ⟨hfits, fun other hother => (hnodes other hother).1⟩
  there := by
    refine List.forall_mem_cons.2 ⟨?_, h.there⟩
    rw [h.others _ fun other hother => (hnodes other hother).2, get?_insert_self]
  others key hkey := by
    obtain ⟨hne, hrest⟩ := List.forall_mem_cons.1 hkey
    rw [h.others key hrest, get?_insert_of_ne hne]

theorem concat (h : tree.Laid nodes after) (hfits : after.Fits node)
    (hnodes : ∀ other ∈ nodes, other.path.render ≠ node.path.render) :
    tree.Laid (nodes ++ [node]) (after.insert node.path.render node) where
  fits := by
    refine List.forall_mem_append.2 ⟨h.fits, List.forall_mem_singleton.2 fun old hold => ?_⟩
    exact hfits old ((h.others _ hnodes).trans hold)
  there := by
    refine List.forall_mem_append.2 ⟨fun other hother => ?_, List.forall_mem_singleton.2 ?_⟩
    · rw [get?_insert_of_ne (hnodes other hother).symm]
      exact h.there other hother
    · exact get?_insert_self ..
  others key hkey := by
    obtain ⟨hbefore, hlast⟩ := List.forall_mem_append.1 hkey
    rw [get?_insert_of_ne (hlast node (List.mem_singleton_self node)), h.others key hbefore]

end Laid

namespace Closed

/-- What stands below a path stands in a directory of that path. -/
theorem above (h : tree.Closed) {ns : List String} (hns : ns ≠ []) (hplain : (dir.under ns).Plain)
    (hget : tree.get? (dir.under ns).render = some node) :
    tree.get? dir.render = some (.directory dir) := by
  induction ns generalizing dir with
  | nil => exact absurd rfl hns
  | cons n ns ih =>
    have hchild : (dir.child n).Plain := EntryPath.Plain.of_under hplain
    cases ns with
    | nil => exact h.parents dir n node hchild hget
    | cons m ns => exact h.parents dir n _ hchild (ih (List.cons_ne_nil m ns) hplain hget)

theorem insert (h : tree.Closed) (hpath : node.path = parent.child name)
    (hplain : (parent.child name).Plain)
    (hparent : tree.get? parent.render = some (.directory parent)) (hfits : tree.Fits node) :
    (tree.insert (parent.child name).render node).Closed where
  keyed := by
    rw [← hpath] at hplain ⊢
    exact h.keyed.insert node hplain
  top := (get?_insert_of_ne hplain.render_child_ne).trans h.top
  parents other n found hother hget := by
    have hdir : tree.get? other.render = some (.directory other) := by
      rw [get?_insert] at hget
      split at hget
      next heq =>
        obtain ⟨rfl, rfl⟩ := EntryPath.child.inj (hplain.render_inj hother heq)
        exact hparent
      next => exact h.parents other n found hother hget
    rw [get?_insert]
    split
    next heq =>
      -- the inserted node takes the place of a directory, so it is that directory
      have hreplaces := hfits (.directory other) (by rw [hpath, heq, hdir])
      cases node with
      | directory path => exact congrArg some hreplaces.symm
      | file path contents => obtain ⟨old, hfile⟩ := hreplaces; cases hfile
    next => exact hdir

/-- Directories are made along names as far as they are missing, or a file is in the way and nothing
is made. -/
theorem descend_cases (h : tree.Closed) (hdir : tree.get? dir.render = some (.directory dir))
    (hplain : (dir.under names).Plain) :
    (∃ after, tree.descend dir.lead dir names =
        (after, .ok ((dir.under names).lead, dir.under names)) ∧
      after.Closed ∧ tree.Laid (directories dir names) after ∧
      after.get? (dir.under names).render = some (.directory (dir.under names))) ∨
    ∃ node ∈ directories dir names, ¬ tree.Fits node ∧
      tree.descend dir.lead dir names = (tree, .error node.clash) := by
  induction names generalizing tree dir with
  | nil => exact .inl ⟨tree, rfl, h, .nil tree, hdir⟩
  | cons name rest ih =>
    have hrest : ((dir.child name).under rest).Plain := hplain
    have hchild : (dir.child name).Plain := hrest.of_under
    have hbelow : ∀ node ∈ directories (dir.child name) rest,
        node.path.render ≠ (dir.child name).render := by
      intro node hnode
      obtain ⟨ns, hne, hns, rfl⟩ := mem_directories.1 hnode
      exact (hrest.of_prefix hns).render_under_ne hne
    rw [MemoryTree.descend]
    cases hget : tree.get? (dir.lead ++ "/" ++ name) with
    | none =>
      have hvacant : tree.get? (dir.child name).render = none := hget
      have hfits : tree.Fits (.directory (dir.child name)) := fun old hold => by
        rw [MemoryNode.path, hvacant] at hold
        cases hold
      -- nothing stands below a place where nothing stands
      have hfitsBelow : ∀ node ∈ directories (dir.child name) rest, tree.Fits node := by
        intro node hnode old hold
        obtain ⟨ns, hne, hns, rfl⟩ := mem_directories.1 hnode
        have hdirectory := h.above hne (hrest.of_prefix hns) hold
        rw [hvacant] at hdirectory
        cases hdirectory
      have hclosed : (tree.insert (dir.child name).render (.directory (dir.child name))).Closed :=
        h.insert rfl hchild hdir hfits
      obtain ⟨after, hdescend, hafter, hlaid, hlast⟩ | ⟨node, hnode, hnot, -⟩ :=
        ih hclosed (get?_insert_self ..) hrest
      · refine .inl ⟨after, hdescend, hafter, ?_, hlast⟩
        exact hlaid.cons_of_insert hfits fun node hnode =>
          ⟨hfitsBelow node hnode, hbelow node hnode⟩
      · refine absurd (fun old hold => ?_) hnot
        rw [get?_insert_of_ne (hbelow node hnode).symm] at hold
        exact hfitsBelow node hnode old hold
    | some node =>
      have hpath : node.path = dir.child name := h.keyed.path_eq hchild hget
      cases node with
      | file path contents =>
        refine .inr ⟨_, List.mem_cons_self, fun hfits => ?_, rfl⟩
        cases hfits _ hget
      | directory path =>
        obtain rfl : path = dir.child name := hpath
        obtain ⟨after, hdescend, hafter, hlaid, hlast⟩ | ⟨node, hnode, hnot, hdescend⟩ :=
          ih h (show tree.get? (dir.child name).render = _ from hget) hrest
        · refine .inl ⟨after, hdescend, hafter, hlaid.cons_of_get hget (fun old hold => ?_) hbelow,
            hlast⟩
          exact Option.some.inj (hold.symm.trans hget)
        · exact .inr ⟨node, List.mem_cons_of_mem _ hnode, hnot, hdescend⟩

theorem descend_root_cases (h : tree.Closed) (hplain : (EntryPath.ofNames names).Plain) :
    (∃ after, tree.descend "" .root names =
        (after, .ok ((EntryPath.ofNames names).lead, .ofNames names)) ∧
      after.Closed ∧ tree.Laid (directories .root names) after ∧
      after.get? (EntryPath.ofNames names).render = some (.directory (.ofNames names))) ∨
    ∃ node ∈ directories .root names, ¬ tree.Fits node ∧
      tree.descend "" .root names = (tree, .error node.clash) := by
  have hroot : tree.get? EntryPath.root.render = some (.directory .root) := h.top
  exact h.descend_cases hroot hplain

theorem descend_of_get (h : tree.Closed) (hplain : (dir.under names).Plain)
    (hget : tree.get? (dir.under names).render = some (.directory (dir.under names))) :
    tree.descend dir.lead dir names = (tree, .ok ((dir.under names).lead, dir.under names)) := by
  induction names generalizing dir with
  | nil => rfl
  | cons name rest ih =>
    have hrest : ((dir.child name).under rest).Plain := hplain
    have hhere : tree.get? (dir.child name).render = some (.directory (dir.child name)) := by
      cases rest with
      | nil => exact hget
      | cons n ns => exact h.above (List.cons_ne_nil n ns) hrest hget
    have hkey : tree.get? (dir.lead ++ "/" ++ name) = some (.directory (dir.child name)) := hhere
    rw [MemoryTree.descend]
    simp only [hkey]
    exact ih hrest hget

/-- A file is put in its place, unless a directory is there. -/
theorem place_cases (h : tree.Closed) (hplain : (parent.child name).Plain) (contents : ByteArray) :
    (tree.Fits (.file (parent.child name) contents) ∧
      tree.place parent.lead parent name contents =
        (tree.insert (parent.child name).render (.file (parent.child name) contents), .ok ())) ∨
    tree.get? (parent.child name).render = some (.directory (parent.child name)) ∧
      tree.place parent.lead parent name contents =
        (tree, .error (.directoryInTheWay (parent.child name).render)) := by
  have hkey : (parent.child name).render = parent.lead ++ "/" ++ name := rfl
  rw [MemoryTree.place, ← hkey]
  cases hget : tree.get? (parent.child name).render with
  | none =>
    refine .inl ⟨fun old hold => ?_, rfl⟩
    cases hget.symm.trans hold
  | some node =>
    have hpath : node.path = parent.child name := h.keyed.path_eq hplain hget
    cases node with
    | directory path =>
      obtain rfl : path = parent.child name := hpath
      exact .inr ⟨rfl, rfl⟩
    | file path old =>
      obtain rfl : path = parent.child name := hpath
      refine .inl ⟨fun found hfound => ?_, rfl⟩
      cases hget.symm.trans hfound
      exact ⟨old, rfl⟩

/-- An edit lays its nodes over the tree, or one of them does not fit in and the tree stays. -/
theorem edit_cases (h : tree.Closed) (e : Edit) :
    (∃ after, tree.edit e = (after, .ok ()) ∧ after.Closed ∧ tree.Laid e.nodes after) ∨
    ∃ node ∈ e.nodes, ¬ tree.Fits node ∧ tree.edit e = (tree, .error node.clash) := by
  cases e with
  | directory path =>
    rw [MemoryTree.edit, makeDirectories]
    obtain ⟨after, hdescend, hafter, hlaid, -⟩ | ⟨node, hnode, hnot, hdescend⟩ :=
      h.descend_root_cases (plain_ofNames_segments path)
    · rw [hdescend]
      exact .inl ⟨after, rfl, hafter, hlaid⟩
    · rw [hdescend]
      exact .inr ⟨node, hnode, hnot, rfl⟩
  | file path contents =>
    have hplain := plain_ofNames_segments path
    rw [MemoryTree.edit, MemoryTree.writeFile, Edit.nodes]
    cases hlast : (segments path).getLast? with
    | none =>
      rw [List.getLast?_eq_none_iff.1 hlast]
      exact .inr ⟨.file .root contents, List.mem_singleton_self _, not_fits_of_directory h.top, rfl⟩
    | some name =>
      obtain ⟨parents, hparents⟩ := List.getLast?_eq_some_iff.1 hlast
      rw [hparents, List.dropLast_concat, EntryPath.ofNames_concat]
      rw [hparents, EntryPath.ofNames_concat] at hplain
      have hparent : (EntryPath.ofNames parents).Plain := (EntryPath.plain_child.1 hplain).1
      have hbefore : ∀ node ∈ directories .root parents,
          node.path.render ≠ ((EntryPath.ofNames parents).child name).render :=
        fun _ => render_ne_of_mem_directories hplain
      obtain ⟨after, hdescend, hafter, hlaid, hthere⟩ | ⟨node, hnode, hnot, hdescend⟩ :=
        h.descend_root_cases hparent
      · rw [hdescend]
        obtain ⟨hfits, hplace⟩ | ⟨hclash, hplace⟩ := hafter.place_cases hplain contents
        · exact .inl ⟨_, hplace, hafter.insert rfl hplain hthere hfits, hlaid.concat hfits hbefore⟩
        · -- the directory in the way stood in the tree, so its parents did and nothing was made
          have hget := (hlaid.others _ hbefore).symm.trans hclash
          have hnone := h.descend_of_get hparent (h.parents _ name _ hplain hget)
          obtain rfl : after = tree := congrArg Prod.fst (hdescend.symm.trans hnone)
          exact .inr ⟨_, List.mem_append_right _ (List.mem_singleton_self _),
            not_fits_of_directory hget, hplace⟩
      · rw [hdescend]
        exact .inr ⟨node, List.mem_append_left _ hnode, hnot, rfl⟩

theorem empty : MemoryTree.empty.Closed where
  keyed := (Overlay.Keyed.empty MemoryNode.path).insert (.directory .root) nofun
  top := get?_insert_self ⟨∅⟩ "/" (.directory .root)
  parents parent name node hplain hget := by
    have hne : "/" ≠ (parent.child name).render := hplain.render_child_ne.symm
    have hnone : MemoryTree.empty.get? (parent.child name).render = none := by
      rw [MemoryTree.empty, get?, getElem?_insert, if_neg hne]
      exact Std.TreeMap.getElem?_emptyc
    cases hnone.symm.trans hget

end Closed

inductive Edited (tree : MemoryTree) (e : Edit) : MemoryTree → Except IoError Unit → Prop
  | built : Edited tree e (tree.edit e).1 (tree.edit e).2
  | written (root : String) (writable : Bool) :
    Edited tree e (tree.editRoot root writable e).1 (tree.editRoot root writable e).2

/-- The trees that edits lead to, whether they succeed or fail. -/
inductive Reached : MemoryTree → Prop
  | empty : Reached empty
  | edited {tree after : MemoryTree} {e : Edit} {result : Except IoError Unit} :
    Reached tree → tree.Edited e after result → Reached after

namespace Edited

variable {e : Edit} {result : Except IoError Unit}

theorem edit_eq_or (hedit : tree.Edited e after result) :
    tree.edit e = (after, result) ∨ after = tree ∧ ∃ root, result = .error (.readOnly root) := by
  cases hedit with
  | built => exact .inl rfl
  | written root writable =>
    cases writable with
    | true => exact .inl rfl
    | false => exact .inr ⟨rfl, root, rfl⟩

/-- An edit succeeds and its nodes are in the tree, or it fails for a reason and the tree stays. -/
theorem outcome (hedit : tree.Edited e after result) (h : tree.Closed) :
    (result = .ok () ∧ after.Closed ∧ tree.Laid e.nodes after) ∨
    ∃ error, result = .error error ∧ after = tree ∧
      ((∃ root, error = .readOnly root) ∨
        ∃ node ∈ e.nodes, ¬ tree.Fits node ∧ error = node.clash) := by
  obtain htried | ⟨rfl, root, rfl⟩ := hedit.edit_eq_or
  · obtain ⟨other, hdone, hother, hlaid⟩ | ⟨node, hnode, hnot, hfailed⟩ := h.edit_cases e
    · cases hdone.symm.trans htried
      exact .inl ⟨rfl, hother, hlaid⟩
    · cases hfailed.symm.trans htried
      exact .inr ⟨node.clash, rfl, rfl, .inr ⟨node, hnode, hnot, rfl⟩⟩
  · exact .inr ⟨.readOnly root, rfl, rfl, .inl ⟨root, rfl⟩⟩

end Edited

namespace Reached

theorem closed (h : tree.Reached) : tree.Closed := by
  induction h with
  | empty => exact .empty
  | edited _ hedit ih =>
    obtain ⟨-, hafter, -⟩ | ⟨error, -, rfl, -⟩ := hedit.outcome ih
    · exact hafter
    · exact ih

theorem of_build {edits : List Edit} (h : tree.Reached) (hbuild : build edits tree = .ok after) :
    after.Reached := by
  induction edits generalizing tree with
  | nil =>
    cases hbuild
    exact h
  | cons e rest ih =>
    have hedited := h.edited (.built (e := e))
    rw [build] at hbuild
    split at hbuild
    next => cases hbuild
    next next hedit =>
      rw [hedit] at hedited
      exact ih hedited hbuild

end Reached

/-- An edit changes nothing, because the root is read-only or one of its nodes does not fit in, or
it lays its nodes over the tree and leaves the rest as it is. -/
theorem edit_all_or_nothing {e : Edit} {result : Except IoError Unit} (h : tree.Reached)
    (hedit : tree.Edited e after result) :
    (∀ error, result = .error error → after = tree ∧
      ((∃ root, error = .readOnly root) ∨
        ∃ node ∈ e.nodes, ¬ tree.Fits node ∧ error = node.clash)) ∧
    (result = .ok () → tree.Laid e.nodes after) := by
  obtain ⟨rfl, -, hlaid⟩ | ⟨error, rfl, hsame, hwhy⟩ := hedit.outcome h.closed
  · exact ⟨nofun, fun _ => hlaid⟩
  · refine ⟨fun other hother => ?_, nofun⟩
    cases hother
    exact ⟨hsame, hwhy⟩

/-- Beside a file a directory with another file is made, below it nothing. -/
theorem edits_beside_file :
    ∃ tree : MemoryTree, tree.Reached ∧
      tree.edit (.file "a/b/c" ⟨#[2]⟩) = (tree, .error (.fileInTheWay "/a/b")) ∧
      (tree.edit (.file "a/c/d" ⟨#[2]⟩)).2 = .ok () ∧
      tree.Laid (Edit.file "a/c/d" ⟨#[2]⟩).nodes (tree.edit (.file "a/c/d" ⟨#[2]⟩)).1 := by
  have hreached := Reached.empty.edited (.built (e := .file "a/b" ⟨#[1]⟩))
  obtain ⟨hfailed, -⟩ := edit_all_or_nothing hreached (.built (e := .file "a/b/c" ⟨#[2]⟩))
  obtain ⟨-, hlaid⟩ := edit_all_or_nothing hreached (.built (e := .file "a/c/d" ⟨#[2]⟩))
  exact ⟨_, hreached, Prod.ext (hfailed (.fileInTheWay "/a/b") rfl).1 rfl, rfl, hlaid rfl⟩

end MemoryTree

end Overlay
