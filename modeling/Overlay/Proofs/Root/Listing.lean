import Overlay.Proofs.Root.Edits

/-!
# Listings of trees in memory

The entries of a memory tree are listed in the order of their keys. The text of a directory is a
beginning of the texts of what is in it, `EntryPath.render_lt_under`, so a directory is listed
before what is in it. `MemoryTree.WellFormed` says what a tree and its listing are, whatever edits
led to it.
-/

namespace Overlay

theorem lt_of_isPrefix {a b : String} (h : a.toList <+: b.toList) (hne : a ≠ b) : a < b := by
  rw [String.lt_iff, List.lt_iff_exists]
  refine .inl ⟨List.prefix_iff_eq_take.1 h, ?_⟩
  have hlength : a.toList.length ≠ b.toList.length := fun heq =>
    hne (String.toList_inj.1 (h.eq_of_length heq))
  have hle := h.length_le
  omega

namespace EntryPath

variable {dir : EntryPath} {names : List String}

theorem render_prefix_child (dir : EntryPath) (name : String) :
    dir.render.toList <+: (dir.child name).render.toList := by
  rw [render, toList_lead_child]
  cases dir with
  | root => exact ⟨name.toList, rfl⟩
  | child parent last => exact List.prefix_append _ _

theorem render_prefix_under (dir : EntryPath) (names : List String) :
    dir.render.toList <+: (dir.under names).render.toList := by
  induction names generalizing dir with
  | nil => exact List.prefix_rfl
  | cons name rest ih => exact (render_prefix_child dir name).trans (ih (dir.child name))

theorem Plain.render_lt_under (h : (dir.under names).Plain) (hne : names ≠ []) :
    dir.render < (dir.under names).render :=
  lt_of_isPrefix (render_prefix_under dir names) (h.render_under_ne hne).symm

end EntryPath

namespace MemoryTree

variable {tree : MemoryTree}

/-- Every entry stands under its text and in a directory, and the listing has every entry once, the
directories before what is in them. -/
structure WellFormed (tree : MemoryTree) : Prop where
  top : tree.get? "/" = some (.directory .root)
  keys : ∀ key node, tree.get? key = some node → node.path.render = key
  parents : ∀ key node parent, tree.get? key = some node → node.path.parent? = some parent →
    tree.get? parent.render = some (.directory parent)
  files : ∀ key path contents, tree.get? key = some (.file path contents) →
    ∀ names, names ≠ [] → ∀ other node, tree.get? other = some node → node.path ≠ path.under names
  listed : ∀ path, path ∈ tree.listing ↔
    ∃ node, tree.get? path.render = some node ∧ node.path = path
  nodup : tree.listing.Nodup
  before : tree.listing.Pairwise fun a b => ∀ names, names ≠ [] → a ≠ b.under names
  counted : tree.size = tree.listing.length
  resolved : ∀ key path, tree.resolve key = some path ↔ path ∈ tree.listing ∧ path.render = key

theorem Keyed.pairwise_listing (h : tree.Keyed) :
    tree.listing.Pairwise fun a b => a.render < b.render := by
  rw [listing, List.pairwise_map]
  refine Std.TreeMap.ordered_keys_toList.imp_of_mem fun {a b} ha hb hlt => ?_
  rw [Std.TreeMap.mem_toList_iff_getElem?_eq_some] at ha hb
  rw [(h a.1 a.2 ha).1, (h b.1 b.2 hb).1]
  exact compareOfLessAndEq_eq_lt.1 hlt

theorem Reached.wellFormed (h : tree.Reached) : tree.WellFormed where
  top := h.closed.top
  keys key node hget := (h.closed.keyed key node hget).1
  parents key node parent hget hparent := by
    obtain ⟨rfl, hplain⟩ := h.closed.keyed key node hget
    cases hpath : node.path with
    | root => rw [hpath] at hparent; cases hparent
    | child dir name =>
      rw [hpath] at hparent hplain hget
      cases hparent
      exact h.closed.parents _ name node hplain hget
  files key path contents hget names hne other node hother hpath := by
    obtain ⟨rfl, hplain⟩ := h.closed.keyed other node hother
    obtain ⟨rfl, -⟩ := h.closed.keyed key _ hget
    rw [hpath] at hplain hother
    cases hget.symm.trans (h.closed.above hne hplain hother)
  listed path := by
    rw [listing, Overlay.Keyed.mem_paths]
    constructor
    · rintro ⟨key, node, hget, rfl⟩
      obtain ⟨rfl, -⟩ := h.closed.keyed key node hget
      exact ⟨node, hget, rfl⟩
    · rintro ⟨node, hget, hpath⟩
      exact ⟨path.render, node, hget, hpath⟩
  nodup := h.closed.keyed.pairwise_listing.imp fun hlt heq => by
    rw [heq] at hlt
    exact String.lt_irrefl _ hlt
  before := h.closed.keyed.pairwise_listing.imp_of_mem fun {a b} ha _ hlt names hne heq => by
    have hplain : a.Plain := Overlay.Keyed.plain_of_mem h.closed.keyed ha
    rw [heq] at hplain hlt
    exact String.lt_irrefl _ (String.lt_trans hlt (hplain.render_lt_under hne))
  counted := by
    rw [listing, List.length_map, Std.TreeMap.length_toList, size]
  resolved key path := Overlay.Keyed.resolves h.closed.keyed

/-- A built tree to which a write failed; what is in a directory need not follow it at once. -/
theorem wellFormed_built : ∃ built tree : MemoryTree,
    build [.file "a/b" ⟨#[1]⟩, .directory "a-c"] .empty = .ok built ∧
      built.Edited (.file "a" ⟨#[2]⟩) tree (.error (.directoryInTheWay "/a")) ∧ tree.Reached ∧
      tree.listing.map EntryPath.render = ["/", "/a", "/a-c", "/a/b"] ∧ tree.WellFormed := by
  let built := (((empty.edit (.file "a/b" ⟨#[1]⟩)).1).edit (.directory "a-c")).1
  have hbuilt : build [.file "a/b" ⟨#[1]⟩, .directory "a-c"] .empty = .ok built := rfl
  have hedited : built.Edited (.file "a" ⟨#[2]⟩) (built.edit (.file "a" ⟨#[2]⟩)).1
      (.error (.directoryInTheWay "/a")) := .built
  have hreached := (Reached.empty.of_build hbuilt).edited hedited
  exact ⟨built, _, hbuilt, hedited, hreached, rfl, hreached.wellFormed⟩

end MemoryTree

end Overlay
