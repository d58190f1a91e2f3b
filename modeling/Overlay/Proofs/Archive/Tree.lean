import Mathlib.Data.List.Nodup
import Overlay.Proofs.Archive.Forest
import Overlay.Proofs.Path.Keyed

/-!
# The map and the tree of an archive

An archive keeps its entries in a map and the names in a forest. `ArchiveTree.Linked` says that the
two are about the same nodes, from some directory down: every entry stands under the text of its
own path, and what names lead to in the forest is what stands under their path in the map, be it a
file or a directory. Entering a name keeps them linked, however badly it fits what is there, and
touches nothing but what is below the directory it is entered into.
-/

namespace Overlay

def Forest.Item.isFile : Item → Bool
  | .file => true
  | .directory _ => false

namespace ArchiveTree

abbrev Entries := Std.TreeMap String ArchiveEntry

variable {entries after : Entries} {forest : Forest} {tree : ArchiveTree} {dir : EntryPath}
  {name : String} {item : Forest.Item} {item? : Option Forest.Item}

/-- From a path down, the entries are those of an item, or there are none. -/
def Agrees (entries : Entries) (path : EntryPath) (item? : Option Forest.Item) : Prop :=
  ∀ ns, (path.under ns).Plain →
    entries[(path.under ns).render]?.map (fun entry => entry.backing.isSome) =
      (item?.bind (Forest.Item.at? ns)).map Forest.Item.isFile

structure Linked (tree : ArchiveTree) (dir : EntryPath) : Prop where
  plain : dir.Plain
  keyed : Keyed ArchiveEntry.path tree.entries
  proper : tree.forest.Proper
  agrees : Agrees tree.entries dir (some (.directory tree.forest))

def SameBut (dir : EntryPath) (entries after : Entries) : Prop :=
  ∀ path : EntryPath, path.Plain → (∀ n ns, path ≠ dir.under (n :: ns)) →
    after[path.render]? = entries[path.render]?

namespace Agrees

theorem below (h : Agrees entries dir (some (.directory forest))) (name : String) :
    Agrees entries (dir.child name) (forest.find? name) := fun ns hplain => h (name :: ns) hplain

theorem isSome_eq (h : Agrees entries dir item?) (hdir : dir.Plain) :
    entries[dir.render]?.isSome = item?.isSome := by
  have hkind := congrArg Option.isSome (h [] hdir)
  rw [Option.isSome_map, Option.isSome_map] at hkind
  cases item? <;> exact hkind

theorem get_directory (h : Agrees entries dir (some (.directory forest))) (hdir : dir.Plain)
    (hkeyed : Keyed ArchiveEntry.path entries) : entries[dir.render]? = some ⟨dir, none⟩ := by
  obtain ⟨⟨path, backing⟩, hget⟩ := Option.isSome_iff_exists.1 (h.isSome_eq hdir)
  have hpath : path = dir := hkeyed.path_eq hdir hget
  have hkind : entries[dir.render]?.map (fun entry => entry.backing.isSome) = some false :=
    h [] hdir
  rw [hget, Option.map_some, Option.some.injEq, Option.isSome_eq_false_iff] at hkind
  obtain rfl : backing = none := Option.isNone_iff_eq_none.1 hkind
  rw [hget, hpath]

/-- A new entry is a file or an empty directory. -/
theorem insert (h : Agrees entries dir none) (hdir : dir.Plain) (backing : Option String)
    (hitem : item = if backing.isSome then .file else .directory .nil) :
    Agrees (entries.insert dir.render ⟨dir, backing⟩) dir (some item) := by
  intro ns hplain
  rw [getElem?_insert]
  cases ns with
  | nil =>
    rw [if_pos (by rfl), hitem]
    cases backing <;> rfl
  | cons n ns =>
    have hne : dir.render ≠ (dir.under (n :: ns)).render := fun heq => by
      have hnil : dir.under [] = dir.under (n :: ns) := hdir.render_inj hplain heq
      cases EntryPath.under_inj.1 hnil
    rw [if_neg hne, h (n :: ns) hplain, hitem]
    cases backing <;> rfl

end Agrees

/-- An item is set in the forest, and what is under its path in the map. -/
theorem Linked.set (h : tree.Linked dir) (hname : (dir.child name).Plain)
    (hkeyed : Keyed ArchiveEntry.path after)
    (hproper : item.Proper) (hagrees : Agrees after (dir.child name) (some item))
    (hsame : ∀ path : EntryPath, path.Plain → (∀ ns, path ≠ dir.under (name :: ns)) →
      after[path.render]? = tree.entries[path.render]?) :
    Linked ⟨after, tree.forest.set name item⟩ dir ∧ SameBut dir tree.entries after := by
  refine ⟨⟨h.plain, hkeyed, h.proper.set (EntryPath.plain_child.1 hname).2 hproper, ?_⟩,
    fun path hplain hpath => hsame path hplain (hpath name)⟩
  intro ns hplain
  dsimp only
  cases ns with
  | nil =>
    rw [hsame _ hplain fun ms heq => by cases EntryPath.under_inj.1 heq]
    exact h.agrees [] hplain
  | cons n ns =>
    have hat : (some (Forest.Item.directory (tree.forest.set name item))).bind
        (Forest.Item.at? (n :: ns)) =
          ((tree.forest.set name item).find? n).bind (Forest.Item.at? ns) := rfl
    rw [hat, Forest.find?_set]
    by_cases hn : name = n
    · subst hn
      rw [if_pos rfl]
      exact hagrees ns hplain
    · have hother : ∀ ms, dir.under (n :: ns) ≠ dir.under (name :: ms) := fun ms heq =>
        hn (List.cons.inj (EntryPath.under_inj.1 heq)).1.symm
      rw [if_neg hn, hsame _ hplain hother]
      exact h.agrees.below n ns hplain

section Place

variable {segment : String} {rest : List String} (backing : String) (isDirectory : Bool)

/-- A segment that stands nowhere is entered, as a directory if anything is to be in it. -/
theorem place_vacant (hget : entries[(dir.child segment).render]? = none)
    (hfind : forest.find? segment = none) :
    place backing isDirectory (segment :: rest) dir.lead dir ⟨entries, forest⟩ =
      if !rest.isEmpty || isDirectory then
        let below := place backing isDirectory rest (dir.child segment).lead (dir.child segment)
          ⟨entries.insert (dir.child segment).render ⟨dir.child segment, none⟩, .nil⟩
        ⟨below.entries, forest.set segment (.directory below.forest)⟩
      else
        ⟨entries.insert (dir.child segment).render ⟨dir.child segment, some backing⟩,
          forest.set segment .file⟩ := by
  have hkey : entries[dir.lead ++ "/" ++ segment]? = none := hget
  simp only [place, hkey, hfind]
  split_ifs with hinner
  · rfl
  · rfl

/-- A file that stands in the way stays, and so does everything else. -/
theorem place_file {existing : ArchiveEntry}
    (hget : entries[(dir.child segment).render]? = some existing)
    (hfind : forest.find? segment = some .file) :
    place backing isDirectory (segment :: rest) dir.lead dir ⟨entries, forest⟩ =
      ⟨entries, forest⟩ := by
  have hkey : entries[dir.lead ++ "/" ++ segment]? = some existing := hget
  simp only [place, hkey, hfind, ite_self]

/-- What comes behind a directory is entered into it. -/
theorem place_directory {inside : Forest}
    (hget : entries[(dir.child segment).render]? = some ⟨dir.child segment, none⟩)
    (hfind : forest.find? segment = some (.directory inside)) :
    place backing isDirectory (segment :: rest) dir.lead dir ⟨entries, forest⟩ =
      let below := place backing isDirectory rest (dir.child segment).lead (dir.child segment)
        ⟨entries, inside⟩
      ⟨below.entries, forest.set segment (.directory below.forest)⟩ := by
  have hkey : entries[dir.lead ++ "/" ++ segment]? = some ⟨dir.child segment, none⟩ := hget
  simp only [place, hkey, hfind, Option.isSome_none, Bool.false_and, if_neg Bool.false_ne_true]
  rfl

end Place

theorem Linked.place (h : tree.Linked dir) (backing : String) (isDirectory : Bool)
    {segments : List String} (hsegments : (dir.under segments).Plain) :
    (place backing isDirectory segments dir.lead dir tree).Linked dir ∧
      SameBut dir tree.entries (place backing isDirectory segments dir.lead dir tree).entries := by
  induction segments generalizing dir tree with
  | nil => exact ⟨h, fun _ _ _ => rfl⟩
  | cons segment rest ih =>
    obtain ⟨entries, forest⟩ := tree
    have hchild : (dir.child segment).Plain := EntryPath.Plain.of_under hsegments
    have hbelow : Agrees entries (dir.child segment) (forest.find? segment) :=
      h.agrees.below segment
    -- what comes of the segment once it is a directory
    have hdescend : ∀ (entries' : Entries) (inside : Forest),
        Keyed ArchiveEntry.path entries' → inside.Proper →
        Agrees entries' (dir.child segment) (some (.directory inside)) →
        (∀ path : EntryPath, path.Plain → path ≠ dir.child segment →
          entries'[path.render]? = entries[path.render]?) →
        let below := ArchiveTree.place backing isDirectory rest (dir.child segment).lead
          (dir.child segment) ⟨entries', inside⟩
        Linked ⟨below.entries, forest.set segment (.directory below.forest)⟩ dir ∧
          SameBut dir entries below.entries := by
      intro entries' inside hkeyed hinside hagrees hsame below
      have hlinked : Linked ⟨entries', inside⟩ (dir.child segment) :=
        ⟨hchild, hkeyed, hinside, hagrees⟩
      obtain ⟨hafter, hbut⟩ := ih hlinked hsegments
      refine h.set hchild hafter.keyed hafter.proper hafter.agrees fun path hplain hpath => ?_
      rw [hbut path hplain fun n ns => hpath (n :: ns), hsame path hplain (hpath [])]
    have hinsert : ∀ (entry : ArchiveEntry) (path : EntryPath), path.Plain →
        path ≠ dir.child segment →
        (entries.insert (dir.child segment).render entry)[path.render]? =
          entries[path.render]? := by
      intro entry path hplain hne
      rw [getElem?_insert, if_neg fun heq => hne (hplain.render_inj hchild heq.symm)]
    cases hfind : forest.find? segment with
    | none =>
      rw [hfind] at hbelow
      have hget := Option.isSome_eq_false_iff.1 (hbelow.isSome_eq hchild)
      rw [place_vacant backing isDirectory (Option.isNone_iff_eq_none.1 hget) hfind]
      split_ifs with hinner
      · exact hdescend _ .nil (h.keyed.insert ⟨_, none⟩ hchild) trivial
          (hbelow.insert hchild none rfl) (hinsert _)
      · exact h.set hchild (h.keyed.insert ⟨_, some backing⟩ hchild) trivial
          (hbelow.insert hchild (some backing) rfl)
          fun path hplain hpath => hinsert _ path hplain (hpath [])
    | some item =>
      rw [hfind] at hbelow
      cases item with
      | file =>
        obtain ⟨existing, hget⟩ := Option.isSome_iff_exists.1 (hbelow.isSome_eq hchild)
        rw [place_file backing isDirectory hget hfind]
        exact ⟨h, fun _ _ _ => rfl⟩
      | directory inside =>
        rw [place_directory backing isDirectory (hbelow.get_directory hchild h.keyed) hfind]
        have hinside := (h.proper.of_find? hfind).2
        exact hdescend entries inside h.keyed hinside hbelow fun _ _ _ => rfl

theorem linked_empty : Linked empty .root := by
  have hplain : EntryPath.root.Plain := nofun
  have hkeyed := Keyed.empty ArchiveEntry.path
  have hnone : Agrees ∅ .root none := fun ns _ => by simp
  exact ⟨hplain, hkeyed.insert ⟨.root, none⟩ hplain, trivial, hnone.insert hplain none rfl⟩

theorem Linked.insert (h : tree.Linked .root) (name : String) : (tree.insert name).Linked .root :=
  (h.place name (namesDirectory name) (plain_ofNames_segments name)).1

/-- What holds of the empty tree and is kept by every name holds of the tree of any names. -/
theorem ofNames_induction {P : ArchiveTree → Prop} (hempty : P empty)
    (hinsert : ∀ tree name, P tree → P (tree.insert name)) (archive : String)
    (names : List String) : P (ofNames archive names).value := by
  have hfoldl : ∀ (names : List String) (tree : ArchiveTree), P tree →
      P (names.foldl ArchiveTree.insert tree) := by
    intro names
    induction names with
    | nil => exact fun _ h => h
    | cons name rest ih => exact fun tree h => ih _ (hinsert tree name h)
  exact hfoldl _ empty hempty

theorem linked_ofNames (archive : String) (names : List String) :
    (ofNames archive names).value.Linked .root :=
  ofNames_induction (P := fun tree => tree.Linked .root) linked_empty
    (fun _ name h => h.insert name) archive names

namespace Linked

theorem mem_nodes (h : tree.Linked .root) {ns : List String} :
    EntryPath.root.under ns ∈ Forest.nodes (some tree.forest) ↔
      ((Forest.Item.directory tree.forest).at? ns).isSome := by
  have hproper : (Forest.Item.directory tree.forest).Proper := h.proper
  exact hproper.mem_nodes

theorem plain_nodes (h : tree.Linked .root) :
    ∀ path ∈ Forest.nodes (some tree.forest), path.Plain := by
  intro path hpath
  have hproper : (Forest.Item.directory tree.forest).Proper := h.proper
  rw [← path.root_under_names] at hpath ⊢
  exact hproper.plain_under h.plain (h.mem_nodes.1 hpath)

theorem exists_entry (h : tree.Linked .root) {ns : List String}
    (hat : (Forest.Item.directory tree.forest).at? ns = some item) :
    ∃ backing, tree.entries[(EntryPath.root.under ns).render]? =
      some ⟨EntryPath.root.under ns, backing⟩ ∧ backing.isSome = item.isFile := by
  have hproper : (Forest.Item.directory tree.forest).Proper := h.proper
  have hplain := hproper.plain_under h.plain (Option.isSome_of_eq_some hat)
  have hkind := h.agrees ns hplain
  rw [Option.bind_some, hat] at hkind
  obtain ⟨⟨path, backing⟩, hget, hfile⟩ := Option.map_eq_some_iff.1 hkind
  obtain rfl : path = EntryPath.root.under ns := h.keyed.path_eq hplain hget
  exact ⟨backing, hget, hfile⟩

/-- What stands in the map is what the names of its path lead to in the tree. -/
theorem exists_item (h : tree.Linked .root) {key : String} {entry : ArchiveEntry}
    (hget : tree.entries[key]? = some entry) :
    ∃ item, (Forest.Item.directory tree.forest).at? entry.path.names = some item ∧
      item.isFile = entry.backing.isSome := by
  obtain ⟨rfl, hplain⟩ := h.keyed key entry hget
  rw [← entry.path.root_under_names] at hplain hget
  have hkind := h.agrees entry.path.names hplain
  rw [hget, Option.map_some, Option.bind_some] at hkind
  exact Option.map_eq_some_iff.1 hkind.symm

/-- An archive resolves the paths of its tree, each under its own text. -/
theorem resolve_iff (h : tree.Linked .root) {key : String} {path : EntryPath} :
    tree.resolve key = some path ↔
      path ∈ Forest.nodes (some tree.forest) ∧ path.render = key := by
  rw [resolve, Option.map_eq_some_iff]
  constructor
  · rintro ⟨entry, hget, rfl⟩
    obtain ⟨item, hat, -⟩ := h.exists_item hget
    have hmem := h.mem_nodes.2 (Option.isSome_of_eq_some hat)
    rw [EntryPath.root_under_names] at hmem
    exact ⟨hmem, (h.keyed key entry hget).1⟩
  · rintro ⟨hpath, rfl⟩
    rw [← path.root_under_names] at hpath ⊢
    obtain ⟨item, hat⟩ := Option.isSome_iff_exists.1 (h.mem_nodes.1 hpath)
    obtain ⟨backing, hget, -⟩ := h.exists_entry hat
    exact ⟨_, hget, rfl⟩

theorem nodup_nodes (h : tree.Linked .root) : (Forest.nodes (some tree.forest)).Nodup := by
  have hitems := Forest.Item.pairwise_directory (h.proper.pairwise_items .root)
  have hnodes : Forest.nodes (some tree.forest) =
      ((Forest.Item.directory tree.forest).items .root).map Prod.fst :=
    (Forest.Item.map_fst_items (.directory tree.forest) .root).symm
  rw [hnodes, List.Nodup, List.pairwise_map]
  refine hitems.imp fun hlt heq => ?_
  rw [heq] at hlt
  exact List.lt_irrefl _ hlt

theorem size_eq (h : tree.Linked .root) :
    tree.size = (Forest.nodes (some tree.forest)).length := by
  have hrenders : ((Forest.nodes (some tree.forest)).map EntryPath.render).Nodup := by
    refine List.Nodup.map_on (fun a ha b hb => ?_) h.nodup_nodes
    exact (h.plain_nodes a ha).render_inj (h.plain_nodes b hb)
  have hkeys : tree.entries.keys.Perm ((Forest.nodes (some tree.forest)).map EntryPath.render) := by
    rw [List.perm_ext_iff_of_nodup Std.TreeMap.nodup_keys hrenders]
    intro key
    have hresolve : tree.entries[key]?.isSome ↔ ∃ path, tree.resolve key = some path := by
      rw [← Option.isSome_iff_exists, resolve, Option.isSome_map]
    rw [Std.TreeMap.mem_keys, Std.TreeMap.mem_iff_isSome_getElem?, hresolve, List.mem_map]
    exact exists_congr fun path => h.resolve_iff
  rw [size, ← Std.TreeMap.length_keys, hkeys.length_eq, List.length_map]

end Linked

end ArchiveTree

end Overlay
