import Mathlib.Data.List.Lex
import Mathlib.Tactic.SplitIfs
import Overlay.Proofs.Path.Normal
import Overlay.Proofs.Scan.Traversal

/-!
# Forests of names

`Item.at?` is what a list of names leads to from an item of a forest. A forest is `Proper` if its
names may stand in a path and increase on every level. Then no name occurs twice on a level, so the
items of a forest are what names lead to, `mem_items`, each of them once, in the order of their
names: `pairwise_items`. Setting an item keeps a forest proper and changes what the item's name
leads to.
-/

namespace Overlay.Forest

variable {forest inside rest : Forest} {name other : String} {item : Item} {dir path : EntryPath}

@[elab_as_elim]
theorem cons_induction {P : Forest → Prop} (nil : P nil)
    (cons : ∀ name item rest, (∀ inside, item = .directory inside → P inside) → P rest →
      P (cons name item rest)) (forest : Forest) : P forest := by
  induction forest with
  | nil => exact nil
  | file name rest ih => exact cons name .file rest nofun ih
  | directory name inside rest ihInside ih =>
    exact cons name (.directory inside) rest (fun _ h => Item.directory.inj h ▸ ihInside) ih

def names : Forest → List String
  | nil => []
  | file name rest | directory name _ rest => name :: rest.names

def Item.at? : List String → Item → Option Item
  | [], item => some item
  | name :: rest, .directory inside => (inside.find? name).bind (Item.at? rest)
  | _ :: _, .file => none

def Item.nodes (path : EntryPath) : Item → List EntryPath
  | .file => [path]
  | .directory inside => path :: inside.paths path

/-- The items below a directory with their paths, each directory before what is in it. -/
def items (dir : EntryPath) : Forest → List (EntryPath × Item)
  | nil => []
  | file name rest => (dir.child name, .file) :: rest.items dir
  | directory name inside rest =>
    (dir.child name, .directory inside) :: (inside.items (dir.child name) ++ rest.items dir)

def Item.items (path : EntryPath) : Item → List (EntryPath × Item)
  | .file => [(path, .file)]
  | .directory inside => (path, .directory inside) :: inside.items path

def Proper : Forest → Prop
  | nil => True
  | file name rest =>
    (name ≠ "" ∧ '/' ∉ name.toList) ∧ (∀ other ∈ rest.names, name < other) ∧ rest.Proper
  | directory name inside rest =>
    (name ≠ "" ∧ '/' ∉ name.toList) ∧ (∀ other ∈ rest.names, name < other) ∧ rest.Proper ∧
      inside.Proper

def Item.Proper : Item → Prop
  | .file => True
  | .directory inside => inside.Proper

theorem Item.at?_append (item : Item) (ns ms : List String) :
    item.at? (ns ++ ms) = (item.at? ns).bind (Item.at? ms) := by
  induction ns generalizing item with
  | nil => rfl
  | cons n ns ih =>
    cases item with
    | file => rfl
    | directory inside =>
      rw [List.cons_append, Item.at?, Item.at?, Option.bind_assoc]
      exact congrArg _ (funext ih)

/-- Only directories lead to anything. -/
theorem Item.eq_directory_of_at? {ns : List String} (hns : ns ≠ []) (h : (item.at? ns).isSome) :
    ∃ inside, item = .directory inside := by
  cases item with
  | directory inside => exact ⟨inside, rfl⟩
  | file =>
    obtain ⟨n, ns, rfl⟩ := List.exists_cons_of_ne_nil hns
    cases h

section Cons

theorem find?_cons : (cons name item rest).find? other =
    if name = other then some item else rest.find? other := by
  cases item <;> rfl

theorem names_cons : (cons name item rest).names = name :: rest.names := by
  cases item <;> rfl

theorem items_cons : (cons name item rest).items dir =
    item.items (dir.child name) ++ rest.items dir := by
  cases item <;> rfl

theorem proper_cons : (cons name item rest).Proper ↔
    (name ≠ "" ∧ '/' ∉ name.toList) ∧ (∀ other ∈ rest.names, name < other) ∧ rest.Proper ∧
      item.Proper := by
  cases item with
  | file => simp only [cons, Proper, Item.Proper, and_true]
  | directory inside => rfl

theorem set_cons {first : String} {old : Item} : (cons first old rest).set name item =
    if first = name then cons name item rest
    else if name < first then cons name item (cons first old rest)
    else cons first old (rest.set name item) := by
  cases old <;> rfl

end Cons

section Set

theorem find?_set (forest : Forest) (name other : String) (item : Item) :
    (forest.set name item).find? other =
      if name = other then some item else forest.find? other := by
  induction forest using cons_induction with
  | nil => exact find?_cons
  | cons first old rest _ ih =>
    rw [set_cons]
    by_cases hsame : first = name
    · rw [if_pos hsame, find?_cons, find?_cons, hsame]
      split_ifs <;> rfl
    · rw [if_neg hsame]
      by_cases hlt : name < first
      · rw [if_pos hlt, find?_cons]
      · rw [if_neg hlt, find?_cons, find?_cons, ih]
        split_ifs with hfirst hname
        · exact absurd (hfirst.trans hname.symm) hsame
        · rfl
        · rfl
        · rfl

theorem mem_names_set (h : other ∈ (forest.set name item).names) :
    other = name ∨ other ∈ forest.names := by
  induction forest using cons_induction with
  | nil =>
    rw [set, names_cons] at h
    exact List.mem_cons.1 h
  | cons first old rest _ ih =>
    rw [set_cons] at h
    rw [names_cons, List.mem_cons]
    split_ifs at h with hsame hlt
    · rw [names_cons, List.mem_cons] at h
      exact h.imp_right .inr
    · rw [names_cons, List.mem_cons, names_cons, List.mem_cons] at h
      exact h
    · rw [names_cons, List.mem_cons] at h
      rcases h with rfl | h
      · exact .inr (.inl rfl)
      · exact (ih h).imp_right .inr

theorem Proper.set (h : forest.Proper) (hname : name ≠ "" ∧ '/' ∉ name.toList)
    (hitem : item.Proper) : (forest.set name item).Proper := by
  induction forest using cons_induction with
  | nil => exact proper_cons.2 ⟨hname, nofun, trivial, hitem⟩
  | cons first old rest _ ih =>
    obtain ⟨hfirst, hbelow, hrest, hold⟩ := proper_cons.1 h
    rw [set_cons]
    split_ifs with hsame hlt
    · exact proper_cons.2 ⟨hname, hsame ▸ hbelow, hrest, hitem⟩
    · refine proper_cons.2 ⟨hname, fun other hother => ?_, h, hitem⟩
      rw [names_cons, List.mem_cons] at hother
      rcases hother with rfl | hother
      · exact hlt
      · exact String.lt_trans hlt (hbelow other hother)
    · refine proper_cons.2 ⟨hfirst, fun other hother => ?_, ih hrest, hold⟩
      rcases mem_names_set hother with rfl | hother
      · exact Std.lt_of_le_of_ne (String.not_lt.1 hlt) hsame
      · exact hbelow other hother

end Set

section Paths

theorem mem_names_of_find? (h : forest.find? name = some item) : name ∈ forest.names := by
  induction forest using cons_induction with
  | nil => cases h
  | cons first old rest _ ih =>
    rw [find?_cons] at h
    rw [names_cons, List.mem_cons]
    split_ifs at h with hname
    · exact .inl hname.symm
    · exact .inr (ih h)

theorem Proper.of_find? (h : forest.Proper) (hfind : forest.find? name = some item) :
    (name ≠ "" ∧ '/' ∉ name.toList) ∧ item.Proper := by
  induction forest using cons_induction with
  | nil => cases hfind
  | cons first old rest _ ih =>
    obtain ⟨hfirst, -, hrest, hold⟩ := proper_cons.1 h
    rw [find?_cons] at hfind
    split_ifs at hfind with hname
    · obtain rfl := Option.some.inj hfind
      exact ⟨hname ▸ hfirst, hold⟩
    · exact ih hrest hfind

theorem Item.Proper.plain_under (h : item.Proper) (hdir : dir.Plain) {ns : List String}
    (hat : (item.at? ns).isSome) : (dir.under ns).Plain := by
  induction ns generalizing item dir with
  | nil => exact hdir
  | cons n ns ih =>
    cases item with
    | file => cases hat
    | directory inside =>
      obtain ⟨found, hat⟩ := Option.isSome_iff_exists.1 hat
      obtain ⟨below, hfind, hbelow⟩ := Option.bind_eq_some_iff.1 hat
      obtain ⟨hn, hproper⟩ := Forest.Proper.of_find? h hfind
      exact ih hproper (EntryPath.plain_child.2 ⟨hdir, hn⟩) (by rw [hbelow]; rfl)

theorem map_fst_items (forest : Forest) (dir : EntryPath) :
    (forest.items dir).map Prod.fst = forest.paths dir := by
  induction forest generalizing dir with
  | nil => rfl
  | file name rest ih => rw [items, paths, List.map_cons, ih]
  | directory name inside rest ihInside ih =>
    rw [items, paths, List.map_cons, List.map_append, ihInside, ih]

theorem Item.map_fst_items (item : Item) (dir : EntryPath) :
    (item.items dir).map Prod.fst = item.nodes dir := by
  cases item with
  | file => rfl
  | directory inside => exact congrArg _ (inside.map_fst_items dir)

theorem exists_mem_names (h : (path, item) ∈ forest.items dir) :
    ∃ name ∈ forest.names, ∃ ns, path = dir.under (name :: ns) := by
  induction forest using cons_induction generalizing dir with
  | nil => cases h
  | cons name first rest ihInside ih =>
    rw [items_cons, List.mem_append] at h
    rw [names_cons]
    rcases h with h | h
    · refine ⟨name, List.mem_cons_self, ?_⟩
      cases first with
      | file => exact ⟨[], congrArg Prod.fst (List.mem_singleton.1 h)⟩
      | directory inside =>
        rcases List.mem_cons.1 h with h | h
        · exact ⟨[], congrArg Prod.fst h⟩
        · obtain ⟨m, -, ns, rfl⟩ := ihInside inside rfl h
          exact ⟨m :: ns, rfl⟩
    · obtain ⟨m, hm, hns⟩ := ih h
      exact ⟨m, List.mem_cons_of_mem name hm, hns⟩

theorem Item.exists_under {found : Item} (h : (path, found) ∈ item.items dir) :
    ∃ ns, path = dir.under ns := by
  cases item with
  | file => exact ⟨[], congrArg Prod.fst (List.mem_singleton.1 h)⟩
  | directory inside =>
    rcases List.mem_cons.1 h with h | h
    · exact ⟨[], congrArg Prod.fst h⟩
    · obtain ⟨name, -, ns, rfl⟩ := exists_mem_names h
      exact ⟨name :: ns, rfl⟩

/-- The items of a proper forest whose paths begin with a name are those of what it leads to. -/
theorem Proper.mem_items (h : forest.Proper) {ns : List String} {found : Item} :
    (dir.under (name :: ns), found) ∈ forest.items dir ↔ ∃ item, forest.find? name = some item ∧
      (dir.under (name :: ns), found) ∈ item.items (dir.child name) := by
  induction forest using cons_induction with
  | nil => simp [items, find?]
  | cons first old rest _ ih =>
    obtain ⟨-, hbelow, hrest, -⟩ := proper_cons.1 h
    rw [items_cons, List.mem_append, ih hrest, find?_cons]
    by_cases hname : first = name
    · subst hname
      rw [if_pos rfl]
      constructor
      · rintro (hold | ⟨item, hfind, -⟩)
        · exact ⟨old, rfl, hold⟩
        · exact absurd (hbelow first (mem_names_of_find? hfind)) (String.lt_irrefl first)
      · rintro ⟨item, hitem, hnode⟩
        obtain rfl := Option.some.inj hitem
        exact .inl hnode
    · rw [if_neg hname, or_iff_right]
      intro hold
      obtain ⟨ms, hms⟩ := Item.exists_under hold
      have heq : dir.under (name :: ns) = dir.under (first :: ms) := hms
      exact hname (List.cons.inj (EntryPath.under_inj.1 heq)).1.symm

theorem Item.Proper.mem_items (h : item.Proper) {ns : List String} {found : Item} :
    (dir.under ns, found) ∈ item.items dir ↔ item.at? ns = some found := by
  induction ns generalizing item dir with
  | nil =>
    rw [Item.at?, Option.some.injEq]
    cases item with
    | file => simp [Item.items, EntryPath.under, eq_comm]
    | directory inside =>
      have hnot : (dir, found) ∉ inside.items dir := fun hmem => by
        obtain ⟨name, -, ns, heq⟩ := exists_mem_names hmem
        have hnil : dir.under [] = dir.under (name :: ns) := heq
        cases EntryPath.under_inj.1 hnil
      simp [Item.items, EntryPath.under, hnot, eq_comm]
  | cons n ns ih =>
    have hself : ∀ item, (dir.under (n :: ns), found) ≠ (dir, item) := fun item heq => by
      have hnil : dir.under (n :: ns) = dir.under [] := congrArg Prod.fst heq
      exact List.cons_ne_nil n ns (EntryPath.under_inj.1 hnil)
    cases item with
    | file =>
      rw [Item.items, List.mem_singleton, Item.at?]
      exact iff_of_false (hself .file) (Option.some_ne_none found).symm
    | directory inside =>
      rw [Item.items, List.mem_cons, or_iff_right (hself _), Forest.Proper.mem_items h, Item.at?,
        Option.bind_eq_some_iff]
      refine exists_congr fun below => and_congr_right fun hfind => ?_
      exact ih (Forest.Proper.of_find? h hfind).2

theorem Item.Proper.mem_nodes (h : item.Proper) {ns : List String} :
    dir.under ns ∈ item.nodes dir ↔ (item.at? ns).isSome := by
  rw [← Item.map_fst_items, List.mem_map, Option.isSome_iff_exists]
  constructor
  · rintro ⟨⟨path, found⟩, hmem, rfl⟩
    exact ⟨found, h.mem_items.1 hmem⟩
  · rintro ⟨found, hat⟩
    exact ⟨_, h.mem_items.2 hat, rfl⟩

theorem names_lt_names {a b : String} (hab : a < b) (as bs : List String) :
    (dir.under (a :: as)).names < (dir.under (b :: bs)).names := by
  rw [EntryPath.names_under, EntryPath.names_under]
  exact List.Lex.append_left _ (List.Lex.rel hab) dir.names

theorem names_lt_names_under (dir : EntryPath) {ns : List String} (hns : ns ≠ []) :
    dir.names < (dir.under ns).names := by
  obtain ⟨n, ns, rfl⟩ := List.exists_cons_of_ne_nil hns
  have hlex : dir.names ++ [] < dir.names ++ n :: ns :=
    List.Lex.append_left _ List.Lex.nil dir.names
  rw [EntryPath.names_under]
  rwa [List.append_nil] at hlex

/-- A directory comes before what is in it. -/
theorem Item.pairwise_directory
    (h : (inside.items dir).Pairwise fun a b => a.1.names < b.1.names) :
    ((Item.directory inside).items dir).Pairwise fun a b => a.1.names < b.1.names := by
  refine List.pairwise_cons.2 ⟨?_, h⟩
  rintro ⟨path, found⟩ hmem
  obtain ⟨m, -, ns, rfl⟩ := exists_mem_names hmem
  exact names_lt_names_under _ (List.cons_ne_nil m ns)

/-- The items of a proper forest come in the order of their names. -/
theorem Proper.pairwise_items (h : forest.Proper) (dir : EntryPath) :
    (forest.items dir).Pairwise fun a b => a.1.names < b.1.names := by
  induction forest using cons_induction generalizing dir with
  | nil => exact List.Pairwise.nil
  | cons name item rest ihInside ih =>
    obtain ⟨-, hbelow, hrest, hitem⟩ := proper_cons.1 h
    rw [items_cons, List.pairwise_append]
    refine ⟨?_, ih hrest dir, ?_⟩
    · cases item with
      | file => exact List.pairwise_singleton _ _
      | directory inside => exact Item.pairwise_directory (ihInside inside rfl hitem _)
    · rintro ⟨path, found⟩ hpath ⟨other, second⟩ hother
      obtain ⟨ns, rfl⟩ := Item.exists_under hpath
      obtain ⟨m, hm, ms, rfl⟩ := exists_mem_names hother
      exact names_lt_names (hbelow m hm) ns ms

end Paths

end Overlay.Forest
