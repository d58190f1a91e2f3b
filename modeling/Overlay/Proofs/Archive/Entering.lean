import Overlay.Proofs.Archive.Tree

/-!
# Entering names into an archive

A name asks for a directory at each of its proper prefixes and for an entry of its own. Either all
that is missing of these is added, `ArchiveTree.Added`, or nothing is changed, because the name is
`ArchiveTree.Barred`. Half of a name is never entered: a place is only made where nothing stands,
and then nothing stands below it that could be in the way.

As every entry is asked for by some name, it stands under its own segments: `ArchiveTree.InStep`
says how the map and the tree of an archive correspond, whatever its names are.
-/

namespace Overlay

namespace Forest

variable {forest : Forest} {name : String} {item : Item}

theorem Proper.set_eq_self (h : forest.Proper) (hfind : forest.find? name = some item) :
    forest.set name item = forest := by
  induction forest using cons_induction with
  | nil => cases hfind
  | cons first old rest _ ih =>
    obtain ⟨-, hbelow, hrest, -⟩ := proper_cons.1 h
    rw [find?_cons] at hfind
    rw [set_cons]
    by_cases hsame : first = name
    · rw [if_pos hsame] at hfind ⊢
      rw [Option.some.inj hfind, hsame]
    · rw [if_neg hsame] at hfind ⊢
      have hlt : first < name := hbelow name (mem_names_of_find? hfind)
      rw [if_neg (String.lt_asymm hlt), ih hrest hfind]

end Forest

namespace ArchiveTree

variable {entries grown after : Entries} {tree : ArchiveTree} {dir : EntryPath} {name : String}
  {names : List String} {backing : String} {isDirectory : Bool}

/-- Why entering names below a directory changes nothing. -/
inductive Barred (entries : Entries) (isDirectory : Bool) (dir : EntryPath) (names : List String) :
    Prop
  | nameless (h : names = [])
  | taken (h : (dir.under names).render ∈ entries)
  /-- A file stands where a directory is asked for. -/
  | blocked {ns : List String} {entry : ArchiveEntry} (hns : ns <+: names)
      (hdirectory : ns ≠ names ∨ isDirectory = true)
      (hget : entries[(dir.under ns).render]? = some entry) (hfile : entry.backing.isSome = true)

structure Added (entries : Entries) (backing : String) (isDirectory : Bool) (dir : EntryPath)
    (names : List String) (after : Entries) : Prop where
  vacant : entries[(dir.under names).render]? = none
  kept : ∀ (key : String) (entry : ArchiveEntry), entries[key]? = some entry →
    after[key]? = some entry
  own : after[(dir.under names).render]? =
    some ⟨dir.under names, if isDirectory then none else some backing⟩
  above : ∀ ns, ns <+: names → ns ≠ names →
    after[(dir.under ns).render]? = some ⟨dir.under ns, none⟩
  others : ∀ key, (∀ ns, ns <+: names → (dir.under ns).render ≠ key) → after[key]? = entries[key]?

namespace Added

theorem not_barred (h : Added entries backing isDirectory dir names after)
    (hdir : entries[dir.render]? = some ⟨dir, none⟩) : ¬ Barred entries isDirectory dir names := by
  rintro (rfl | htaken | ⟨hns, hdirectory, hget, hfile⟩)
  · cases hdir.symm.trans h.vacant
  · rw [Std.TreeMap.mem_iff_isSome_getElem?, h.vacant] at htaken
    cases htaken
  · rename_i ns entry
    by_cases hsame : ns = names
    · rw [hsame, h.vacant] at hget
      cases hget
    · obtain rfl := Option.some.inj ((h.above ns hns hsame).symm.trans (h.kept _ _ hget))
      cases hfile

theorem single (hdir : entries[dir.render]? = some ⟨dir, none⟩)
    (hvacant : entries[(dir.child name).render]? = none) :
    Added entries backing isDirectory dir [name] (entries.insert (dir.child name).render
      ⟨dir.child name, if isDirectory then none else some backing⟩) where
  vacant := hvacant
  kept key entry hget := by
    have hne : (dir.child name).render ≠ key := fun heq => by
      rw [heq, hget] at hvacant
      cases hvacant
    rw [getElem?_insert, if_neg hne, hget]
  own := (getElem?_insert ..).trans (if_pos rfl)
  above ns hns hne := by
    obtain rfl | ⟨rest, rfl, hrest⟩ := List.prefix_cons_iff.1 hns
    · have hdiffers : (dir.child name).render ≠ dir.render := fun heq => by
        rw [heq, hdir] at hvacant
        cases hvacant
      rw [getElem?_insert]
      exact (if_neg hdiffers).trans hdir
    · exact absurd (congrArg _ (List.prefix_nil.1 hrest)) hne
  others key hkey := by
    have hne : (dir.child name).render ≠ key := hkey [name] List.prefix_rfl
    rw [getElem?_insert, if_neg hne]

/-- The first of the names leads to a directory, which is there or has just been made. -/
theorem cons {rest : List String} (h : Added grown backing isDirectory (dir.child name) rest after)
    (hdir : entries[dir.render]? = some ⟨dir, none⟩)
    (hkept : ∀ (key : String) (entry : ArchiveEntry), entries[key]? = some entry →
      grown[key]? = some entry)
    (hothers : ∀ key, (dir.child name).render ≠ key → grown[key]? = entries[key]?) :
    Added entries backing isDirectory dir (name :: rest) after where
  vacant := by
    rw [Option.eq_none_iff_forall_ne_some]
    intro entry hget
    cases h.vacant.symm.trans (hkept _ _ hget)
  kept key entry hget := h.kept key entry (hkept key entry hget)
  own := h.own
  above ns hns hne := by
    obtain rfl | ⟨ns, rfl, hrest⟩ := List.prefix_cons_iff.1 hns
    · exact h.kept _ _ (hkept _ _ hdir)
    · exact h.above ns hrest fun hsame => hne (congrArg _ hsame)
  others key hkey := by
    rw [h.others key fun ns hns => hkey (name :: ns) (List.cons_prefix_cons.2 ⟨rfl, hns⟩)]
    exact hothers key (hkey [name] (List.cons_prefix_cons.2 ⟨rfl, List.nil_prefix⟩))

end Added

theorem Barred.cons {rest : List String} (h : Barred entries isDirectory (dir.child name) rest)
    (hchild : (dir.child name).render ∈ entries) :
    Barred entries isDirectory dir (name :: rest) := by
  obtain rfl | htaken | ⟨hns, hdirectory, hget, hfile⟩ := h
  · exact .taken hchild
  · exact .taken htaken
  · refine .blocked (List.cons_prefix_cons.2 ⟨rfl, hns⟩) ?_ hget hfile
    exact hdirectory.imp_left fun hne hsame => hne (List.cons.inj hsame).2

namespace Linked

variable {rest : List String}

theorem get_self (h : tree.Linked dir) : tree.entries[dir.render]? = some ⟨dir, none⟩ :=
  h.agrees.get_directory h.plain h.keyed

/-- Where nothing stands all names are entered. -/
theorem added_of_vacant (h : tree.Linked dir) (hfind : tree.forest.find? name = none)
    (hplain : (dir.under (name :: rest)).Plain) (backing : String) (isDirectory : Bool) :
    Added tree.entries backing isDirectory dir (name :: rest)
      (ArchiveTree.place backing isDirectory (name :: rest) dir.lead dir tree).entries := by
  induction rest generalizing name dir tree with
  | nil =>
    obtain ⟨entries, forest⟩ := tree
    have hvacant : entries[(dir.child name).render]? = none := by
      have hkind := h.agrees.below name [] hplain
      rw [hfind] at hkind
      exact Option.map_eq_none_iff.1 hkind
    have hadded : Added entries backing isDirectory dir [name] _ := .single h.get_self hvacant
    rw [place_vacant backing isDirectory hvacant hfind]
    cases isDirectory with
    | true => exact hadded
    | false => exact hadded
  | cons next rest ih =>
    obtain ⟨entries, forest⟩ := tree
    have hchild : (dir.child name).Plain := EntryPath.Plain.of_under hplain
    have hbelow : Agrees entries (dir.child name) none := hfind ▸ h.agrees.below name
    have hvacant : entries[(dir.child name).render]? = none :=
      Option.map_eq_none_iff.1 (hbelow [] hchild)
    have hlinked : Linked ⟨entries.insert (dir.child name).render ⟨dir.child name, none⟩, .nil⟩
        (dir.child name) :=
      ⟨hchild, h.keyed.insert ⟨_, none⟩ hchild, trivial, hbelow.insert hchild none rfl⟩
    rw [place_vacant backing isDirectory hvacant hfind]
    refine (ih hlinked rfl hplain).cons h.get_self (fun key entry hget => ?_) fun key hkey => ?_
    · have hne : (dir.child name).render ≠ key := fun heq => by
        cases hget.symm.trans (heq ▸ hvacant)
      rw [getElem?_insert, if_neg hne, hget]
    · rw [getElem?_insert, if_neg hkey]

/-- A file bars what is to be entered at its place or below it. -/
theorem barred_of_file (h : tree.Linked dir) (hfind : tree.forest.find? name = some .file)
    (hchild : (dir.child name).Plain) (isDirectory : Bool) :
    Barred tree.entries isDirectory dir (name :: rest) := by
  have hkind : tree.entries[(dir.child name).render]?.map (fun entry => entry.backing.isSome) =
      some true := by
    have hagrees := h.agrees.below name [] hchild
    rw [hfind] at hagrees
    exact hagrees
  obtain ⟨existing, hget, hfile⟩ := Option.map_eq_some_iff.1 hkind
  by_cases hrest : rest = []
  · subst hrest
    exact .taken (Std.TreeMap.mem_iff_isSome_getElem?.2 (Option.isSome_of_eq_some hget))
  · have hns : [name] <+: name :: rest := List.cons_prefix_cons.2 ⟨rfl, List.nil_prefix⟩
    exact .blocked hns (.inl fun hsame => hrest (List.cons.inj hsame).2.symm) hget hfile

/-- Names are barred and nothing is changed, or what is missing is added. -/
theorem place_cases (h : tree.Linked dir) (hplain : (dir.under names).Plain) (backing : String)
    (isDirectory : Bool) :
    (Barred tree.entries isDirectory dir names ∧
      ArchiveTree.place backing isDirectory names dir.lead dir tree = tree) ∨
    Added tree.entries backing isDirectory dir names
      (ArchiveTree.place backing isDirectory names dir.lead dir tree).entries := by
  induction names generalizing dir tree with
  | nil => exact .inl ⟨.nameless rfl, rfl⟩
  | cons name rest ih =>
    have hchild : (dir.child name).Plain := EntryPath.Plain.of_under hplain
    cases hfind : tree.forest.find? name with
    | none => exact .inr (h.added_of_vacant hfind hplain backing isDirectory)
    | some item =>
      obtain ⟨entries, forest⟩ := tree
      have hbelow : Agrees entries (dir.child name) (some item) := hfind ▸ h.agrees.below name
      obtain ⟨existing, hget⟩ := Option.isSome_iff_exists.1 (hbelow.isSome_eq hchild)
      cases item with
      | file =>
        refine .inl ⟨h.barred_of_file hfind hchild isDirectory, ?_⟩
        exact place_file backing isDirectory hget hfind
      | directory inside =>
        have hlinked : Linked ⟨entries, inside⟩ (dir.child name) :=
          ⟨hchild, h.keyed, (h.proper.of_find? hfind).2, hbelow⟩
        rw [place_directory backing isDirectory hlinked.get_self hfind]
        obtain ⟨hbarred, hsame⟩ | hadded := ih hlinked hplain
        · have hmem : (dir.child name).render ∈ entries :=
            Std.TreeMap.mem_iff_isSome_getElem?.2 (Option.isSome_of_eq_some hget)
          have hset : forest.set name (.directory inside) = forest := h.proper.set_eq_self hfind
          refine .inl ⟨hbarred.cons hmem, ?_⟩
          rw [hsame]
          exact congrArg _ hset
        · exact .inr (hadded.cons h.get_self (fun _ _ => id) fun _ _ => rfl)

end Linked

/-- Entering a name leaves all entries as they are. It changes nothing if the name is barred, and
adds what is missing if it is not; a name that leads out of the archive is not entered at all. -/
theorem insert_all_or_nothing (archive : String) (names : List String) (name : String) :
    let tree := (ofNames archive names).value
    let barred := Barred tree.entries (namesDirectory name) .root (segments name)
    (∀ (key : String) (entry : ArchiveEntry), tree.entries[key]? = some entry →
      (tree.insert name).entries[key]? = some entry) ∧
    (barred → tree.insert name = tree) ∧
    (¬ barred → Added tree.entries name (namesDirectory name) .root (segments name)
      (tree.insert name).entries) ∧
    (ofNames archive (names ++ [name])).value =
      if escapes name then tree else tree.insert name := by
  intro tree barred
  have hlinked : tree.Linked .root := linked_ofNames archive names
  have hcases := hlinked.place_cases (plain_ofNames_segments name) name (namesDirectory name)
  refine ⟨fun key entry hget => ?_, fun hbarred => ?_, fun hfree => ?_, ?_⟩
  · obtain ⟨-, hsame⟩ | hadded := hcases
    · exact (congrArg (fun tree : ArchiveTree => tree.entries[key]?) hsame).trans hget
    · exact hadded.kept key entry hget
  · obtain ⟨-, hsame⟩ | hadded := hcases
    · exact hsame
    · exact absurd hbarred (hadded.not_barred hlinked.get_self)
  · obtain ⟨hbarred, -⟩ | hadded := hcases
    · exact absurd hbarred hfree
    · exact hadded
  · rw [ofNames, List.filter_append, List.foldl_append]
    by_cases hescapes : escapes name = true
    · simp [hescapes, tree, ofNames]
    · simp [hescapes, tree, ofNames]

/-- Below a file nothing is entered, and beside it a directory. -/
theorem insert_all_or_nothing_beside_file :
    let tree := (ofNames "jar" ["a/b"]).value
    tree.insert "a/b/c" = tree ∧
      Added tree.entries "a\\c/" true .root ["a", "c"] (tree.insert "a\\c/").entries := by
  intro tree
  obtain ⟨-, hbelow, -, -⟩ := insert_all_or_nothing "jar" ["a/b"] "a/b/c"
  obtain ⟨-, hbarred, hfree, -⟩ := insert_all_or_nothing "jar" ["a/b"] "a\\c/"
  refine ⟨hbelow ?_, hfree fun h => ?_⟩
  · have hns : ["a", "b"] <+: segments "a/b/c" := ⟨["c"], rfl⟩
    exact .blocked hns (.inl (by decide)) rfl rfl
  · have hevents : (tree.insert "a\\c/").events = tree.events := congrArg events (hbarred h)
    revert hevents
    decide

/-- An entry stands where some name asks for it, and what backs it up has its segments. -/
def Named (entries : Entries) : Prop := ∀ (key : String) (entry : ArchiveEntry),
  entries[key]? = some entry →
    (∃ name, entry.path.names <+: segments name) ∧
    ∀ name, entry.backing = some name → segments name = entry.path.names

theorem Added.named (h : Added entries name isDirectory .root (segments name) after)
    (hentries : Named entries) : Named after := by
  intro key entry hget
  by_cases hasked : ∃ ns, ns <+: segments name ∧ (EntryPath.root.under ns).render = key
  · obtain ⟨ns, hns, rfl⟩ := hasked
    have hnames : (EntryPath.root.under ns).names = ns := EntryPath.names_under .root ns
    by_cases hall : ns = segments name
    · subst hall
      obtain rfl := Option.some.inj (h.own.symm.trans hget)
      refine ⟨⟨name, [], (List.append_nil _).trans hnames⟩, fun other hother => ?_⟩
      cases isDirectory with
      | true => cases hother
      | false =>
        obtain rfl := Option.some.inj hother
        exact hnames.symm
    · obtain rfl := Option.some.inj ((h.above ns hns hall).symm.trans hget)
      exact ⟨⟨name, hnames.symm ▸ hns⟩, nofun⟩
  · rw [h.others key fun ns hns hrender => hasked ⟨ns, hns, hrender⟩] at hget
    exact hentries key entry hget

theorem named_ofNames (archive : String) (names : List String) :
    Named (ofNames archive names).value.entries := by
  have hboth : (ofNames archive names).value.Linked .root ∧
      Named (ofNames archive names).value.entries := by
    refine ofNames_induction (P := fun tree => tree.Linked .root ∧ Named tree.entries)
      ⟨linked_empty, ?_⟩ ?_ archive names
    · intro key entry hget
      rw [empty, getElem?_insert] at hget
      by_cases hkey : "/" = key
      · rw [if_pos hkey] at hget
        obtain rfl := Option.some.inj hget
        exact ⟨⟨"", List.nil_prefix⟩, nofun⟩
      · rw [if_neg hkey] at hget
        simp at hget
    · rintro tree name ⟨hlinked, hnamed⟩
      refine ⟨hlinked.insert name, ?_⟩
      obtain ⟨-, hsame⟩ | hadded :=
        hlinked.place_cases (plain_ofNames_segments name) name (namesDirectory name)
      · have hinsert : tree.insert name = tree := hsame
        rw [hinsert]
        exact hnamed
      · exact hadded.named hnamed
  exact hboth.2

structure InStep (tree : ArchiveTree) : Prop where
  proper : tree.forest.Proper
  top : tree.entries["/"]? = some ⟨.root, none⟩
  keys : ∀ key, key ≠ "/" → (key ∈ tree.entries ↔ ∃ ns item, ns ≠ [] ∧
    (Forest.Item.directory tree.forest).at? ns = some item ∧ slashed ns = key)
  kinds : ∀ ns item entry, ns ≠ [] → (Forest.Item.directory tree.forest).at? ns = some item →
    tree.entries[slashed ns]? = some entry → (entry.backing.isSome ↔ item = .file)
  texts : ∀ (key : String) (entry : ArchiveEntry), tree.entries[key]? = some entry →
    entry.path.render = key
  above : ∀ key ns, key ∈ tree.entries → ns <+: segments key → ns ≠ segments key →
    tree.entries[(EntryPath.ofNames ns).render]? = some ⟨.ofNames ns, none⟩
  backed : ∀ (key : String) (entry : ArchiveEntry) (name : String),
    tree.entries[key]? = some entry → entry.backing = some name → segments name = segments key

theorem Agrees.under {item? : Option Forest.Item} (h : Agrees entries dir item?)
    (ns : List String) : Agrees entries (dir.under ns) (item?.bind (Forest.Item.at? ns)) := by
  intro ms hplain
  have hunder : (dir.under ns).under ms = dir.under (ns ++ ms) := List.foldl_append.symm
  have hat : (item?.bind (Forest.Item.at? ns)).bind (Forest.Item.at? ms) =
      item?.bind (Forest.Item.at? (ns ++ ms)) := by
    rw [Option.bind_assoc]
    exact congrArg _ (funext fun item => (item.at?_append ns ms).symm)
  rw [hunder] at hplain ⊢
  rw [hat]
  exact h (ns ++ ms) hplain

namespace Linked

variable {key : String} {entry : ArchiveEntry}

/-- Above an entry there are directories only. -/
theorem get_above (h : tree.Linked .root) (hget : tree.entries[key]? = some entry)
    {ns : List String} (hns : ns <+: entry.path.names) (hne : ns ≠ entry.path.names) :
    tree.entries[(EntryPath.ofNames ns).render]? = some ⟨.ofNames ns, none⟩ := by
  obtain ⟨item, hat, -⟩ := h.exists_item hget
  obtain ⟨-, hplain⟩ := h.keyed key entry hget
  rw [← entry.path.root_under_names] at hplain
  have hprefix : (EntryPath.root.under ns).Plain := hplain.of_prefix hns
  obtain ⟨ms, hms⟩ := hns
  rw [← hms, Forest.Item.at?_append] at hat
  obtain ⟨above, habove, hbelow⟩ := Option.bind_eq_some_iff.1 hat
  have hrest : ms ≠ [] := by
    rintro rfl
    exact hne ((List.append_nil ns).symm.trans hms)
  obtain ⟨inside, rfl⟩ := Forest.Item.eq_directory_of_at? hrest (Option.isSome_of_eq_some hbelow)
  have hagrees : Agrees tree.entries (EntryPath.root.under ns) (some (.directory inside)) := by
    rw [← habove]
    exact h.agrees.under ns
  exact hagrees.get_directory hprefix h.keyed

theorem inStep (h : tree.Linked .root) (hnamed : Named tree.entries) : tree.InStep := by
  have hsegments : ∀ (key : String) (entry : ArchiveEntry), tree.entries[key]? = some entry →
      segments key = entry.path.names := by
    intro key entry hget
    obtain ⟨name, hname⟩ := (hnamed key entry hget).1
    obtain ⟨hrender, -⟩ := h.keyed key entry hget
    rw [← hrender, ← segments_render_ofNames hname]
    exact congrArg (fun path : EntryPath => segments path.render) entry.path.root_under_names.symm
  refine ⟨h.proper, h.get_self, fun key hkey => ⟨fun hmem => ?_, ?_⟩, ?_, ?_, ?_, ?_⟩
  · obtain ⟨entry, hget⟩ := Option.isSome_iff_exists.1 (Std.TreeMap.mem_iff_isSome_getElem?.1 hmem)
    obtain ⟨item, hat, -⟩ := h.exists_item hget
    obtain ⟨hrender, -⟩ := h.keyed key entry hget
    have hnames : entry.path.names ≠ [] := fun hnil => by
      rw [← entry.path.root_under_names, hnil] at hrender
      exact hkey hrender.symm
    refine ⟨entry.path.names, item, hnames, hat, ?_⟩
    rw [← EntryPath.render_ofNames hnames, ← hrender]
    exact congrArg EntryPath.render entry.path.root_under_names
  · rintro ⟨ns, item, hns, hat, rfl⟩
    obtain ⟨backing, hget, -⟩ := h.exists_entry hat
    rw [← EntryPath.render_ofNames hns]
    exact Std.TreeMap.mem_iff_isSome_getElem?.2 (Option.isSome_of_eq_some hget)
  · intro ns item entry hns hat hget
    obtain ⟨backing, hfound, hkind⟩ := h.exists_entry hat
    rw [← EntryPath.render_ofNames hns] at hget
    obtain rfl := Option.some.inj (hfound.symm.trans hget)
    rw [hkind]
    cases item <;> simp [Forest.Item.isFile]
  · exact fun key entry hget => (h.keyed key entry hget).1
  · intro key ns hmem hns hne
    obtain ⟨entry, hget⟩ := Option.isSome_iff_exists.1 (Std.TreeMap.mem_iff_isSome_getElem?.1 hmem)
    rw [hsegments key entry hget] at hns hne
    exact h.get_above hget hns hne
  · intro key entry name hget hbacking
    rw [hsegments key entry hget]
    exact (hnamed key entry hget).2 name hbacking

end Linked

/-- The map and the tree of an archive are in step, whatever its names are. -/
theorem inStep_ofNames (archive : String) (names : List String) :
    (ofNames archive names).value.InStep :=
  (linked_ofNames archive names).inStep (named_ofNames archive names)

end ArchiveTree

end Overlay
