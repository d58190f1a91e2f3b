import Overlay.Proofs.Path.Canonical

/-!
# Parsed paths

Parsing a text goes into the names that are left of its segments, `parse_eq`. So a parsed path
renders as the normal form of the text and is as deep as that has segments. The hash and the length
that a path keeps follow from those of its parent, where the root counts as nothing; they are those
of the rendered text for all paths, whatever their names are.
-/

namespace Overlay

theorem segments_normalize (path : String) :
    segments (normalize path) = collapse (segments path) := by
  rw [normalize_eq_rebuilt, rebuilt]
  cases hleft : collapse (segments path) with
  | nil => rfl
  | cons name rest =>
    exact segments_of_canonicalNames fun _ hname => canonicalName_of_mem_collapse (hleft ▸ hname)

namespace EntryPath

theorem depth_eq (path : EntryPath) : path.depth = path.names.length := by
  induction path with
  | root => rfl
  | child parent name ih =>
    rw [depth, EntryPath.names, List.length_append, ih, List.length_singleton]

/-- One segment does to the path of a stack of names what it does to the stack. -/
theorem step_ofNames (stack : List String) (segment : String) :
    (ofNames stack.reverse).step segment = ofNames (climb stack segment).reverse := by
  by_cases h : segment = ".."
  · rw [step, if_pos h, h, climb_parent]
    cases stack with
    | nil => rfl
    | cons name rest => rw [List.reverse_cons, ofNames_concat, List.tail_cons, up]
  · rw [step, if_neg h, climb_name stack h, List.reverse_cons, ofNames_concat]

theorem foldl_step_ofNames (names stack : List String) :
    names.foldl step (ofNames stack.reverse) = ofNames (names.foldl climb stack).reverse := by
  induction names generalizing stack with
  | nil => rfl
  | cons segment rest ih => rw [List.foldl_cons, List.foldl_cons, step_ofNames, ih]

/-- Parsing goes into the names that are left of the segments. -/
theorem parse_eq (text : String) : parse text = ofNames (collapse (segments text)) :=
  foldl_step_ofNames (segments text) []

theorem render_parse (text : String) : (parse text).render = normalize text := by
  rw [parse_eq, normalize_eq]

theorem plain_parse (text : String) : (parse text).Plain := by
  rw [parse_eq]
  exact plain_ofNames_collapse text

theorem depth_parse (text : String) : (parse text).depth = (segments (normalize text)).length := by
  rw [depth_eq, parse_eq, names_ofNames, segments_normalize]

/-- The hash goes on from that of the parent, at the root from nothing. -/
theorem hash_child (parent : EntryPath) (name : String) :
    (parent.child name).hash =
      hashFrom (hashFrom (if parent.isRoot then 0 else parent.hash) [slash]) (utf8 name) := by
  cases parent <;> rfl

theorem length_child (parent : EntryPath) (name : String) :
    (parent.child name).length =
      (if parent.isRoot then 0 else parent.length) + 1 + name.utf8ByteSize := by
  cases parent <;> rfl

/-- A text is parsed to the path of its normal form. What a path keeps is got from what its parent
keeps and is what the whole rendered text has. -/
theorem parse_normal_and_kept :
    (∀ text : String, (parse text).render = normalize text ∧
      (parse text).depth = (segments (normalize text)).length) ∧
    (∀ (parent : EntryPath) (name : String),
      (parent.child name).hash =
          hashFrom (hashFrom (if parent.isRoot then 0 else parent.hash) [slash]) (utf8 name) ∧
        (parent.child name).length =
          (if parent.isRoot then 0 else parent.length) + 1 + name.utf8ByteSize) ∧
    ∀ path : EntryPath,
      path.hash = hashText path.render ∧ path.length = path.render.utf8ByteSize :=
  ⟨fun text => ⟨render_parse text, depth_parse text⟩,
    fun parent name => ⟨hash_child parent name, length_child parent name⟩,
    fun path => ⟨hash_eq path, length_eq path⟩⟩

end EntryPath

end Overlay
