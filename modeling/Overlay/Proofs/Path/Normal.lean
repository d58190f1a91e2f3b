import Overlay.Proofs.Path.Rendering

/-!
# Segments and normal forms

The segments of a path are names that may stand in an entry path: `plain_ofNames_segments`. A
normal form is the text of the path whose names are left of the segments, `normalize_eq`, also
where a text is kept because it is in normal form already. If no `..` is among the segments,
nothing is taken back and the names are the segments.
-/

namespace Overlay

theorem pieces_ne_nil (sep : Char → Bool) (cs : List Char) : pieces sep cs ≠ [] := by
  cases cs with
  | nil => simp [pieces]
  | cons c cs =>
    rw [pieces]
    split
    · simp
    · split <;> simp

theorem pieces_cons_of_not_sep (sep : Char → Bool) {c : Char} (h : sep c = false)
    (cs : List Char) :
    ∃ p ps, pieces sep cs = p :: ps ∧ pieces sep (c :: cs) = (c :: p) :: ps := by
  obtain ⟨p, ps, hps⟩ := List.exists_cons_of_ne_nil (pieces_ne_nil sep cs)
  exact ⟨p, ps, hps, by simp [pieces, h, hps]⟩

theorem mem_pieces {sep : Char → Bool} {cs p : List Char} (hp : p ∈ pieces sep cs) :
    ∀ c ∈ p, c ∈ cs ∧ sep c = false := by
  induction cs generalizing p with
  | nil =>
    rw [pieces, List.mem_singleton] at hp
    simp [hp]
  | cons d cs ih =>
    have hrest : ∀ q ∈ pieces sep cs, ∀ c ∈ q, c ∈ d :: cs ∧ sep c = false := fun q hq c hc =>
      ⟨List.mem_cons_of_mem d (ih hq c hc).1, (ih hq c hc).2⟩
    cases hd : sep d with
    | true =>
      rw [pieces, if_pos hd, List.mem_cons] at hp
      obtain rfl | hp := hp
      · simp
      · exact hrest p hp
    | false =>
      obtain ⟨q, qs, hqs, hcons⟩ := pieces_cons_of_not_sep sep hd cs
      rw [hcons, List.mem_cons] at hp
      rw [hqs] at hrest
      obtain rfl | hp := hp
      · intro c hc
        obtain rfl | hc := List.mem_cons.1 hc
        · exact ⟨List.mem_cons_self, hd⟩
        · exact hrest q List.mem_cons_self c hc
      · exact hrest p (List.mem_cons_of_mem q hp)

theorem pieces_congr {sep sep' : Char → Bool} {cs : List Char} (h : ∀ c ∈ cs, sep c = sep' c) :
    pieces sep cs = pieces sep' cs := by
  induction cs with
  | nil => rfl
  | cons c cs ih =>
    rw [pieces, pieces, h c List.mem_cons_self, ih fun d hd => h d (List.mem_cons_of_mem c hd)]

theorem not_isSeparator_of_mem_segments {path s : String} (h : s ∈ segments path) {c : Char}
    (hc : c ∈ s.toList) : isSeparator c = false := by
  simp only [segments, List.mem_filter, List.mem_map] at h
  obtain ⟨⟨p, hp, rfl⟩, -⟩ := h
  rw [String.toList_ofList] at hc
  exact (mem_pieces hp c hc).2

theorem mem_segments {path s : String} (h : s ∈ segments path) :
    s ≠ "" ∧ s ≠ "." ∧ '/' ∉ s.toList := by
  have hslash : '/' ∉ s.toList := fun hmem => by
    have hsep : isSeparator '/' = false := not_isSeparator_of_mem_segments h hmem
    cases hsep
  simp only [segments, List.mem_filter, Bool.and_eq_true, bne_iff_ne] at h
  exact ⟨h.2.1, h.2.2, hslash⟩

theorem mem_foldl_climb {stack names : List String} {s : String}
    (h : s ∈ names.foldl climb stack) : s ∈ stack ∨ s ∈ names ∧ s ≠ ".." := by
  induction names generalizing stack with
  | nil => exact .inl h
  | cons name rest ih =>
    obtain h | ⟨h, hs⟩ := ih h
    · by_cases hname : name = ".."
      · rw [hname, climb_parent] at h
        exact .inl (List.mem_of_mem_tail h)
      · rw [climb_name stack hname, List.mem_cons] at h
        obtain rfl | h := h
        · exact .inr ⟨List.mem_cons_self, hname⟩
        · exact .inl h
    · exact .inr ⟨List.mem_cons_of_mem name h, hs⟩

/-- What is left of a list of names was in it, and none of it leads back. -/
theorem mem_collapse {names : List String} {s : String} (h : s ∈ collapse names) :
    s ∈ names ∧ s ≠ ".." := by
  rw [collapse, List.mem_reverse] at h
  obtain h | h := mem_foldl_climb h
  · exact absurd h List.not_mem_nil
  · exact h

theorem foldl_climb_of_not_mem {names : List String} (h : ".." ∉ names) (stack : List String) :
    names.foldl climb stack = names.reverse ++ stack := by
  induction names generalizing stack with
  | nil => rfl
  | cons name rest ih =>
    rw [List.mem_cons, not_or] at h
    rw [List.foldl_cons, climb_name stack (Ne.symm h.1), ih h.2, List.reverse_cons,
      List.append_assoc, List.singleton_append]

theorem collapse_of_not_mem {names : List String} (h : ".." ∉ names) : collapse names = names := by
  rw [collapse, foldl_climb_of_not_mem h, List.append_nil, List.reverse_reverse]

theorem toList_slashed (names : List String) :
    (slashed names).toList = names.flatMap fun s => '/' :: s.toList := by
  have hslash : "/".toList = ['/'] := rfl
  induction names with
  | nil => rfl
  | cons s rest ih => simp [ih, hslash]

/-- Characters that do not separate belong to the piece that comes next. -/
theorem pieces_append {sep : Char → Bool} {p cs q : List Char} {qs : List (List Char)}
    (hp : ∀ c ∈ p, sep c = false) (hcs : pieces sep cs = q :: qs) :
    pieces sep (p ++ cs) = (p ++ q) :: qs := by
  induction p with
  | nil => exact hcs
  | cons c p ih =>
    obtain ⟨hc, hrest⟩ := List.forall_mem_cons.1 hp
    rw [List.cons_append, pieces, if_neg (Bool.eq_false_iff.1 hc), ih hrest]
    rfl

theorem pieces_cons_of_sep {sep : Char → Bool} {c : Char} (h : sep c = true) (cs : List Char) :
    pieces sep (c :: cs) = [] :: pieces sep cs := by
  rw [pieces, if_pos h]

/-- A separator ends the piece before it and begins another one. -/
theorem pieces_append_cons {sep : Char → Bool} {c : Char} (hc : sep c = true) (a b : List Char) :
    pieces sep (a ++ c :: b) = pieces sep a ++ pieces sep b := by
  induction a with
  | nil => exact pieces_cons_of_sep hc b
  | cons d a ih =>
    cases hd : sep d with
    | true => rw [List.cons_append, pieces_cons_of_sep hd, pieces_cons_of_sep hd, ih,
        List.cons_append]
    | false =>
      obtain ⟨p, ps, hps, hcons⟩ := pieces_cons_of_not_sep sep hd a
      rw [hps, List.cons_append] at ih
      rw [List.cons_append, pieces, if_neg (Bool.eq_false_iff.1 hd), ih, hcons, List.cons_append]

theorem pieces_slashed {sep : Char → Bool} {names : List String} (hsep : sep '/' = true)
    (h : ∀ s ∈ names, ∀ c ∈ s.toList, sep c = false) :
    pieces sep (slashed names).toList = [] :: names.map String.toList := by
  induction names with
  | nil => rfl
  | cons s rest ih =>
    obtain ⟨hs, hrest⟩ := List.forall_mem_cons.1 h
    have hslash : (slashed (s :: rest)).toList = '/' :: (s.toList ++ (slashed rest).toList) := by
      simp [toList_slashed]
    rw [hslash, pieces, if_pos hsep, pieces_append hs (ih hrest), List.append_nil, List.map_cons]

theorem segments_slashed {names : List String}
    (h : ∀ s ∈ names, s ≠ "" ∧ s ≠ "." ∧ ∀ c ∈ s.toList, isSeparator c = false) :
    segments (slashed names) = names := by
  have hpieces : (pieces isSeparator (slashed names).toList).map String.ofList = "" :: names := by
    rw [pieces_slashed rfl fun s hs => (h s hs).2.2, List.map_cons, List.map_map]
    congr 1
    simp [Function.comp_def]
  rw [segments, hpieces, List.filter_cons_of_neg (by simp), List.filter_eq_self]
  intro s hs
  obtain ⟨hempty, hdot, -⟩ := h s hs
  simp [hempty, hdot]

theorem slashed_pieces (cs : List Char) :
    (slashed ((pieces (· == '/') cs).map String.ofList)).toList = '/' :: cs := by
  simp only [toList_slashed, List.flatMap_map, String.toList_ofList]
  induction cs with
  | nil => rfl
  | cons c cs ih =>
    cases hc : c == '/' with
    | true => rw [pieces, if_pos hc, List.flatMap_cons, ih, beq_iff_eq.1 hc]; rfl
    | false =>
      obtain ⟨p, ps, hps, hcons⟩ := pieces_cons_of_not_sep (· == '/') hc cs
      rw [hps, List.flatMap_cons, List.cons_append, List.cons.injEq] at ih
      rw [hcons, List.flatMap_cons, List.cons_append, List.cons_append, ih.2]

theorem isPlain_toList {name : String} :
    isPlain name.toList = true ↔ name ≠ "" ∧ name ≠ "." ∧ name ≠ ".." := by
  have hdot : name.toList = ['.'] ↔ name = "." := @String.toList_inj name "."
  have hparent : name.toList = ['.', '.'] ↔ name = ".." := @String.toList_inj name ".."
  simp [isPlain, hdot, hparent, and_assoc]

/-- A text in normal form other than that of the root directory is its segments, each behind a
slash, and nothing in it leads back. -/
theorem segments_of_isNormal {path : String} (h : isNormal path = true) (hroot : path ≠ "/") :
    segments path ≠ [] ∧ ".." ∉ segments path ∧ slashed (segments path) = path := by
  have hslash : "/".toList = ['/'] := rfl
  simp only [isNormal, Bool.or_eq_true, beq_iff_eq, hroot, false_or] at h
  split at h
  next rest hrest =>
    simp only [Bool.and_eq_true, Bool.not_eq_true', List.contains_eq_mem, decide_eq_false_iff_not,
      List.all_eq_true] at h
    obtain ⟨hback, hplain⟩ := h
    have hsep : ∀ c ∈ '/' :: rest, isSeparator c = (c == '/') := by
      intro c hc
      obtain rfl | hc := List.mem_cons.1 hc
      · rfl
      · have hne : c ≠ '\\' := fun he => hback (he ▸ hc)
        simp [isSeparator, hne]
    have hnames : ∀ s ∈ (pieces (· == '/') rest).map String.ofList,
        s ≠ "" ∧ s ≠ "." ∧ s ≠ ".." := by
      intro s hs
      obtain ⟨p, hp, rfl⟩ := List.mem_map.1 hs
      rw [← isPlain_toList, String.toList_ofList]
      exact hplain p hp
    -- only the empty piece in front of the first slash is dropped
    have hkept : segments path = (pieces (· == '/') rest).map String.ofList := by
      rw [segments, hrest, pieces_congr hsep, pieces, if_pos (beq_self_eq_true '/'), List.map_cons,
        List.filter_cons_of_neg (by simp), List.filter_eq_self]
      intro s hs
      obtain ⟨hempty, hdot, -⟩ := hnames s hs
      simp [hempty, hdot]
    refine ⟨?_, ?_, ?_⟩
    · rw [hkept, Ne, List.map_eq_nil_iff]
      exact pieces_ne_nil _ rest
    · rw [hkept]
      exact fun hmem => (hnames ".." hmem).2.2 rfl
    · rw [hkept, ← String.toList_inj, slashed_pieces, hrest]
  next => simp at h

namespace EntryPath

def under (dir : EntryPath) (names : List String) : EntryPath := names.foldl child dir

theorem names_under (dir : EntryPath) (names : List String) :
    (dir.under names).names = dir.names ++ names := by
  induction names generalizing dir with
  | nil => simp [under]
  | cons name rest ih =>
    have hrest := ih (dir.child name)
    rw [EntryPath.names, List.append_assoc] at hrest
    exact hrest

theorem Plain.of_under {dir : EntryPath} {names : List String} (h : (dir.under names).Plain) :
    dir.Plain := by
  rw [Plain, names_under] at h
  exact fun name hname => h name (List.mem_append_left names hname)

theorem Plain.of_prefix {dir : EntryPath} {names ns : List String} (h : (dir.under names).Plain)
    (hns : ns <+: names) : (dir.under ns).Plain := by
  rw [Plain, names_under] at h ⊢
  intro name hname
  refine h name ?_
  rw [List.mem_append] at hname ⊢
  exact hname.imp id fun hmem => hns.subset hmem

theorem ofNames_concat (names : List String) (name : String) :
    ofNames (names ++ [name]) = (ofNames names).child name := by
  rw [ofNames, ofNames, List.foldl_append]
  rfl

theorem names_ofNames (names : List String) : (ofNames names).names = names :=
  names_under root names

theorem names_inj {a b : EntryPath} (h : a.names = b.names) : a = b := by
  induction a generalizing b with
  | root =>
    cases b with
    | root => rfl
    | child q m => simp [EntryPath.names] at h
  | child p n ih =>
    cases b with
    | root => simp [EntryPath.names] at h
    | child q m =>
      obtain ⟨hp, hn⟩ := List.append_inj' h rfl
      rw [ih hp, List.cons.inj hn |>.1]

theorem root_under_names (path : EntryPath) : root.under path.names = path :=
  names_inj (names_under root path.names)

theorem under_inj {dir : EntryPath} {names other : List String} :
    dir.under names = dir.under other ↔ names = other := by
  constructor
  · intro h
    have hnames := congrArg EntryPath.names h
    rw [names_under, names_under] at hnames
    exact List.append_cancel_left hnames
  · rintro rfl
    rfl

/-- What is in a directory has another text than the directory. -/
theorem Plain.render_under_ne {dir : EntryPath} {ns : List String} (h : (dir.under ns).Plain)
    (hns : ns ≠ []) : (dir.under ns).render ≠ dir.render := by
  intro hrender
  have hdir : dir.under ns = dir.under [] := h.render_inj (Plain.of_under h) hrender
  exact hns (under_inj.1 hdir)

theorem lead_eq_slashed (path : EntryPath) : path.lead = slashed path.names := by
  induction path with
  | root => rfl
  | child parent name ih =>
    rw [lead, ih, EntryPath.names, slashed_append, String.append_assoc]
    simp

theorem render_ofNames {names : List String} (h : names ≠ []) :
    (ofNames names).render = slashed names := by
  cases hpath : ofNames names with
  | root =>
    have hnames := names_ofNames names
    rw [hpath] at hnames
    exact absurd hnames.symm h
  | child parent name =>
    rw [render, lead_eq_slashed, ← hpath, names_ofNames]

end EntryPath

theorem plain_ofNames_segments (path : String) : (EntryPath.ofNames (segments path)).Plain := by
  rw [EntryPath.Plain, EntryPath.names_ofNames]
  exact fun name hname => ⟨(mem_segments hname).1, (mem_segments hname).2.2⟩

theorem segments_render_ofNames {path : String} {names : List String}
    (h : names <+: segments path) :
    segments (EntryPath.ofNames names).render = names := by
  by_cases hnil : names = []
  · subst hnil
    rfl
  · rw [EntryPath.render_ofNames hnil]
    refine segments_slashed fun s hs => ?_
    have hmem : s ∈ segments path := h.subset hs
    exact ⟨(mem_segments hmem).1, (mem_segments hmem).2.1,
      fun _ hc => not_isSeparator_of_mem_segments hmem hc⟩

theorem plain_ofNames_collapse (path : String) :
    (EntryPath.ofNames (collapse (segments path))).Plain := by
  rw [EntryPath.Plain, EntryPath.names_ofNames]
  intro name hname
  have hseg := mem_segments (mem_collapse hname).1
  exact ⟨hseg.1, hseg.2.2⟩

theorem text_ofNames (names : List String) :
    (Normalized.ofNames names).text = (EntryPath.ofNames names).render := by
  cases names with
  | nil => rfl
  | cons name rest => exact (EntryPath.render_ofNames (List.cons_ne_nil name rest)).symm

/-- A normal form is the text of the names that are left of the segments. -/
theorem normalize_eq (path : String) :
    normalize path = (EntryPath.ofNames (collapse (segments path))).render := by
  rw [normalize, Normalized.ofPath]
  split
  next hnormal =>
    by_cases hroot : path = "/"
    · subst hroot
      rfl
    · obtain ⟨hne, hparent, hslashed⟩ := segments_of_isNormal hnormal hroot
      rw [collapse_of_not_mem hparent, EntryPath.render_ofNames hne, hslashed]
      rfl
  next => exact text_ofNames _

theorem normalize_of_not_mem {path : String} (h : ".." ∉ segments path) :
    normalize path = (EntryPath.ofNames (segments path)).render := by
  rw [normalize_eq, collapse_of_not_mem h]

end Overlay
