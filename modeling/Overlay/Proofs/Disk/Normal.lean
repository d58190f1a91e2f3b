import Overlay.Proofs.Disk.Lexical

/-!
# Pushing and popping names

A text that is joined to another one goes on from it, unless it is absolute: `parts_join`. What a
component does to a path it does to the text of the path, where joining pushes a name and cutting at
the last slash pops one; so the normal form is what such steps make of the empty text. Without
backslashes it is the normal form of the text as a key, but for the slash at the beginning:
`normalizeDiskPath_exact`.
-/

namespace Overlay

namespace DiskPath

variable {path : DiskPath}

theorem parts_append_slash (a b : String) : parts (a ++ "/" ++ b) = parts a ++ parts b := by
  have hlist : (a ++ "/" ++ b).toList = a.toList ++ '/' :: b.toList := by
    simp [String.toList_append]
  rw [parts, hlist, pieces_append_cons rfl, List.map_append, List.filter_append]
  rfl

/-- The text of a path that is not absolute stands behind the other one. -/
theorem join_cases {path : String} (h : isRooted path = false) (base : String) :
    (base = "" ∧ join base path = path) ∨
      (∃ front, base = front ++ "/" ∧ join base path = front ++ "/" ++ path) ∨
      (base ≠ "" ∧ join base path = base ++ "/" ++ path) := by
  rw [join, h, Bool.false_or]
  by_cases hempty : base = ""
  · exact .inl ⟨hempty, by rw [if_pos (by simpa using hempty)]⟩
  · rw [if_neg (by simpa using hempty)]
    by_cases hlast : base.toList.getLast? = some '/'
    · obtain ⟨front, hfront⟩ := List.getLast?_eq_some_iff.1 hlast
      have hbase : base = String.ofList front ++ "/" := by
        rw [← String.toList_inj, hfront, String.toList_append, String.toList_ofList]
        rfl
      exact .inr (.inl ⟨String.ofList front, hbase, by
        rw [if_pos (by simpa using hlast), ← hbase]⟩)
    · exact .inr (.inr ⟨hempty, by rw [if_neg (by simpa using hlast)]⟩)

/-- A path that is not absolute goes on from where the other one leads. -/
theorem parts_join {path : String} (h : isRooted path = false) (base : String) :
    parts (join base path) = parts base ++ parts path := by
  obtain ⟨rfl, hjoin⟩ | ⟨front, rfl, hjoin⟩ | ⟨-, hjoin⟩ := join_cases h base
  · rw [hjoin]
    rfl
  · have hfront : parts (front ++ "/") = parts front := by
      have hcut := parts_append_slash front ""
      rwa [String.append_empty, show parts "" = [] from rfl, List.append_nil] at hcut
    rw [hjoin, parts_append_slash, hfront]
  · rw [hjoin, parts_append_slash]

theorem isRooted_join {path : String} (h : isRooted path = false) (base : String) :
    isRooted (join base path) = isRooted base := by
  obtain ⟨rfl, hjoin⟩ | ⟨front, rfl, hjoin⟩ | ⟨hne, hjoin⟩ := join_cases h base
  · rw [hjoin, h]
    rfl
  · have hne : front ++ "/" ≠ "" := fun he => by
      have := congrArg String.toList he
      simp at this
    rw [hjoin, isRooted_append hne]
  · rw [hjoin, String.append_assoc, isRooted_append hne]

theorem join_of_isRooted {path : String} (h : isRooted path = true) (base : String) :
    join base path = path := by
  rw [join, h, Bool.true_or, if_pos rfl]

theorem components_join (base : String) {name : String} (h : DiskName name) :
    components (join base name) = components base ++ [.name name] := by
  have hrooted : isRooted name = false := isRooted_of_not_mem h.no_slash
  have hsingle : Proper ⟨false, [name]⟩ := List.forall_mem_singleton.2 h
  have hparts : parts name = [name] := by
    have hread := parts_text hsingle
    rwa [text, String.intercalate_singleton, if_neg Bool.false_ne_true,
      String.empty_append] at hread
  rw [components_eq, components_eq, isRooted_join hrooted, parts_join hrooted, hparts,
    List.map_append, List.map_singleton, h.ofPart_eq]
  cases isRooted base with
  | true => rw [if_pos rfl, if_pos rfl, List.filter_append]; rfl
  | false =>
    rw [if_neg Bool.false_ne_true, if_neg Bool.false_ne_true]
    cases (parts base).map Component.ofPart with
    | nil => rfl
    | cons first rest =>
      rw [List.cons_append]
      exact congrArg (first :: ·) (List.filter_append rest [Component.name name])

@[simp] theorem pop_push (path : DiskPath) (name : String) : (path.push name).pop = path := by
  rw [push, pop, List.dropLast_concat]

theorem Proper.push (h : path.Proper) {name : String} (hname : DiskName name) :
    (path.push name).Proper :=
  List.forall_mem_append.2 ⟨h, List.forall_mem_singleton.2 hname⟩

/-- A path with a name is another one with its last name pushed onto it. -/
theorem Proper.exists_push (h : path.Proper) (hne : path.names ≠ []) :
    ∃ (init : DiskPath) (name : String), path = init.push name ∧ init.Proper ∧ DiskName name := by
  obtain ⟨absolute, names⟩ := path
  obtain ⟨init, last, rfl⟩ : ∃ init last, names = init ++ [last] :=
    ⟨_, _, (List.dropLast_concat_getLast hne).symm⟩
  obtain ⟨hinit, hlast⟩ := List.forall_mem_append.1 h
  exact ⟨⟨absolute, init⟩, last, rfl, hinit, hlast last List.mem_cons_self⟩

/-- The text in front of a further name: no slash is put behind one, nor at the beginning. -/
def lead (path : DiskPath) : String := if path.names = [] then path.text else path.text ++ "/"

theorem text_push (path : DiskPath) (name : String) :
    (path.push name).text = path.lead ++ name := by
  obtain ⟨absolute, names⟩ := path
  by_cases hne : names = []
  · subst hne
    cases absolute <;> simp [lead, push, text]
  · rw [lead, if_neg hne, push, text, text,
      String.intercalate_append_of_ne_nil hne (List.cons_ne_nil name []),
      String.intercalate_singleton]
    simp only [String.append_assoc]

/-- A path ends in a slash only if it is the root directory. -/
theorem getLast?_text (h : path.Proper) (hne : path.names ≠ []) :
    path.text.toList.getLast? ≠ some '/' := by
  obtain ⟨init, last, rfl, -, hlast⟩ := h.exists_push hne
  have hnil : last.toList ≠ [] := fun he => hlast.ne_empty (String.toList_eq_nil_iff.1 he)
  rw [text_push, String.toList_append, List.getLast?_append,
    List.getLast?_eq_some_getLast hnil, Option.some_or]
  intro hslash
  exact hlast.no_slash (Option.some.inj hslash ▸ List.getLast_mem hnil)

theorem text_ne_empty (h : path.Proper) (hne : path.names ≠ []) : path.text ≠ "" := by
  intro hempty
  have hparts : parts path.text = path.names := parts_text h
  rw [hempty] at hparts
  exact hne hparts.symm

theorem join_text (h : path.Proper) {name : String} (hname : '/' ∉ name.toList) :
    join path.text name = (path.push name).text := by
  rw [text_push, join, isRooted_of_not_mem hname, Bool.false_or, lead]
  by_cases hne : path.names = []
  · rw [if_pos hne]
    obtain ⟨absolute, names⟩ := path
    subst hne
    cases absolute <;> simp [text]
  · rw [if_neg hne, if_neg (by simpa using text_ne_empty h hne),
      if_neg (by simpa using getLast?_text h hne)]

/-- What stands before the last slash of a text, and the slash if nothing else does. In a text
without empty or `.` parts this takes the last name off. -/
def parentText (text : String) : String :=
  match text.toList.reverse.dropWhile (· != '/') with
  | [] => ""
  | [slash] => String.ofList [slash]
  | _ :: before => String.ofList before.reverse

theorem parentText_append (before : String) {name : String} (h : '/' ∉ name.toList) :
    parentText (before ++ name) = parentText before := by
  have hname : ∀ c ∈ name.toList.reverse, (c != '/') = true := fun c hc =>
    bne_iff_ne.2 fun he => h (he ▸ List.mem_reverse.1 hc)
  rw [parentText, parentText, String.toList_append, List.reverse_append,
    List.dropWhile_append_of_pos hname]

theorem parentText_append_slash {before : String} (h : before ≠ "") :
    parentText (before ++ "/") = before := by
  obtain ⟨c, cs, hbefore⟩ : ∃ c cs, before.toList.reverse = c :: cs :=
    List.exists_cons_of_ne_nil fun he =>
      h (String.toList_eq_nil_iff.1 (List.reverse_eq_nil_iff.1 he))
  have hslash : (before ++ "/").toList.reverse = '/' :: c :: cs := by
    rw [← hbefore, String.toList_append, List.reverse_append]
    rfl
  have hback : (c :: cs).reverse = before.toList := by rw [← hbefore, List.reverse_reverse]
  rw [parentText, hslash, List.dropWhile_cons_of_neg (by simp)]
  exact (congrArg String.ofList hback).trans String.ofList_toList

theorem parentText_text (h : path.Proper) : parentText path.text = path.pop.text := by
  have hlead : ∀ p : DiskPath, p.names = [] → parentText p.text = p.text ∧ p.pop = p := by
    rintro ⟨absolute, _⟩ rfl
    cases absolute <;> exact ⟨rfl, rfl⟩
  by_cases hne : path.names = []
  · rw [(hlead path hne).1, (hlead path hne).2]
  · obtain ⟨init, last, rfl, hinit, hlast⟩ := h.exists_push hne
    rw [text_push, parentText_append _ hlast.no_slash, pop_push, lead]
    by_cases hnil : init.names = []
    · rw [if_pos hnil, (hlead init hnil).1]
    · rw [if_neg hnil, parentText_append_slash (text_ne_empty hinit hnil)]

def stepText (text : String) : Component → String
  | .root => join text "/"
  | .current => text
  | .parent => parentText text
  | .name s => join text s

theorem diskName_of_mem_components {text s : String} (h : .name s ∈ components text) :
    DiskName s := by
  have hpart : .name s ∈ (parts text).map Component.ofPart := by
    rw [components_eq] at h
    split at h
    · obtain h | h := List.mem_cons.1 h
      · cases h
      · exact (List.mem_filter.1 h).1
    · split at h
      next => cases h
      next first rest heq =>
        rw [heq]
        obtain rfl | h := List.mem_cons.1 h
        · exact List.mem_cons_self
        · exact List.mem_cons_of_mem _ (List.mem_filter.1 h).1
  obtain ⟨part, hmem, hpart⟩ := List.mem_map.1 hpart
  obtain ⟨hempty, hslash⟩ := mem_parts hmem
  unfold Component.ofPart at hpart
  split at hpart
  · cases hpart
  · cases hpart
  next hdot hparent =>
    obtain rfl := Component.name.inj hpart
    exact ⟨hempty, hdot, hparent, hslash⟩

theorem Proper.step (h : path.Proper) {c : Component} (hc : ∀ s, c = .name s → DiskName s) :
    (path.step c).Proper := by
  cases c with
  | root => exact fun s hs => absurd hs List.not_mem_nil
  | current => exact h
  | parent => exact fun s hs => h s ((List.dropLast_sublist _).subset hs)
  | name s => exact h.push (hc s rfl)

theorem stepText_text (h : path.Proper) {c : Component} (hc : ∀ s, c = .name s → DiskName s) :
    stepText path.text c = (path.step c).text := by
  cases c with
  | root => rfl
  | current => rfl
  | parent => exact parentText_text h
  | name s => exact join_text h (hc s rfl).no_slash

theorem foldl_stepText {cs : List Component} (h : path.Proper)
    (hcs : ∀ s, .name s ∈ cs → DiskName s) :
    cs.foldl stepText path.text = (cs.foldl DiskPath.step path).text := by
  induction cs generalizing path with
  | nil => rfl
  | cons c rest ih =>
    have hc : ∀ s, c = .name s → DiskName s := fun s he => hcs s (he ▸ List.mem_cons_self)
    rw [List.foldl_cons, List.foldl_cons, stepText_text h hc]
    exact ih (h.step hc) fun s hs => hcs s (List.mem_cons_of_mem c hs)

/-- The normal form is what is left of the text when its components are pushed and popped. -/
theorem normalizeDiskPath_eq_foldl (text : String) :
    normalizeDiskPath text = (components text).foldl stepText "" := by
  have hempty : Proper {} := fun s hs => absurd hs List.not_mem_nil
  exact (foldl_stepText hempty fun _ => diskName_of_mem_components).symm

/-- Without backslashes the parts that lead somewhere are the segments. -/
theorem moves_eq_segments {text : String} (h : '\\' ∉ text.toList) :
    moves text = segments text := by
  have hsep : ∀ c ∈ text.toList, isSeparator c = (c == '/') := fun c hc => by
    have hne : c ≠ '\\' := fun he => h (he ▸ hc)
    simp [isSeparator, hne]
  rw [moves, parts, segments, pieces_congr hsep, List.filter_filter]
  exact List.filter_congr fun s _ => Bool.and_comm ..

end DiskPath

theorem render_eq_intercalate (names : List String) :
    (EntryPath.ofNames names).render = "/" ++ "/".intercalate names := by
  by_cases hne : names = []
  · subst hne
    rfl
  · rw [EntryPath.render_ofNames hne, slashed_eq_intercalate hne]

open DiskPath in
/-- The normal form of a path of the file system is what pushing and popping its components leaves.
Without backslashes it is the normal form of the text as a key, except that it has a slash at the
beginning only if the text has one. It is its own normal form, is as absolute as the text, and has
neither `.` nor `..` among its components. -/
theorem normalizeDiskPath_exact (text : String) :
    normalizeDiskPath text = (components text).foldl stepText "" ∧
      ('\\' ∉ text.toList →
        normalize text =
          if isRooted text then normalizeDiskPath text else "/" ++ normalizeDiskPath text) ∧
      normalizeDiskPath (normalizeDiskPath text) = normalizeDiskPath text ∧
      isRooted (normalizeDiskPath text) = isRooted text ∧
      .current ∉ components (normalizeDiskPath text) ∧
      .parent ∉ components (normalizeDiskPath text) := by
  have hproper : (ofText text).Proper := proper_ofText text
  have hcomponents := components_text hproper
  refine ⟨normalizeDiskPath_eq_foldl text, fun hback => ?_, normalizeDiskPath_text hproper,
    isRooted_normalizeDiskPath text, ?_, ?_⟩
  · rw [normalize_eq, render_eq_intercalate, normalizeDiskPath, ofText_eq, moves_eq_segments hback,
      DiskPath.text]
    cases isRooted text <;> simp
  · rw [normalizeDiskPath, hcomponents]
    split <;> simp
  · rw [normalizeDiskPath, hcomponents]
    split <;> simp

theorem normalizeDiskPath_exact_surplus :
    '\\' ∉ "a/..//../b/./c/".toList ∧ normalizeDiskPath "a/..//../b/./c/" = "b/c" ∧
      normalize "a/..//../b/./c/" = "/" ++ normalizeDiskPath "a/..//../b/./c/" :=
  have hback : '\\' ∉ "a/..//../b/./c/".toList := by decide
  ⟨hback, by decide, (normalizeDiskPath_exact "a/..//../b/./c/").2.1 hback⟩

end Overlay
