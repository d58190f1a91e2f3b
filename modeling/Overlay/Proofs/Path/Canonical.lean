import Overlay.Proofs.Path.Normal

/-!
# Canonical texts

A text is canonical if it is that of the root directory, or names behind a slash each, none of
which is empty, `.` or `..` or holds a separator. These are the texts that pass the test for being
in normal form, `isNormal_iff`. Building a text from the names that are left of its segments always
gives a canonical one, and gives the text itself back if it was canonical; so the normal form is
what is built, also where no text is built.
-/

namespace Overlay

structure CanonicalName (name : String) : Prop where
  ne_empty : name ≠ ""
  ne_dot : name ≠ "."
  ne_parent : name ≠ ".."
  no_separator : ∀ c ∈ name.toList, isSeparator c = false

def Canonical (path : String) : Prop :=
  path = "/" ∨
    ∃ names : List String, names ≠ [] ∧ (∀ name ∈ names, CanonicalName name) ∧ path = slashed names

/-- The text of the names that are left of the segments, built even if the path is that text. -/
def rebuilt (path : String) : String := (Normalized.ofNames (collapse (segments path))).text

theorem canonicalName_of_mem_segments {path name : String} (h : name ∈ segments path)
    (hparent : name ≠ "..") : CanonicalName name :=
  ⟨(mem_segments h).1, (mem_segments h).2.1, hparent,
    fun _ hc => not_isSeparator_of_mem_segments h hc⟩

theorem canonicalName_of_mem_collapse {path name : String} (h : name ∈ collapse (segments path)) :
    CanonicalName name :=
  canonicalName_of_mem_segments (mem_collapse h).1 (mem_collapse h).2

theorem canonical_text_ofNames {names : List String} (h : ∀ name ∈ names, CanonicalName name) :
    Canonical (Normalized.ofNames names).text := by
  cases names with
  | nil => exact .inl rfl
  | cons name rest => exact .inr ⟨name :: rest, List.cons_ne_nil name rest, h, rfl⟩

theorem canonical_rebuilt (path : String) : Canonical (rebuilt path) :=
  canonical_text_ofNames fun _ hname => canonicalName_of_mem_collapse hname

theorem segments_of_canonicalNames {names : List String} (h : ∀ name ∈ names, CanonicalName name) :
    segments (slashed names) = names :=
  segments_slashed fun name hname =>
    ⟨(h name hname).ne_empty, (h name hname).ne_dot, (h name hname).no_separator⟩

theorem collapse_of_canonicalNames {names : List String} (h : ∀ name ∈ names, CanonicalName name) :
    collapse names = names :=
  collapse_of_not_mem fun hmem => (h ".." hmem).ne_parent rfl

/-- Only the slashes in front of the names separate in a canonical text. -/
theorem isSeparator_of_mem_slashed {names : List String} (h : ∀ name ∈ names, CanonicalName name)
    {c : Char} (hc : c ∈ (slashed names).toList) : isSeparator c = (c == '/') := by
  rw [toList_slashed, List.mem_flatMap] at hc
  obtain ⟨name, hname, hc⟩ := hc
  obtain rfl | hc := List.mem_cons.1 hc
  · rfl
  · have hsep := (h name hname).no_separator c hc
    have hslash : (c == '/') = false := (Bool.or_eq_false_iff.1 hsep).1
    rw [hsep, hslash]

theorem isNormal_slashed {names : List String} (hne : names ≠ [])
    (h : ∀ name ∈ names, CanonicalName name) : isNormal (slashed names) = true := by
  obtain ⟨name, rest, rfl⟩ := List.exists_cons_of_ne_nil hne
  obtain ⟨tail, htail⟩ : ∃ tail, (slashed (name :: rest)).toList = '/' :: tail :=
    ⟨_, by rw [toList_slashed, List.flatMap_cons, List.cons_append]⟩
  -- no other character separates, so cutting at the slashes gives the names
  have hpieces : pieces (· == '/') tail = (name :: rest).map String.toList := by
    have hall : pieces isSeparator (slashed (name :: rest)).toList = _ :=
      pieces_slashed rfl fun s hs => (h s hs).no_separator
    rw [pieces_congr fun c hc => isSeparator_of_mem_slashed h hc, htail, pieces,
      if_pos (beq_self_eq_true '/')] at hall
    exact (List.cons.inj hall).2
  have hback : '\\' ∉ tail := fun hmem => by
    have hsep := isSeparator_of_mem_slashed h (htail ▸ List.mem_cons_of_mem '/' hmem)
    cases hsep
  have hplain : (pieces (· == '/') tail).all isPlain = true := by
    rw [hpieces, List.all_map, List.all_eq_true]
    intro s hs
    exact isPlain_toList.2 ⟨(h s hs).ne_empty, (h s hs).ne_dot, (h s hs).ne_parent⟩
  rw [isNormal, htail]
  simp [hback, hplain]

theorem isNormal_iff {path : String} : isNormal path = true ↔ Canonical path := by
  constructor
  · intro h
    by_cases hroot : path = "/"
    · exact .inl hroot
    · obtain ⟨hne, hparent, hslashed⟩ := segments_of_isNormal h hroot
      refine .inr ⟨segments path, hne, fun name hname => ?_, hslashed.symm⟩
      exact canonicalName_of_mem_segments hname fun he => hparent (he ▸ hname)
  · rintro (rfl | ⟨names, hne, hnames, rfl⟩)
    · rfl
    · exact isNormal_slashed hne hnames

/-- A canonical text ends in a name, but for that of the root directory. -/
theorem Canonical.getLast?_ne {path : String} (h : Canonical path) (hroot : path ≠ "/") :
    path.toList.getLast? ≠ some '/' := by
  obtain rfl | ⟨names, hne, hnames, rfl⟩ := h
  · exact absurd rfl hroot
  · obtain ⟨init, last, rfl⟩ : ∃ init last, names = init ++ [last] :=
      ⟨_, _, (List.dropLast_concat_getLast hne).symm⟩
    have hlast : CanonicalName last := hnames last (by simp)
    have hend : (slashed (init ++ [last])).toList =
        ((slashed init).toList ++ ['/']) ++ last.toList := by
      simp [toList_slashed]
    have hnil : last.toList ≠ [] := fun he => hlast.ne_empty (String.toList_eq_nil_iff.1 he)
    rw [hend, List.getLast?_append, List.getLast?_eq_some_getLast hnil, Option.some_or]
    intro hslash
    have hsep := hlast.no_separator _ (List.getLast_mem hnil)
    rw [Option.some.inj hslash] at hsep
    cases hsep

/-- The test as four checks: looking at the end of the text as well refuses nothing more, since
the piece behind a slash at the end is empty. -/
theorem isNormal_eq_checks (path : String) :
    isNormal path = (path == "/" ||
      (path.toList.head? == some '/' && path.toList.getLast? != some '/' &&
        !path.toList.contains '\\' && (pieces (· == '/') path.toList.tail).all isPlain)) := by
  by_cases hroot : path = "/"
  · subst hroot
    rfl
  · have hend : isNormal path = true → path.toList.getLast? ≠ some '/' := fun h =>
      (isNormal_iff.1 h).getLast?_ne hroot
    rw [isNormal, beq_eq_false_iff_ne.2 hroot, Bool.false_or] at hend ⊢
    rw [Bool.false_or]
    split at hend
    next rest hrest =>
      rw [hrest] at hend ⊢
      have hlast : ('\\' ∉ rest ∧ ∀ p ∈ pieces (· == '/') rest, isPlain p = true) →
          ('/' :: rest).getLast? ≠ some '/' := by simpa using hend
      rw [Bool.eq_iff_iff]
      simpa using fun hplain hback => hlast ⟨hback, hplain⟩
    next hslash =>
      cases hpath : path.toList with
      | nil => rfl
      | cons c rest =>
        have hc : c ≠ '/' := fun he => hslash rest (he ▸ hpath)
        simp [hc]

/-- A canonical text is what is built from its segments. -/
theorem Canonical.rebuilt_eq {path : String} (h : Canonical path) : rebuilt path = path := by
  obtain rfl | ⟨names, hne, hnames, rfl⟩ := h
  · rfl
  · rw [rebuilt, segments_of_canonicalNames hnames, collapse_of_canonicalNames hnames]
    obtain ⟨name, rest, rfl⟩ := List.exists_cons_of_ne_nil hne
    rfl

theorem rebuilt_eq_self_iff {path : String} : rebuilt path = path ↔ Canonical path :=
  ⟨fun h => h ▸ canonical_rebuilt path, Canonical.rebuilt_eq⟩

theorem normalize_of_isNormal {path : String} (h : isNormal path = true) :
    normalize path = path := by
  rw [normalize, Normalized.ofPath, if_pos h]
  rfl

theorem normalize_eq_rebuilt (path : String) : normalize path = rebuilt path := by
  rw [normalize_eq, rebuilt, text_ofNames]

theorem canonical_normalize (path : String) : Canonical (normalize path) :=
  normalize_eq_rebuilt path ▸ canonical_rebuilt path

/-- A text that is built is shared only if nothing is left to build it of. -/
theorem isShared_ofNames {names : List String} (h : ∀ name ∈ names, CanonicalName name) :
    (Normalized.ofNames names).isShared = true ↔ (Normalized.ofNames names).text = "/" := by
  cases names with
  | nil => exact iff_of_true rfl rfl
  | cons name rest =>
    refine iff_of_false Bool.false_ne_true fun hroot => ?_
    have hsegments := segments_of_canonicalNames h
    rw [show slashed (name :: rest) = "/" from hroot] at hsegments
    cases hsegments

/-- A normal form is canonical and is what is built of the names that are left, also where it is
the text itself; that is so exactly for the texts that pass as normal, and for these and the root
directory no text of its own is needed. -/
theorem normalize_canonical (path : String) :
    Canonical (normalize path) ∧
      normalize path = rebuilt path ∧
      (isNormal path = true ↔ rebuilt path = path) ∧
      normalize (normalize path) = normalize path ∧
      ((Normalized.ofPath path).isShared = true ↔
        isNormal path = true ∨ normalize path = "/") := by
  have hcanonical : Canonical (normalize path) := canonical_normalize path
  refine ⟨hcanonical, normalize_eq_rebuilt path, ?_, ?_, ?_⟩
  · rw [isNormal_iff, rebuilt_eq_self_iff]
  · exact normalize_of_isNormal (isNormal_iff.2 hcanonical)
  · by_cases h : isNormal path = true
    · rw [Normalized.ofPath, if_pos h]
      exact iff_of_true rfl (.inl h)
    · rw [normalize_eq_rebuilt, rebuilt, Normalized.ofPath, if_neg h,
        isShared_ofNames fun _ hname => canonicalName_of_mem_collapse hname]
      simp [h]

example : normalize "../a//b\\./.." = "/a" := by decide

end Overlay
