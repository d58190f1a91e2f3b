import Overlay.Disk.Lexical
import Overlay.Proofs.Path.Parsing

/-!
# Normal forms of paths of the file system

Only the names and the `..` of a text lead anywhere, its `moves`; following the components of a text
leaves what is left of these, `ofText_eq`. Reading the text of names that can stand in a directory
gives the names again, `components_text`; so a normal form is its own normal form.
-/

namespace Overlay

structure DiskName (name : String) : Prop where
  ne_empty : name ≠ ""
  ne_dot : name ≠ "."
  ne_parent : name ≠ ".."
  no_slash : '/' ∉ name.toList

def Component.ofPart : String → Component
  | "." => .current
  | ".." => .parent
  | s => .name s

theorem DiskName.ofPart_eq {name : String} (h : DiskName name) :
    Component.ofPart name = .name name := by
  unfold Component.ofPart
  split
  · exact absurd rfl h.ne_dot
  · exact absurd rfl h.ne_parent
  · rfl

namespace DiskPath

theorem mem_parts {text s : String} (h : s ∈ parts text) : s ≠ "" ∧ '/' ∉ s.toList := by
  rw [parts, List.mem_filter, List.mem_map] at h
  obtain ⟨⟨p, hp, rfl⟩, hne⟩ := h
  refine ⟨bne_iff_ne.1 hne, fun hslash => ?_⟩
  rw [String.toList_ofList] at hslash
  have hsep := (mem_pieces hp '/' hslash).2
  cases hsep

theorem components_eq (text : String) :
    components text =
      if isRooted text then .root :: ((parts text).map .ofPart).filter (· != .current)
      else match (parts text).map Component.ofPart with
        | [] => []
        | first :: rest => first :: rest.filter (· != .current) := rfl

def moves (text : String) : List String := (parts text).filter (· != ".")

theorem mem_moves {text s : String} (h : s ∈ moves text) : s ≠ "" ∧ s ≠ "." ∧ '/' ∉ s.toList := by
  rw [moves, List.mem_filter, bne_iff_ne] at h
  exact ⟨(mem_parts h.1).1, h.2, (mem_parts h.1).2⟩

theorem diskName_of_mem_collapse {text s : String} (h : s ∈ collapse (moves text)) :
    DiskName s := by
  obtain ⟨hmem, hparent⟩ := mem_collapse h
  obtain ⟨hempty, hdot, hslash⟩ := mem_moves hmem
  exact ⟨hempty, hdot, hparent, hslash⟩

/-- A part does to a path what it does to the stack of the names, the last name first. -/
theorem step_ofPart {part : String} (h : part ≠ ".") (absolute : Bool) (stack : List String) :
    step ⟨absolute, stack.reverse⟩ (.ofPart part) = ⟨absolute, (climb stack part).reverse⟩ := by
  unfold Component.ofPart
  split
  · exact absurd rfl h
  · rw [climb_parent, step, pop, List.dropLast_reverse]
  next hparent => rw [climb_name stack hparent, List.reverse_cons, step, push]

theorem foldl_step_ofPart (absolute : Bool) (stack names : List String) :
    (names.map Component.ofPart).foldl step ⟨absolute, stack.reverse⟩ =
      ⟨absolute, ((names.filter (· != ".")).foldl climb stack).reverse⟩ := by
  induction names generalizing stack with
  | nil => rfl
  | cons part rest ih =>
    by_cases hdot : part = "."
    · rw [hdot, List.filter_cons_of_neg (by simp)]
      exact ih stack
    · rw [List.map_cons, List.foldl_cons, step_ofPart hdot, ih,
        List.filter_cons_of_pos (by simpa using hdot), List.foldl_cons]

theorem foldl_step_filter (cs : List Component) (path : DiskPath) :
    (cs.filter (· != .current)).foldl step path = cs.foldl step path := by
  induction cs generalizing path with
  | nil => rfl
  | cons c rest ih =>
    by_cases hc : c = .current
    · rw [hc, List.filter_cons_of_neg (by simp), ih]
      rfl
    · rw [List.filter_cons_of_pos (by simpa using hc), List.foldl_cons, List.foldl_cons, ih]

/-- Following a text leaves what is left of its names. -/
theorem ofText_eq (text : String) : ofText text = ⟨isRooted text, collapse (moves text)⟩ := by
  rw [ofText, components_eq]
  cases hrooted : isRooted text with
  | true =>
    rw [if_pos rfl, List.foldl_cons, foldl_step_filter]
    exact foldl_step_ofPart true [] (parts text)
  | false =>
    have hall := foldl_step_ofPart false [] (parts text)
    rw [if_neg Bool.false_ne_true]
    cases hparts : (parts text).map Component.ofPart with
    | nil => rwa [hparts] at hall
    | cons first rest =>
      rw [hparts, List.foldl_cons] at hall
      rwa [List.foldl_cons, foldl_step_filter]

def Proper (path : DiskPath) : Prop := ∀ s ∈ path.names, DiskName s

theorem proper_ofText (text : String) : (ofText text).Proper := by
  intro s hs
  rw [ofText_eq] at hs
  exact diskName_of_mem_collapse hs

end DiskPath

theorem slashed_eq_intercalate {names : List String} (h : names ≠ []) :
    slashed names = "/" ++ "/".intercalate names := by
  induction names with
  | nil => exact absurd rfl h
  | cons s rest ih =>
    by_cases hrest : rest = []
    · subst hrest
      simp
    · rw [slashed_cons, ih hrest, String.intercalate_cons_of_ne_nil hrest]
      simp only [String.append_assoc]

theorem pieces_intercalate {names : List String} (hne : names ≠ [])
    (h : ∀ s ∈ names, '/' ∉ s.toList) :
    pieces (· == '/') ("/".intercalate names).toList = names.map String.toList := by
  have hslash : "/".toList = ['/'] := rfl
  have hall : pieces (· == '/') (slashed names).toList = [] :: names.map String.toList :=
    pieces_slashed rfl fun s hs c hc => beq_eq_false_iff_ne.2 fun he => h s hs (he ▸ hc)
  rw [slashed_eq_intercalate hne, String.toList_append, hslash, List.singleton_append,
    pieces_cons_of_sep rfl] at hall
  exact (List.cons.inj hall).2

namespace DiskPath

variable {path : DiskPath}

theorem isRooted_append {s : String} (h : s ≠ "") (t : String) :
    isRooted (s ++ t) = isRooted s := by
  obtain ⟨c, cs, hs⟩ : ∃ c cs, s.toList = c :: cs :=
    List.exists_cons_of_ne_nil fun he => h (String.toList_eq_nil_iff.1 he)
  rw [isRooted, isRooted, String.toList_append, hs]
  rfl

theorem isRooted_of_not_mem {s : String} (h : '/' ∉ s.toList) : isRooted s = false := by
  rw [isRooted, beq_eq_false_iff_ne]
  exact fun hhead => h (List.mem_of_head? hhead)

theorem isRooted_text (h : path.Proper) : isRooted path.text = path.isAbsolute := by
  obtain ⟨absolute, names⟩ := path
  cases absolute with
  | true => exact isRooted_append (show "/" ≠ "" by decide) _
  | false =>
    cases names with
    | nil => rfl
    | cons s rest =>
      obtain ⟨hs, -⟩ := List.forall_mem_cons.1 h
      obtain ⟨behind, hbehind⟩ : ∃ t, text ⟨false, s :: rest⟩ = s ++ t := by
        cases rest with
        | nil => exact ⟨"", by simp [text]⟩
        | cons next rest => exact ⟨"/" ++ "/".intercalate (next :: rest), by
            simp [text, String.intercalate_cons_cons, String.append_assoc]⟩
      rw [hbehind, isRooted_append hs.ne_empty, isRooted_of_not_mem hs.no_slash]

theorem parts_text (h : path.Proper) : parts path.text = path.names := by
  obtain ⟨absolute, names⟩ := path
  by_cases hne : names = []
  · subst hne
    cases absolute <;> rfl
  · have hslash : "/".toList = ['/'] := rfl
    have hnames := pieces_intercalate hne fun s hs => (h s hs).no_slash
    have hkept : names.filter (· != "") = names :=
      List.filter_eq_self.2 fun s hs => bne_iff_ne.2 (h s hs).ne_empty
    have hback : (names.map String.toList).map String.ofList = names := by
      simp [List.map_map, Function.comp_def]
    rw [parts, text, String.toList_append]
    cases absolute with
    | true =>
      rw [if_pos rfl, hslash, List.singleton_append, pieces_cons_of_sep rfl, hnames, List.map_cons,
        hback, List.filter_cons_of_neg (by decide), hkept]
    | false =>
      rw [if_neg Bool.false_ne_true, String.toList_empty, List.nil_append, hnames, hback, hkept]

theorem moves_text (h : path.Proper) : moves path.text = path.names := by
  rw [moves, parts_text h, List.filter_eq_self]
  exact fun s hs => bne_iff_ne.2 (h s hs).ne_dot

theorem components_text (h : path.Proper) :
    components path.text =
      (if path.isAbsolute then [.root] else []) ++ path.names.map .name := by
  have hnames : path.names.map Component.ofPart = path.names.map .name :=
    List.map_congr_left fun s hs => (h s hs).ofPart_eq
  have hkept : ∀ names : List String,
      (names.map Component.name).filter (· != .current) = names.map .name := fun names =>
    List.filter_eq_self.2 fun c hc => by
      obtain ⟨s, -, rfl⟩ := List.mem_map.1 hc
      rfl
  rw [components_eq, isRooted_text h, parts_text h, hnames]
  cases path.isAbsolute with
  | true => rw [if_pos rfl, if_pos rfl, hkept, List.singleton_append]
  | false =>
    rw [if_neg Bool.false_ne_true, if_neg Bool.false_ne_true, List.nil_append]
    cases path.names with
    | nil => rfl
    | cons s rest => exact congrArg (Component.name s :: ·) (hkept rest)

theorem Proper.no_parent (h : path.Proper) : ".." ∉ path.names :=
  fun hmem => (h ".." hmem).ne_parent rfl

theorem ofText_text (h : path.Proper) : ofText path.text = path := by
  rw [ofText_eq, isRooted_text h, moves_text h, collapse_of_not_mem h.no_parent]

theorem text_inj {other : DiskPath} (h : path.Proper) (hother : other.Proper)
    (htext : path.text = other.text) : path = other := by
  rw [← ofText_text h, htext, ofText_text hother]

theorem normalizeDiskPath_eq_iff {a b : String} :
    normalizeDiskPath a = normalizeDiskPath b ↔ ofText a = ofText b :=
  ⟨text_inj (proper_ofText a) (proper_ofText b), congrArg text⟩

theorem isRooted_normalizeDiskPath (text : String) :
    isRooted (normalizeDiskPath text) = isRooted text := by
  rw [normalizeDiskPath, isRooted_text (proper_ofText text), ofText_eq]

theorem normalizeDiskPath_text (h : path.Proper) : normalizeDiskPath path.text = path.text := by
  rw [normalizeDiskPath, ofText_text h]

end DiskPath

end Overlay
