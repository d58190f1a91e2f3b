import Mathlib.Data.List.DropRight
import Overlay.Proofs.Root.Directory

/-!
# What a relative path denotes

A path is taken from the current directory by joining the two texts. A normal form drops every `..`
that finds no name of its own text to take back, its `surplus`, although in the joined text such a
`..` takes back a name of the current directory. So a path and its normal form denote the same place
exactly if the path is absolute, or none of its `..` is surplus, or there is nothing to take back:
`normalizeDiskPath_join_iff`.
-/

namespace Overlay

/-- How many `..` find nothing to take back when there are `depth` names in front. -/
def surplus : Nat → List String → Nat
  | _, [] => 0
  | 0, s :: rest => if s = ".." then surplus 0 rest + 1 else surplus 1 rest
  | depth + 1, s :: rest => if s = ".." then surplus depth rest else surplus (depth + 2) rest

theorem surplus_name {s : String} (h : s ≠ "..") (depth : Nat) (rest : List String) :
    surplus depth (s :: rest) = surplus (depth + 1) rest := by
  cases depth <;> exact if_neg h

/-- The `..` that find nothing of their own take back what is below. -/
theorem foldl_climb_append (names top stack : List String) :
    names.foldl climb (top ++ stack) =
      names.foldl climb top ++ stack.drop (surplus top.length names) := by
  induction names generalizing top stack with
  | nil => rfl
  | cons s rest ih =>
    rw [List.foldl_cons, List.foldl_cons]
    by_cases hs : s = ".."
    · subst hs
      cases top with
      | nil =>
        have hbelow := ih [] stack.tail
        rw [List.nil_append, List.drop_tail] at hbelow
        exact hbelow
      | cons name top => exact ih top stack
    · rw [climb_name _ hs, climb_name _ hs, surplus_name hs]
      exact ih (s :: top) stack

theorem surplus_of_not_mem {names : List String} (h : ".." ∉ names) (depth : Nat) :
    surplus depth names = 0 := by
  induction names generalizing depth with
  | nil => rfl
  | cons s rest ih =>
    rw [List.mem_cons, not_or] at h
    rw [surplus_name (Ne.symm h.1), ih h.2]

/-- Somewhere on the way there were more `..` than names. -/
def Overruns (names : List String) : Prop :=
  ∃ way, way <+: names ∧ way.countP (· != "..") < way.count ".."

theorem surplus_pos_iff {depth : Nat} {names : List String} :
    0 < surplus depth names ↔
      ∃ way, way <+: names ∧ depth + way.countP (· != "..") < way.count ".." := by
  induction names generalizing depth with
  | nil => simp [surplus]
  | cons s rest ih =>
    have hways : (∃ way, way <+: s :: rest ∧ depth + way.countP (· != "..") < way.count "..") ↔
        ∃ way, way <+: rest ∧
          depth + (s :: way).countP (· != "..") < (s :: way).count ".." := by
      constructor
      · rintro ⟨way, hway, hlt⟩
        obtain rfl | ⟨way, rfl, hway⟩ := List.prefix_cons_iff.1 hway
        · simp at hlt
        · exact ⟨way, (List.cons_prefix_cons.1 hway).2, hlt⟩
      · rintro ⟨way, hway, hlt⟩
        exact ⟨s :: way, List.cons_prefix_cons.2 ⟨rfl, hway⟩, hlt⟩
    rw [hways]
    by_cases hs : s = ".."
    · subst hs
      cases depth with
      | zero => exact iff_of_true (Nat.succ_pos _) ⟨[], List.nil_prefix, by decide⟩
      | succ depth =>
        rw [show surplus (depth + 1) (".." :: rest) = surplus depth rest from rfl, ih]
        refine exists_congr fun way => and_congr_right fun _ => ?_
        rw [List.countP_cons_of_neg (by simp), List.count_cons_self]
        omega
    · rw [surplus_name hs, ih]
      refine exists_congr fun way => and_congr_right fun _ => ?_
      rw [List.countP_cons_of_pos (by simpa using hs), List.count_cons_of_ne hs]
      omega

theorem overruns_iff {names : List String} : Overruns names ↔ 0 < surplus 0 names := by
  rw [surplus_pos_iff, Overruns]
  simp only [Nat.zero_add]

instance (names : List String) : Decidable (Overruns names) :=
  decidable_of_iff _ overruns_iff.symm

theorem collapse_append (a b : List String) :
    collapse (a ++ b) = (collapse a).rdrop (surplus 0 b) ++ collapse b := by
  have hboth := foldl_climb_append b [] (a.foldl climb [])
  rw [List.nil_append] at hboth
  rw [collapse, List.foldl_append, hboth, List.reverse_append, collapse, collapse,
    List.rdrop_eq_reverse_drop_reverse, List.reverse_reverse]
  rfl

namespace DiskPath

/-- A path that is not absolute takes back as many names of the directory it is taken from as it has
surplus `..`. -/
theorem ofText_join {path : String} (h : isRooted path = false) (base : String) :
    ofText (join base path) = ⟨isRooted base,
      (ofText base).names.rdrop (surplus 0 (moves path)) ++ (ofText path).names⟩ := by
  rw [ofText_eq, isRooted_join h, moves, parts_join h, List.filter_append, ofText_eq, ofText_eq]
  exact congrArg (DiskPath.mk _) (collapse_append (moves base) (moves path))

end DiskPath

theorem rdrop_eq_self_iff {names : List String} {n : Nat} :
    names.rdrop n = names ↔ n = 0 ∨ names = [] := by
  constructor
  · intro h
    have hlength := congrArg List.length h
    rw [List.rdrop, List.length_take] at hlength
    rw [← List.length_eq_zero_iff]
    omega
  · rintro (rfl | rfl)
    · exact List.rdrop_zero names
    · exact List.rdrop_nil n

open DiskPath

/-- From a current directory a path and its normal form denote the same place exactly if the path is
absolute, or the directory is the root directory, or no `..` of the path comes before the names that
it could take back. -/
theorem normalizeDiskPath_join_iff {cwd : String} (hcwd : isRooted cwd = true) (path : String) :
    normalizeDiskPath (join cwd path) = normalizeDiskPath (join cwd (normalizeDiskPath path)) ↔
      isRooted path = true ∨ normalizeDiskPath cwd = "/" ∨ ¬ Overruns (moves path) := by
  have hproper : (ofText path).Proper := proper_ofText path
  have hrooted : isRooted (normalizeDiskPath path) = isRooted path :=
    isRooted_normalizeDiskPath path
  have hagain : normalizeDiskPath (normalizeDiskPath path) = normalizeDiskPath path :=
    normalizeDiskPath_text hproper
  cases habs : isRooted path with
  | true =>
    rw [join_of_isRooted habs, join_of_isRooted (hrooted.trans habs), hagain]
    simp
  | false =>
    have hnormal : ofText (join cwd (normalizeDiskPath path)) =
        ⟨true, (ofText cwd).names ++ (ofText path).names⟩ := by
      rw [ofText_join (hrooted.trans habs), hcwd, normalizeDiskPath, ofText_text hproper,
        moves_text hproper, surplus_of_not_mem hproper.no_parent, List.rdrop_zero]
    have hroot : normalizeDiskPath cwd = "/" ↔ (ofText cwd).names = [] := by
      rw [show "/" = normalizeDiskPath "/" from rfl, normalizeDiskPath_eq_iff, ofText_eq, hcwd]
      exact DiskPath.mk.injEq .. ▸ and_iff_right rfl
    rw [normalizeDiskPath_eq_iff, ofText_join habs, hnormal, hcwd, hroot, overruns_iff]
    simp only [DiskPath.mk.injEq, true_and, List.append_cancel_right_eq, rdrop_eq_self_iff,
      Bool.false_eq_true, false_or, Nat.not_lt, Nat.le_zero]
    exact or_comm

theorem normalizeDiskPath_join_iff_inside :
    isRooted "/a/c" = true ∧ ¬ Overruns (moves "./x//../b") ∧
      normalizeDiskPath (join "/a/c" "./x//../b") = "/a/c/b" ∧
      normalizeDiskPath (join "/a/c" "./x//../b") =
        normalizeDiskPath (join "/a/c" (normalizeDiskPath "./x//../b")) :=
  have hcwd : isRooted "/a/c" = true := by decide
  have hinside : ¬ Overruns (moves "./x//../b") := by decide
  ⟨hcwd, hinside, by decide, (normalizeDiskPath_join_iff hcwd _).2 (.inr (.inr hinside))⟩

/-- From `/a/c` the path `../b` denotes `/a/b`, but its normal form `/a/c/b`; where both are there,
the root that is made of the path serves the second. -/
theorem serves_another_directory :
    isRooted "/a/c" = true ∧
      normalizeDiskPath (join "/a/c" "../b") ≠
        normalizeDiskPath (join "/a/c" (normalizeDiskPath "../b")) ∧
      let disk : Disk := ⟨.directory [("a", .directory [("b", .directory []),
        ("c", .directory [("b", .directory [])])])], #[], ["a", "c"]⟩
      disk.canonicalize "../b" = .ok "/a/b" ∧
        DirectoryRoot.new disk "../b" = .ok ⟨⟨true, ["a", "c", "b"]⟩⟩ := by
  refine ⟨by decide, by decide, ?_⟩
  intro disk
  have hup : Disk.steps "../b" = ["..", "b"] := by decide
  have hnormal : normalizeDiskPath "../b" = "b" ∧ Disk.steps "b" = ["b"] := by decide
  have hwhole : Disk.steps "/a/c/b" = ["a", "c", "b"] := by decide
  have hplaces : disk.locate "../b" = .ok ["a", "b"] ∧ disk.locate "b" = .ok ["a", "c", "b"] ∧
      disk.locate "/a/c/b" = .ok ["a", "c", "b"] := by
    simp [disk, Disk.locate, hup, hnormal, hwhole, Disk.follow, DiskNode.get?, Disk.maxName,
      Disk.maxPath, isRooted]
    exact ⟨rfl, rfl, rfl⟩
  obtain ⟨helsewhere, hhere, hwhole⟩ := hplaces
  constructor
  · rw [Disk.canonicalize, helsewhere]
    exact congrArg Except.ok (show text ⟨true, ["a", "b"]⟩ = "/a/b" by decide)
  · rw [DirectoryRoot.new_eq_ok_iff, hnormal.1]
    refine ⟨["a", "c", "b"], hhere, ?_, by decide⟩
    rw [show text ⟨true, ["a", "c", "b"]⟩ = "/a/c/b" by decide, Disk.isDirectory, Disk.node?,
      hwhole]
    rfl

end Overlay
