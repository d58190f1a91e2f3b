import Overlay.Path.Entry

/-!
# Paths and the texts they render as

Hash and length of a path are those of its text, and comparing a key name by name from the last
one backwards is comparing texts: `rendersAs_iff`. Two paths whose names are not empty and hold no
slash render alike only if they are the same: `Plain.render_inj`. `samePath_iff` needs no such
condition, since it compares the names themselves.
-/

namespace Overlay

theorem length_utf8 (s : String) : (utf8 s).length = s.utf8ByteSize := by
  simp [utf8]

namespace EntryPath

/-- No name is empty or holds a slash. -/
def Plain (path : EntryPath) : Prop := ∀ name ∈ path.names, name ≠ "" ∧ '/' ∉ name.toList

instance (path : EntryPath) : Decidable path.Plain :=
  inferInstanceAs (Decidable (∀ name ∈ path.names, name ≠ "" ∧ '/' ∉ name.toList))

theorem plain_child {parent : EntryPath} {name : String} :
    (parent.child name).Plain ↔ parent.Plain ∧ name ≠ "" ∧ '/' ∉ name.toList := by
  simp only [Plain, names, List.forall_mem_append, List.forall_mem_singleton]

theorem leadLength_eq (path : EntryPath) : path.leadLength = path.lead.utf8ByteSize := by
  induction path with
  | root => rfl
  | child parent name ih =>
    have hslash : "/".utf8ByteSize = 1 := rfl
    rw [leadLength, lead, String.utf8ByteSize_append, String.utf8ByteSize_append, ih, hslash]

theorem length_eq (path : EntryPath) : path.length = path.render.utf8ByteSize := by
  cases path with
  | root => rfl
  | child parent name => exact leadLength_eq _

theorem leadHash_eq (path : EntryPath) : path.leadHash = hashText path.lead := by
  induction path with
  | root => rfl
  | child parent name ih =>
    have hslash : utf8 "/" = [slash] := rfl
    rw [leadHash, lead, hashText, utf8_append, utf8_append, hashFrom_append, hashFrom_append, ih,
      hslash, hashText]

/-- The hash kept along the chain of parents is that of the whole text. -/
theorem hash_eq (path : EntryPath) : path.hash = hashText path.render := by
  cases path with
  | root => rfl
  | child parent name => exact leadHash_eq _

theorem sameNames_iff {a b : EntryPath} : a.sameNames b = true ↔ a = b := by
  induction a generalizing b with
  | root => cases b <;> simp [sameNames]
  | child p n ih => cases b <;> simp [sameNames, ih, and_comm]

theorem samePath_iff {a b : EntryPath} : a.samePath b = true ↔ a = b := by
  constructor
  · intro h
    simp only [samePath, Bool.and_eq_true] at h
    exact sameNames_iff.1 h.2
  · rintro rfl
    simp [samePath, sameNames_iff.2 rfl]

/-- A beginning of a list ends with an element and the `n` elements behind it. -/
theorem take_eq_append_cons {α : Type} {l : List α} {n stop : Nat} (hn : n < stop)
    (hs : stop ≤ l.length) :
    l.take stop = l.take (stop - n - 1) ++ l[stop - n - 1] :: (l.drop (stop - n)).take n := by
  have hstart : stop - n - 1 + 1 = stop - n := by omega
  calc l.take stop = l.take (stop - n - 1 + 1 + n) := by congr 1; omega
    _ = l.take (stop - n - 1) ++ [l[stop - n - 1]] ++ (l.drop (stop - n)).take n := by
      rw [List.take_add, List.take_succ_eq_append_getElem (by omega), hstart]
    _ = _ := by rw [List.append_assoc, List.singleton_append]

/-- Going back over the names of a path takes its text off the end of what is before `stop`. -/
theorem matchBack_eq_some {key : Array UInt8} {path : EntryPath}
    {stop left : { n // n ≤ key.size }} :
    path.matchBack key stop = some left ↔
      key.toList.take stop = key.toList.take left ++ utf8 path.lead := by
  induction path generalizing stop with
  | root =>
    obtain ⟨stop, hstop⟩ := stop
    obtain ⟨left, hleft⟩ := left
    have hempty : utf8 "" = [] := rfl
    simp only [matchBack, lead, hempty, List.append_nil, Option.some.injEq, Subtype.mk.injEq]
    constructor
    · rintro rfl; rfl
    · intro h
      have hlen := congrArg List.length h
      simp only [List.length_take, Array.length_toList] at hlen
      omega
  | child parent name ih =>
    obtain ⟨stop, hstop⟩ := stop
    have hslash : utf8 "/" = [slash] := rfl
    simp only [matchBack, lead, utf8_append, hslash, List.append_assoc, List.singleton_append]
    by_cases hlt : (utf8 name).length < stop
    · have hcut := take_eq_append_cons (l := key.toList) hlt (by simpa using hstop)
      have hlen : ((key.toList.drop (stop - (utf8 name).length)).take (utf8 name).length).length =
          (utf8 name).length := by
        simp only [List.length_take, List.length_drop, Array.length_toList]
        omega
      have hext : (key.extract (stop - (utf8 name).length) stop).toList =
          (key.toList.drop (stop - (utf8 name).length)).take (utf8 name).length := by
        rw [Array.toList_extract, List.extract_eq_take_drop]
        congr 1
        omega
      rw [dif_pos hlt, hcut, ← List.append_assoc, hext]
      constructor
      · intro h
        split at h
        next hc =>
          rw [ih] at h
          rw [h, hc.1, Array.getElem_toList, hc.2]
        next => simp at h
      · intro h
        obtain ⟨hl, hr⟩ := List.append_inj' h (by simp [hlen])
        obtain ⟨hs, hn⟩ := List.cons.inj hr
        rw [if_pos ⟨hn, hs⟩, ih]
        exact hl
    · rw [dif_neg hlt]
      simp only [reduceCtorEq, false_iff]
      intro h
      have hlen := congrArg List.length h
      simp only [List.length_take, List.length_append, List.length_cons,
        Array.length_toList] at hlen
      omega

theorem matchBack_whole {path : EntryPath} {key : String}
    {left : { n // n ≤ key.toByteArray.data.size }} :
    path.matchBack key.toByteArray.data ⟨_, Nat.le_refl _⟩ = some left ↔
      utf8 key = (utf8 key).take left ++ utf8 path.lead := by
  have hwhole : key.toByteArray.data.toList.take key.toByteArray.data.size = utf8 key := by
    rw [← Array.length_toList, List.take_length, utf8]
  rw [matchBack_eq_some, hwhole, utf8]

/-- Comparing names from the last one backwards is comparing texts. -/
theorem rendersAs_iff {path : EntryPath} {key : String} :
    path.rendersAs key = true ↔ path.render = key := by
  unfold rendersAs
  split
  next hne =>
    simp only [Bool.false_eq_true, false_iff]
    rintro rfl
    exact hne (length_eq path).symm
  next heq =>
    cases path with
    | root => rw [beq_iff_eq, eq_comm]; rfl
    | child parent name =>
      have hlen : (utf8 key).length = (utf8 (child parent name).lead).length := by
        rw [length_utf8, length_utf8, ← leadLength_eq]
        exact Decidable.not_not.1 heq
      dsimp only
      split
      next left hm =>
        rw [matchBack_whole] at hm
        have hnil : (utf8 key).take left = [] := by
          have := congrArg List.length hm
          rw [List.length_append] at this
          exact List.length_eq_zero_iff.1 (by omega)
        have hkey : render (child parent name) = key := by
          rw [hnil, List.nil_append, utf8_inj] at hm
          exact hm.symm
        have hleft : left.val = 0 := by
          have hle : left.val ≤ (utf8 key).length := left.property
          have := congrArg List.length hnil
          rw [List.length_take, List.length_nil] at this
          omega
        simp [hkey, hleft]
      next hm =>
        simp only [Bool.false_eq_true, false_iff]
        rintro rfl
        have hall : none = some (⟨0, Nat.zero_le _⟩ : { n // n ≤ _ }) :=
          hm.symm.trans (matchBack_whole.2 (by rw [List.take_zero, List.nil_append]; rfl))
        cases hall

theorem toList_lead_child (parent : EntryPath) (name : String) :
    (parent.child name).lead.toList = parent.lead.toList ++ '/' :: name.toList := by
  have hslash : "/".toList = ['/'] := rfl
  simp [lead, hslash]

/-- Texts with a slash in front of their last names have the same last name only if they have the
same beginning. -/
theorem append_slash_inj {a b m n : List Char} (hm : '/' ∉ m) (hn : '/' ∉ n)
    (h : a ++ '/' :: m = b ++ '/' :: n) : a = b ∧ m = n := by
  rw [List.append_eq_append_iff] at h
  obtain ⟨c, rfl, hc⟩ | ⟨c, rfl, hc⟩ := h
  · cases c with
    | nil => simpa using hc
    | cons x c =>
      obtain ⟨-, rfl⟩ := List.cons.inj hc
      simp at hm
  · cases c with
    | nil => simpa [eq_comm] using hc
    | cons x c =>
      obtain ⟨-, rfl⟩ := List.cons.inj hc
      simp at hn

theorem Plain.lead_inj {a b : EntryPath} (ha : a.Plain) (hb : b.Plain) (h : a.lead = b.lead) :
    a = b := by
  induction a generalizing b with
  | root =>
    cases b with
    | root => rfl
    | child q m =>
      have hlist := congrArg String.toList h
      rw [toList_lead_child] at hlist
      simp [lead] at hlist
  | child p n ih =>
    cases b with
    | root =>
      have hlist := congrArg String.toList h
      rw [toList_lead_child] at hlist
      simp [lead] at hlist
    | child q m =>
      rw [plain_child] at ha hb
      have hlist := congrArg String.toList h
      rw [toList_lead_child, toList_lead_child] at hlist
      obtain ⟨hp, hn⟩ := append_slash_inj ha.2.2 hb.2.2 hlist
      rw [ih ha.1 hb.1 (String.toList_inj.1 hp), String.toList_inj.1 hn]

theorem Plain.render_child_ne {p : EntryPath} {n : String} (h : (p.child n).Plain) :
    (p.child n).render ≠ "/" := by
  have hslash : "/".toList = ['/'] := rfl
  intro he
  have hlen := congrArg (fun s => s.toList.length) he
  simp only [render, toList_lead_child, hslash, List.length_append, List.length_cons,
    List.length_nil] at hlen
  have hn : n.toList = [] := List.length_eq_zero_iff.1 (by omega)
  exact (plain_child.1 h).2.1 (String.toList_eq_nil_iff.1 hn)

/-- Paths whose names are not empty and hold no slash are the texts they render as. -/
theorem Plain.render_inj {a b : EntryPath} (ha : a.Plain) (hb : b.Plain)
    (h : a.render = b.render) : a = b := by
  cases a with
  | root =>
    cases b with
    | root => rfl
    | child q m => exact absurd h.symm hb.render_child_ne
  | child p n =>
    cases b with
    | root => exact absurd h ha.render_child_ne
    | child q m => exact ha.lead_inj hb h

end EntryPath

end Overlay
