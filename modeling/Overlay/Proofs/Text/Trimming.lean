import Mathlib.Data.List.DropRight
import Overlay.Text.Blank

/-!
# What trimming leaves

What trimming leaves of a text is the word that stands between blanks and has none at its own ends,
`trim_eq_iff`; so every text has one such word and no other. `Encloses` says the same of bytes that
are the UTF-8 of a text.
-/

namespace Overlay.Text

def Blank (cs : List Char) : Prop := ∀ c ∈ cs, isBlank c

structure Bare (word : List Char) : Prop where
  first : ∀ c ∈ word.head?, ¬ isBlank c
  last : ∀ c ∈ word.getLast?, ¬ isBlank c

/-- The bytes are UTF-8 for a word between blanks. -/
def Encloses (bytes : ByteArray) (word : List Char) : Prop :=
  ∃ left right : List Char, bytes = (String.ofList (left ++ word ++ right)).toUTF8 ∧
    Blank left ∧ Blank right ∧ Bare word

theorem dropWhile_blank_append {left rest : List Char} (hleft : Blank left)
    (hrest : ∀ c ∈ rest.head?, ¬ isBlank c) : (left ++ rest).dropWhile isBlank = rest := by
  rw [List.dropWhile_append_of_pos hleft]
  cases rest with
  | nil => rfl
  | cons c rest => exact List.dropWhile_cons_of_neg (hrest c rfl)

theorem trim_enclosed {left word right : List Char} (hleft : Blank left) (hright : Blank right)
    (hword : Bare word) : trim (left ++ word ++ right) = word := by
  cases word with
  | nil =>
    have hblank : Blank (left ++ [] ++ right) := by
      rw [List.append_nil]
      exact List.forall_mem_append.2 ⟨hleft, hright⟩
    rw [trim, List.dropWhile_eq_nil_iff.2 hblank]
    rfl
  | cons c rest =>
    have hfront : (left ++ (c :: rest ++ right)).dropWhile isBlank = c :: rest ++ right :=
      dropWhile_blank_append hleft hword.first
    have hback : ((c :: rest ++ right).reverse.dropWhile isBlank).reverse = c :: rest := by
      rw [List.reverse_append, dropWhile_blank_append, List.reverse_reverse]
      · exact fun x hx => hright x (List.mem_reverse.1 hx)
      · rw [List.head?_reverse]
        exact hword.last
    rw [trim, List.append_assoc, hfront, hback]

theorem bare_trim (cs : List Char) : Bare (trim cs) where
  first := by
    have hprefix : trim cs <+: cs.dropWhile isBlank := List.rdropWhile_prefix isBlank _
    intro c hc hblank
    have hhead := List.head?_dropWhile_not isBlank cs
    obtain ⟨rest, hrest⟩ := hprefix
    rw [← hrest, List.head?_append, Option.mem_def.1 hc, Option.some_or] at hhead
    exact absurd hblank (Bool.eq_false_iff.1 hhead)
  last := by
    intro c hc
    obtain ⟨hne, rfl⟩ := List.mem_getLast?_eq_getLast hc
    exact List.rdropWhile_last_not isBlank _ hne

/-- Trimming leaves the word that stands between the blanks at both ends. -/
theorem trim_eq_iff {cs word : List Char} :
    trim cs = word ↔ ∃ left right : List Char,
      cs = left ++ word ++ right ∧ Blank left ∧ Blank right ∧ Bare word := by
  constructor
  · rintro rfl
    refine ⟨cs.takeWhile isBlank, (cs.dropWhile isBlank).rtakeWhile isBlank, ?_,
      fun c hc => List.mem_takeWhile_imp hc, fun c hc => List.mem_rtakeWhile_imp hc,
      bare_trim cs⟩
    have hback : trim cs ++ (cs.dropWhile isBlank).rtakeWhile isBlank = cs.dropWhile isBlank :=
      List.rdropWhile_append_rtakeWhile
    rw [List.append_assoc, hback, List.takeWhile_append_dropWhile]
  · rintro ⟨left, right, rfl, hleft, hright, hword⟩
    exact trim_enclosed hleft hright hword

theorem fromUTF8?_eq_some_iff {bytes : ByteArray} {s : String} :
    String.fromUTF8? bytes = some s ↔ bytes = s.toUTF8 := by
  rw [String.fromUTF8?, String.toUTF8_eq_toByteArray]
  constructor
  · intro h
    split at h
    · rw [← Option.some.inj h]
      rfl
    · cases h
  · rintro rfl
    rw [dif_pos s.isValidUTF8]
    rfl

end Overlay.Text
