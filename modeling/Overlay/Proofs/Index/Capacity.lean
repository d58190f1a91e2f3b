import Mathlib.Logic.Relation
import Mathlib.Order.Bounds.Basic
import Mathlib.Order.Nat
import Overlay.Proofs.Index.Contents

/-!
# The capacity of the path table

Room is made by doubling. A round of it, `Doubles`, takes place while the capacity is not good for
what is needed and a word can hold its double. `Suits` says that a capacity is what such rounds lead
to: it is good for all needs there were, and if it is not the smallest one then half of it was not
good for one of them. So the capacity of a table is the least that is good for all that was ever put
or reserved, and it is bounded by what was put: `capacity_run`.
-/

namespace Overlay

open Relation

variable {ω : Type}

namespace IndexEdit

def need? (count : Nat) : IndexEdit ω → Option Nat
  | put _ => some (count + 1)
  | reserve additional => some (count + min additional PathTable.maxReserve)
  | warn _ => none

def needs (count : Nat) : List (IndexEdit ω) → List Nat
  | [] => []
  | e :: rest => (e.need? count).toList ++ needs (count + e.put?.toList.length) rest

theorem length_puts_cons (e : IndexEdit ω) (rest : List (IndexEdit ω)) :
    (puts (e :: rest)).length = e.put?.toList.length + (puts rest).length := by
  cases e with
  | put l => exact Nat.add_comm _ 1
  | reserve additional => exact (Nat.zero_add _).symm
  | warn key => exact (Nat.zero_add _).symm

theorem needs_append (count : Nat) (a b : List (IndexEdit ω)) :
    needs count (a ++ b) = needs count a ++ needs (count + (puts a).length) b := by
  induction a generalizing count with
  | nil => rfl
  | cons e rest ih =>
    rw [List.cons_append, needs, ih, needs, length_puts_cons, List.append_assoc, Nat.add_assoc]

theorem need?_le {count need : Nat} {e : IndexEdit ω} (h : e.need? count = some need) :
    need ≤ count + PathTable.maxReserve := by
  cases e with
  | put l =>
    obtain rfl := Option.some.inj h
    exact Nat.add_le_add_left (by decide) count
  | reserve additional =>
    obtain rfl := Option.some.inj h
    exact Nat.add_le_add_left (Nat.min_le_right ..) count
  | warn key => cases h

theorem le_of_mem_needs {count need : Nat} {edits : List (IndexEdit ω)}
    (h : need ∈ needs count edits) :
    need ≤ count + (puts edits).length + PathTable.maxReserve := by
  induction edits generalizing count with
  | nil => cases h
  | cons e rest ih =>
    rw [length_puts_cons]
    rcases List.mem_append.1 h with hfirst | hlater
    · have hneed := need?_le (Option.mem_toList.1 hfirst)
      omega
    · have hneed := ih hlater
      omega

/-- The last location that was put was given room. -/
theorem length_puts_mem_needs {count : Nat} {edits : List (IndexEdit ω)} (h : puts edits ≠ []) :
    count + (puts edits).length ∈ needs count edits := by
  induction edits generalizing count with
  | nil => exact absurd rfl h
  | cons e rest ih =>
    rw [needs, List.mem_append, length_puts_cons]
    by_cases hrest : puts rest = []
    · left
      cases e with
      | put l =>
        rw [hrest]
        exact List.mem_singleton.2 rfl
      | reserve additional => exact absurd hrest h
      | warn key => exact absurd hrest h
    · right
      rw [← Nat.add_assoc]
      exact ih hrest

end IndexEdit

namespace PathTable

/-- A round of making room: the capacity is not good for `needed`, and a word holds its double. -/
def Doubles (needed bits next : Nat) : Prop :=
  threshold (Nat.pow 2 bits) < needed ∧ Nat.pow 2 bits * 2 < UInt64.size ∧ next = bits + 1

theorem double_lt_iff {bits : Nat} : Nat.pow 2 bits * 2 < UInt64.size ↔ bits < 63 := by
  have hdouble : Nat.pow 2 bits * 2 = 2 ^ (bits + 1) := rfl
  have hsize : UInt64.size = 2 ^ 64 := rfl
  rw [hdouble, hsize, Nat.pow_lt_pow_iff_right (by decide)]
  omega

/-- The rounds of making room come to an end, whatever is needed. -/
theorem wellFounded_doubles (needed : Nat) :
    WellFounded fun next bits => Doubles needed bits next := by
  refine Subrelation.wf (fun {next bits} h => ?_) (measure fun bits => 63 - bits).wf
  obtain ⟨-, hword, rfl⟩ := h
  have hlt := double_lt_iff.1 hword
  change 63 - (bits + 1) < 63 - bits
  omega

theorem bitsFor_of_doubles {needed bits next : Nat} (h : Doubles needed bits next) :
    bitsFor needed bits = bitsFor needed next := by
  obtain ⟨hneeded, hword, rfl⟩ := h
  rw [bitsFor, if_pos ⟨hneeded, double_lt_iff.1 hword⟩]

theorem bitsFor_of_not_doubles {needed bits : Nat} (h : ∀ next, ¬ Doubles needed bits next) :
    bitsFor needed bits = bits := by
  rw [bitsFor, if_neg]
  rintro ⟨hneeded, hlt⟩
  exact h _ ⟨hneeded, double_lt_iff.2 hlt, rfl⟩

/-- Room is made by rounds of doubling until there is none left to do. -/
theorem bitsFor_reached (needed bits : Nat) :
    ReflTransGen (Doubles needed) bits (bitsFor needed bits) ∧
      ∀ next, ¬ Doubles needed (bitsFor needed bits) next := by
  induction bits using (wellFounded_doubles needed).induction with
  | h bits ih =>
    by_cases hdone : ∀ next, ¬ Doubles needed bits next
    · rw [bitsFor_of_not_doubles hdone]
      exact ⟨.refl, hdone⟩
    · push Not at hdone
      obtain ⟨next, hnext⟩ := hdone
      obtain ⟨hreached, hlast⟩ := ih next hnext
      rw [bitsFor_of_doubles hnext]
      exact ⟨hreached.head hnext, hlast⟩

theorem threshold_mono {a b : Nat} (h : a ≤ b) : threshold a ≤ threshold b :=
  Nat.mul_le_mul_right 3 (Nat.div_le_div_right h)

theorem threshold_pow_mono {a b : Nat} (h : a ≤ b) :
    threshold (Nat.pow 2 a) ≤ threshold (Nat.pow 2 b) :=
  threshold_mono (Nat.pow_le_pow_right (by decide) h)

/-- A need that no word can count is no different from the greatest word. -/
theorem bitsFor_min_word (needed bits : Nat) :
    bitsFor (min needed (UInt64.size - 1)) bits = bitsFor needed bits := by
  induction bits using (wellFounded_doubles needed).induction with
  | h bits ih =>
    have hround : ∀ next, Doubles (min needed (UInt64.size - 1)) bits next ↔
        Doubles needed bits next := by
      intro next
      refine and_congr_left fun ⟨hword, _⟩ => ?_
      have hthreshold : threshold (Nat.pow 2 bits) < UInt64.size - 1 := by
        change Nat.pow 2 bits * 2 < 2 ^ 64 at hword
        change Nat.pow 2 bits / 4 * 3 < 2 ^ 64 - 1
        omega
      rw [Nat.lt_min, and_iff_left hthreshold]
    by_cases hdone : ∀ next, ¬ Doubles needed bits next
    · rw [bitsFor_of_not_doubles hdone,
        bitsFor_of_not_doubles fun next hnext => hdone next ((hround next).1 hnext)]
    · push Not at hdone
      obtain ⟨next, hnext⟩ := hdone
      rw [bitsFor_of_doubles hnext, bitsFor_of_doubles ((hround next).2 hnext), ih next hnext]

/-- Rounds of making room lead up, and to no more than what was needed. -/
theorem of_reached {needed bits last : Nat} (h : ReflTransGen (Doubles needed) bits last) :
    bits ≤ last ∧
      (bits < last → last ≤ 63 ∧ threshold (Nat.pow 2 (last - 1)) < needed) := by
  induction h with
  | refl => exact ⟨Nat.le_refl bits, fun hlt => absurd hlt (Nat.lt_irrefl bits)⟩
  | tail _ hround ih =>
    obtain ⟨hneeded, hword, rfl⟩ := hround
    exact ⟨ih.1.trans (Nat.le_succ _), fun _ => ⟨double_lt_iff.1 hword, hneeded⟩⟩

structure Suits (needs : List Nat) (bits : Nat) : Prop where
  least : 7 ≤ bits
  most : bits ≤ 63
  good : bits < 63 → ∀ need ∈ needs, need ≤ threshold (Nat.pow 2 bits)
  needed : 7 < bits → ∃ need ∈ needs, threshold (Nat.pow 2 (bits - 1)) < need

namespace Suits

variable {needs : List Nat} {bits : Nat}

theorem bitsFor (h : Suits needs bits) (needed : Nat) :
    Suits (needs ++ [needed]) (bitsFor needed bits) := by
  obtain ⟨hreached, hlast⟩ := bitsFor_reached needed bits
  generalize PathTable.bitsFor needed bits = last at hreached hlast ⊢
  obtain ⟨hle, hmore⟩ := of_reached hreached
  rcases hle.eq_or_lt with rfl | hlt
  · refine ⟨h.least, h.most, fun hroom need hneed => ?_, fun hseven => ?_⟩
    · rcases List.mem_append.1 hneed with hold | hnew
      · exact h.good hroom need hold
      · rw [List.mem_singleton.1 hnew]
        by_contra! hneeded
        exact hlast _ ⟨hneeded, double_lt_iff.2 hroom, rfl⟩
    · obtain ⟨need, hneed, hlt⟩ := h.needed hseven
      exact ⟨need, List.mem_append_left _ hneed, hlt⟩
  · obtain ⟨hmost, hneeded⟩ := hmore hlt
    refine ⟨h.least.trans hle, hmost, fun hroom need hneed => ?_, fun _ => ?_⟩
    · rcases List.mem_append.1 hneed with hold | hnew
      · exact (h.good (hlt.trans hroom) need hold).trans (threshold_pow_mono hle)
      · rw [List.mem_singleton.1 hnew]
        by_contra! hneeded
        exact hlast _ ⟨hneeded, double_lt_iff.2 hroom, rfl⟩
    · exact ⟨needed, List.mem_append_right _ List.mem_cons_self, hneeded⟩

theorem le_of_good (h : Suits needs bits) {other : Nat} (hleast : 7 ≤ other)
    (hgood : (∀ need ∈ needs, need ≤ threshold (Nat.pow 2 other)) ∨ 63 ≤ other) :
    bits ≤ other := by
  by_contra! hlt
  rcases hgood with hgood | hmost
  · obtain ⟨need, hneed, hneeded⟩ := h.needed (hleast.trans_lt hlt)
    have hhalf := threshold_pow_mono (Nat.le_sub_one_of_lt hlt)
    exact absurd (hgood need hneed) (Nat.not_le.2 (hhalf.trans_lt hneeded))
  · exact absurd (hmost.trans_lt hlt) (Nat.not_lt.2 h.most)

end Suits

variable {t : PathTable ω}

theorem bits_grow (t : PathTable ω) (needed : Nat) :
    (t.grow needed).value.bits = bitsFor needed t.bits := by
  unfold grow
  dsimp only
  split
  next heq => exact heq.symm
  next => exact (entriesAt_foldl_place t.entries _).1

theorem count_grow (t : PathTable ω) (needed : Nat) : (t.grow needed).value.count = t.count := by
  unfold grow
  dsimp only
  split <;> rfl

theorem count_edit (t : PathTable ω) (e : IndexEdit ω) :
    (t.edit e).count = t.count + e.put?.toList.length := by
  cases e with
  | put l => exact congrArg Nat.succ (t.count_grow _)
  | reserve additional => exact t.count_grow _
  | warn key => rfl

theorem bits_edit (t : PathTable ω) (e : IndexEdit ω) :
    (t.edit e).bits = ((e.need? t.count).map fun need => bitsFor need t.bits).getD t.bits := by
  cases e with
  | put l => exact t.bits_grow _
  | reserve additional => exact (t.bits_grow _).trans (bitsFor_min_word ..)
  | warn key => rfl

theorem Suits.edit {needs : List Nat} (h : Suits needs t.bits) (e : IndexEdit ω) :
    Suits (needs ++ (e.need? t.count).toList) (t.edit e).bits := by
  rw [bits_edit]
  cases e.need? t.count with
  | none =>
    rw [Option.toList_none, List.append_nil]
    exact h
  | some need => exact h.bitsFor need

theorem Suits.foldl_edit {needs : List Nat} (h : Suits needs t.bits) (edits : List (IndexEdit ω)) :
    Suits (needs ++ IndexEdit.needs t.count edits) (edits.foldl PathTable.edit t).bits := by
  induction edits generalizing t needs with
  | nil =>
    rw [IndexEdit.needs, List.append_nil]
    exact h
  | cons e rest ih =>
    rw [IndexEdit.needs, ← List.append_assoc, ← count_edit]
    exact ih (h.edit e)

theorem suits_run (edits : List (IndexEdit ω)) :
    Suits (IndexEdit.needs 0 edits) (run edits).bits := by
  have hempty : Suits [] (empty (ω := ω)).bits :=
    ⟨Nat.le_refl 7, show 7 ≤ 63 by decide, fun _ => nofun, fun h => absurd h (Nat.lt_irrefl 7)⟩
  exact hempty.foldl_edit edits

/-- The capacities that a table may have to be good for all that was wanted of it. -/
def Serving (edits : List (IndexEdit ω)) : Set Nat :=
  {c | c.isPowerOfTwo ∧ 128 ≤ c ∧ ∀ need ∈ IndexEdit.needs 0 edits, need ≤ threshold c}

theorem pow_le_pow_iff {a b : Nat} : Nat.pow 2 a ≤ Nat.pow 2 b ↔ a ≤ b :=
  Nat.pow_le_pow_iff_right (by decide)

theorem isPowerOfTwo_pow (bits : Nat) : (Nat.pow 2 bits).isPowerOfTwo := ⟨bits, rfl⟩

/-- As far as words go, the capacity is the least that is good for all needs. -/
theorem isLeast_capacity (edits : List (IndexEdit ω)) :
    IsLeast (Serving edits ∪ {Nat.pow 2 63}) (run edits).capacity := by
  have h := suits_run edits
  constructor
  · rcases h.most.eq_or_lt with hmost | hroom
    · right
      rw [capacity, hmost]
      rfl
    · exact .inl ⟨isPowerOfTwo_pow _, pow_le_pow_iff.2 h.least, h.good hroom⟩
  · rintro c (⟨⟨other, rfl⟩, hleast, hgood⟩ | rfl)
    · exact pow_le_pow_iff.2 (h.le_of_good (pow_le_pow_iff.1 hleast) (.inl hgood))
    · exact pow_le_pow_iff.2 h.most

/-- A table that has grown is not much larger than what was put and may be reserved. -/
theorem capacity_lt (edits : List (IndexEdit ω)) (h : 128 < (run edits).capacity) :
    3 * (run edits).capacity < 8 * ((run edits).count + maxReserve) := by
  have hseven : 7 < (run edits).bits := lt_of_not_ge fun hle =>
    absurd h (Nat.not_lt.2 (pow_le_pow_iff.2 hle))
  obtain ⟨need, hneed, hlt⟩ := (suits_run edits).needed hseven
  have hmost := IndexEdit.le_of_mem_needs hneed
  rw [Nat.zero_add, ← (holds_run edits).count] at hmost
  obtain ⟨k, hk⟩ : ∃ k, (run edits).bits = k + 3 := ⟨(run edits).bits - 3, by omega⟩
  have hcapacity : (run edits).capacity = 8 * Nat.pow 2 k := by
    rw [capacity, hk]
    exact (Nat.pow_add 2 k 3).trans (Nat.mul_comm ..)
  have hhalf : Nat.pow 2 ((run edits).bits - 1) = 4 * Nat.pow 2 k := by
    rw [hk]
    exact (Nat.pow_add 2 k 2).trans (Nat.mul_comm ..)
  rw [hhalf, threshold, Nat.mul_div_cancel_left _ (by decide)] at hlt
  omega

theorem count_le_threshold (edits : List (IndexEdit ω))
    (h : ∀ need ∈ IndexEdit.needs 0 edits, need ≤ threshold (run edits).capacity) :
    4 * (run edits).count ≤ 3 * (run edits).capacity := by
  have hcount : (run edits).count ≤ threshold (run edits).capacity := by
    rw [(holds_run edits).count]
    by_cases hnil : IndexEdit.puts edits = []
    · rw [hnil]
      exact Nat.zero_le _
    · have hlast := h _ (IndexEdit.length_puts_mem_needs hnil)
      rwa [Nat.zero_add] at hlast
  unfold threshold at hcount
  omega

theorem capacity_mono (edits more : List (IndexEdit ω)) :
    (run edits).capacity ≤ (run (edits ++ more)).capacity := by
  refine (isLeast_capacity (edits ++ more)).mono (isLeast_capacity edits) ?_
  refine Set.union_subset_union_left _ fun c ⟨hpow, hleast, hgood⟩ => ⟨hpow, hleast, ?_⟩
  rw [IndexEdit.needs_append] at hgood
  exact fun need hneed => hgood need (List.mem_append_left _ hneed)

/-- The capacity is the least power of two, from 128 on, that is good for all needs there were, as
long as the largest capacity that a word can count is good for what was put and may be reserved:
then no word overflows. It never shrinks, and it is bounded by what was put. -/
theorem capacity_run (edits : List (IndexEdit ω)) :
    IsLeast (Serving edits ∪ {Nat.pow 2 63}) (run edits).capacity ∧
    ((run edits).count + maxReserve ≤ threshold (Nat.pow 2 63) →
      IsLeast (Serving edits) (run edits).capacity ∧
      4 * (run edits).count ≤ 3 * (run edits).capacity ∧
      ∀ (e : IndexEdit ω) (need : Nat), e.need? (run edits).count = some need →
        need < UInt64.size ∧
        ∀ bits, ReflTransGen (Doubles need) (run edits).bits bits →
          threshold (Nat.pow 2 bits) < need → Nat.pow 2 bits * 2 < UInt64.size) ∧
    (∀ more, (run edits).capacity ≤ (run (edits ++ more)).capacity) ∧
    ((run edits).capacity ≤ 128 ∨
      3 * (run edits).capacity < 8 * ((run edits).count + maxReserve)) ∧
    ∀ needed, (WellFounded fun next bits => Doubles needed bits next) ∧
      ∀ bits, ReflTransGen (Doubles needed) bits (bitsFor needed bits) ∧
        ∀ next, ¬ Doubles needed (bitsFor needed bits) next := by
  refine ⟨isLeast_capacity edits, fun hword => ?_, capacity_mono edits, ?_,
    fun needed => ⟨wellFounded_doubles needed, bitsFor_reached needed⟩⟩
  · have hmost : Nat.pow 2 63 ∈ Serving edits := by
      refine ⟨isPowerOfTwo_pow 63, by decide, fun need hneed => ?_⟩
      have hneed := IndexEdit.le_of_mem_needs hneed
      rw [Nat.zero_add, ← (holds_run edits).count] at hneed
      exact hneed.trans hword
    have hleast := isLeast_capacity edits
    rw [Set.union_eq_self_of_subset_right (Set.singleton_subset_iff.2 hmost)] at hleast
    refine ⟨hleast, count_le_threshold edits hleast.1.2.2, fun e need hneed => ?_⟩
    have hneed := (IndexEdit.need?_le hneed).trans hword
    refine ⟨hneed.trans_lt (by decide), fun bits _ hbits => double_lt_iff.2 ?_⟩
    by_contra! hle
    exact absurd (hbits.trans_le hneed) (Nat.not_lt.2 (threshold_pow_mono hle))
  · rcases Nat.lt_or_ge 128 (run edits).capacity with hlt | hle
    · exact .inr (capacity_lt edits hlt)
    · exact .inl hle

/-- The greatest reservation of a word counts for no more than `maxReserve`. -/
theorem capacity_run_reserving :
    let edits : List (IndexEdit Nat) := [.put ⟨.root, 0⟩, .reserve (UInt64.size - 1)]
    (run edits).count + maxReserve ≤ threshold (Nat.pow 2 63) ∧
      IsLeast (Serving edits) (Nat.pow 2 17) ∧ (run edits).capacity = Nat.pow 2 17 := by
  intro edits
  have hcapacity : (run edits).capacity = Nat.pow 2 17 := by decide +kernel
  have hword : (run edits).count + maxReserve ≤ threshold (Nat.pow 2 63) := by decide +kernel
  obtain ⟨-, hexact, -⟩ := capacity_run edits
  exact ⟨hword, hcapacity ▸ (hexact hword).1, hcapacity⟩

end PathTable

end Overlay
