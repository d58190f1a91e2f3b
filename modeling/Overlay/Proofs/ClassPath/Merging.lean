import Mathlib.Data.List.Sort
import Overlay.ClassPath.Validation
import Overlay.Proofs.Registration

/-!
# Merging the index with the fallback registry

A lookup merges the locations of an index entry with the answers of the members it asks. Whatever
these are, `collect` has at most one location for each ordinal, in increasing order, and `choose`
is the first of them: `choose_eq_head?`. `Sighted` are the locations that a merge can see. Where
one list has precisely these, in increasing order, the merge is that list: `collect_eq`.
-/

namespace Overlay

variable {σ δ : Type} {w : σ} {key : String}

theorem ask_eq_some {m : Member σ δ} {l : Found σ δ} :
    m.ask w key = some l ↔ m.root.resolve w key = some l.path ∧ l.origin = m := by
  obtain ⟨path, origin⟩ := l
  simp only [RootEntry.ask, Option.map_eq_some_iff, Located.mk.injEq]
  constructor
  · rintro ⟨path, hpath, rfl, rfl⟩
    exact ⟨hpath, rfl⟩
  · rintro ⟨hpath, rfl⟩
    exact ⟨path, hpath, rfl, rfl⟩

theorem foldl_prefer (ls : List (Found σ δ)) (first : Found σ δ) :
    ls.foldl Located.prefer first ∈ first :: ls ∧
      ∀ l ∈ first :: ls, (ls.foldl Located.prefer first).origin.ordinal ≤ l.origin.ordinal := by
  induction ls generalizing first with
  | nil => simp
  | cons x ls ih =>
    obtain ⟨hmem, hmin⟩ := ih (first.prefer x)
    have hchoice : (first.prefer x = first ∨ first.prefer x = x) ∧
        (first.prefer x).origin.ordinal ≤ first.origin.ordinal ∧
        (first.prefer x).origin.ordinal ≤ x.origin.ordinal := by
      unfold Located.prefer
      split
      · exact ⟨.inr rfl, by omega, by omega⟩
      · exact ⟨.inl rfl, by omega, by omega⟩
    rw [List.foldl_cons]
    refine ⟨?_, fun l hl => ?_⟩
    · rcases List.mem_cons.1 hmem with heq | hrest
      · rw [heq]
        rcases hchoice.1 with h | h <;> rw [h] <;> simp
      · exact List.mem_cons_of_mem _ (List.mem_cons_of_mem _ hrest)
    · have hbest := hmin _ List.mem_cons_self
      rcases List.mem_cons.1 hl with rfl | hl
      · omega
      · rcases List.mem_cons.1 hl with rfl | hl
        · omega
        · exact hmin l (List.mem_cons_of_mem _ hl)

theorem first_cons_others (e : Entry (Member σ δ)) : ∃ others, e.locations = e.first :: others := by
  cases e with
  | single first => exact ⟨[], rfl⟩
  | overlap first others warned => exact ⟨others, rfl⟩

theorem winner_mem (e : Entry (Member σ δ)) : e.winner ∈ e.locations := by
  obtain ⟨others, hlocs⟩ := first_cons_others e
  have h := (foldl_prefer e.locations e.first).1
  rw [hlocs] at h
  rw [Entry.winner, hlocs]
  simpa using h

theorem winner_le (e : Entry (Member σ δ)) {l : Found σ δ} (hl : l ∈ e.locations) :
    e.winner.origin.ordinal ≤ l.origin.ordinal :=
  (foldl_prefer e.locations e.first).2 l (List.mem_cons_of_mem _ hl)

theorem mem_complete {fallback : Registry (Root σ) δ} (hf : fallback.Pairwise RootEntry.Before)
    {found : List (Found σ δ)} {l : Found σ δ} :
    l ∈ complete w key fallback found ↔
      l ∈ found ∨ ∃ m ∈ fallback, m.ask w key = some l ∧
        ∀ x ∈ found, x.origin.ordinal ≠ m.ordinal := by
  induction fallback generalizing found with
  | nil => simp [complete]
  | cons m rest ih =>
    obtain ⟨hm, hrest⟩ := List.pairwise_cons.1 hf
    rw [complete]
    split
    next hany =>
      obtain ⟨x, hx, hxm⟩ := List.any_eq_true.1 hany
      rw [ih hrest]
      apply or_congr_right
      constructor
      · rintro ⟨m', hm', hask, hne⟩
        exact ⟨m', List.mem_cons_of_mem _ hm', hask, hne⟩
      · rintro ⟨m', hm', hask, hne⟩
        rcases List.mem_cons.1 hm' with rfl | hm'
        · exact absurd (beq_iff_eq.1 hxm) (hne x hx)
        · exact ⟨m', hm', hask, hne⟩
    next hnone =>
      have hfresh : ∀ x ∈ found, x.origin.ordinal ≠ m.ordinal := fun x hx heq =>
        hnone (List.any_eq_true.2 ⟨x, hx, beq_iff_eq.2 heq⟩)
      split
      next location hlocation =>
        obtain ⟨-, horigin⟩ := ask_eq_some.1 hlocation
        rw [ih hrest, List.mem_append, List.mem_singleton, or_assoc]
        apply or_congr_right
        constructor
        · rintro (rfl | ⟨m', hm', hask, hne⟩)
          · exact ⟨m, List.mem_cons_self, hlocation, hfresh⟩
          · exact ⟨m', List.mem_cons_of_mem _ hm', hask,
              fun x hx => hne x (List.mem_append_left _ hx)⟩
        · rintro ⟨m', hm', hask, hne⟩
          rcases List.mem_cons.1 hm' with rfl | hm'
          · exact .inl (Option.some.inj (hask.symm.trans hlocation))
          · refine .inr ⟨m', hm', hask, fun x hx => ?_⟩
            rcases List.mem_append.1 hx with hx | hx
            · exact hne x hx
            · rw [List.mem_singleton.1 hx, horigin]
              exact Nat.ne_of_lt (hm m' hm')
      next hask =>
        rw [ih hrest]
        apply or_congr_right
        constructor
        · rintro ⟨m', hm', hask', hne⟩
          exact ⟨m', List.mem_cons_of_mem _ hm', hask', hne⟩
        · rintro ⟨m', hm', hask', hne⟩
          rcases List.mem_cons.1 hm' with rfl | hm'
          · rw [hask] at hask'
            cases hask'
          · exact ⟨m', hm', hask', hne⟩

theorem mem_of_mem_dropRepeats {last : Option Nat} {ls : List (Found σ δ)} {l : Found σ δ}
    (h : l ∈ dropRepeats last ls) : l ∈ ls := by
  induction ls generalizing last with
  | nil => cases h
  | cons x ls ih =>
    rw [dropRepeats] at h
    split at h
    · exact List.mem_cons_of_mem _ (ih h)
    · rcases List.mem_cons.1 h with rfl | h
      · exact List.mem_cons_self
      · exact List.mem_cons_of_mem _ (ih h)

theorem exists_mem_dropRepeats {ls : List (Found σ δ)} {l : Found σ δ} (h : l ∈ ls)
    (last : Option Nat) :
    last = some l.origin.ordinal ∨
      ∃ l' ∈ dropRepeats last ls, l'.origin.ordinal = l.origin.ordinal := by
  induction ls generalizing last with
  | nil => cases h
  | cons x ls ih =>
    rw [dropRepeats]
    split
    next hlast =>
      rcases List.mem_cons.1 h with rfl | h
      · exact .inl hlast
      · exact ih h last
    next =>
      rcases List.mem_cons.1 h with rfl | h
      · exact .inr ⟨l, List.mem_cons_self, rfl⟩
      · rcases ih h (some x.origin.ordinal) with heq | ⟨l', hl', heq⟩
        · exact .inr ⟨x, List.mem_cons_self, Option.some.inj heq⟩
        · exact .inr ⟨l', List.mem_cons_of_mem _ hl', heq⟩

/-- What is left of a sorted list has increasing ordinals, all of them beyond the last one. -/
theorem pairwise_dropRepeats {ls : List (Found σ δ)} {last : Option Nat}
    (h : ls.Pairwise fun a b => a.origin.ordinal ≤ b.origin.ordinal)
    (hlast : ∀ n ∈ last, ∀ l ∈ ls, n ≤ l.origin.ordinal) :
    (dropRepeats last ls).Pairwise Located.Before ∧
      ∀ n ∈ last, ∀ l ∈ dropRepeats last ls, n < l.origin.ordinal := by
  induction ls generalizing last with
  | nil => simp [dropRepeats]
  | cons x ls ih =>
    obtain ⟨hx, hls⟩ := List.pairwise_cons.1 h
    rw [dropRepeats]
    split
    next =>
      exact ih hls fun n hn l hl => hlast n hn l (List.mem_cons_of_mem _ hl)
    next hne =>
      have hfrom : ∀ n ∈ some x.origin.ordinal, ∀ l ∈ ls, n ≤ l.origin.ordinal := by
        intro n hn l hl
        exact Option.some.inj hn ▸ hx l hl
      obtain ⟨hpair, hbeyond⟩ := ih hls hfrom
      refine ⟨List.pairwise_cons.2 ⟨fun l hl => hbeyond _ rfl l hl, hpair⟩, fun n hn l hl => ?_⟩
      have hle := hlast n hn x List.mem_cons_self
      have hneq : n ≠ x.origin.ordinal := fun heq => hne (heq ▸ hn)
      rcases List.mem_cons.1 hl with rfl | hl
      · omega
      · have := hbeyond _ rfl l hl
        omega

section Merge

variable {fallback : Registry (Root σ) δ} {entry : Option (Entry (Member σ δ))}

def locationsOf (entry : Option (Entry (Member σ δ))) : List (Found σ δ) :=
  (entry.map Entry.locations).getD []

theorem pairwise_collect : (collect w key fallback entry).Pairwise Located.Before := by
  refine (pairwise_dropRepeats ?_ (by simp)).1
  refine (List.pairwise_mergeSort ?_ ?_ _).imp fun h => of_decide_eq_true h
  · intro a b c hab hbc
    simp only [decide_eq_true_eq] at hab hbc ⊢
    omega
  · intro a b
    simp only [Bool.or_eq_true, decide_eq_true_eq]
    omega

def OnePerOrdinal (found : List (Found σ δ)) : Prop :=
  ∀ a ∈ found, ∀ b ∈ found, a.origin.ordinal = b.origin.ordinal → a = b

theorem OnePerOrdinal.complete (hf : fallback.Pairwise RootEntry.Before)
    {found : List (Found σ δ)} (hone : OnePerOrdinal found) :
    OnePerOrdinal (complete w key fallback found) := by
  intro a ha b hb hab
  rw [mem_complete hf] at ha hb
  rcases ha with ha | ⟨m, hm, hask, hfresh⟩
  · rcases hb with hb | ⟨m', hm', hask', hfresh'⟩
    · exact hone a ha b hb hab
    · rw [(ask_eq_some.1 hask').2] at hab
      exact absurd hab (hfresh' a ha)
  · rw [(ask_eq_some.1 hask).2] at hab
    rcases hb with hb | ⟨m', hm', hask', hfresh'⟩
    · exact absurd hab.symm (hfresh b hb)
    · rw [(ask_eq_some.1 hask').2] at hab
      obtain rfl := RootEntry.eq_of_ordinal_eq hf hm hm' hab
      exact Option.some.inj (hask.symm.trans hask')

/-- A merge keeps what it has seen, if an ordinal has only one location in the index. -/
theorem mem_collect (hf : fallback.Pairwise RootEntry.Before)
    (hone : OnePerOrdinal (locationsOf entry)) {l : Found σ δ} :
    l ∈ collect w key fallback entry ↔
      l ∈ locationsOf entry ∨ ∃ m ∈ fallback, m.ask w key = some l ∧
        ∀ x ∈ locationsOf entry, x.origin.ordinal ≠ m.ordinal := by
  rw [← mem_complete hf]
  unfold collect
  constructor
  · intro h
    exact List.mem_mergeSort.1 (mem_of_mem_dropRepeats h)
  · intro h
    have hsorted : l ∈ (complete w key fallback (locationsOf entry)).mergeSort
        fun a b => a.origin.ordinal ≤ b.origin.ordinal := List.mem_mergeSort.2 h
    obtain hnone | ⟨l', hl', heq⟩ := exists_mem_dropRepeats hsorted none
    · cases hnone
    · have hcomplete := List.mem_mergeSort.1 (mem_of_mem_dropRepeats hl')
      obtain rfl : l' = l := hone.complete hf l' hcomplete l h heq
      exact hl'

theorem head?_eq_some {ls : List (Found σ δ)} (h : ls.Pairwise Located.Before) {l : Found σ δ}
    (hl : l ∈ ls) (hmin : ∀ l' ∈ ls, ¬ l'.Before l) : ls.head? = some l := by
  cases ls with
  | nil => cases hl
  | cons x rest =>
    rcases List.mem_cons.1 hl with rfl | hrest
    · rfl
    · exact absurd ((List.pairwise_cons.1 h).1 l hrest) (hmin x List.mem_cons_self)

theorem not_before_head? {ls : List (Found σ δ)} (h : ls.Pairwise Located.Before)
    {l l' : Found σ δ} (hl : ls.head? = some l) (hl' : l' ∈ ls) : ¬ l'.Before l := by
  cases ls with
  | nil => cases hl'
  | cons x rest =>
    obtain rfl : x = l := Option.some.inj hl
    rcases List.mem_cons.1 hl' with rfl | hrest
    · exact Nat.lt_irrefl _
    · exact Nat.lt_asymm ((List.pairwise_cons.1 h).1 l' hrest)

theorem mem_takeWhile_precedes {location : Option (Found σ δ)}
    (hf : fallback.Pairwise RootEntry.Before) {m : Member σ δ} :
    m ∈ fallback.takeWhile (fun member => member.precedes location) ↔
      m ∈ fallback ∧ m.precedes location := by
  induction fallback with
  | nil => simp
  | cons x rest ih =>
    obtain ⟨hx, hrest⟩ := List.pairwise_cons.1 hf
    by_cases hp : x.precedes location
    · rw [List.takeWhile_cons, if_pos hp, List.mem_cons, ih hrest, List.mem_cons, or_and_right]
      exact or_congr_left ⟨fun h => ⟨h, h ▸ hp⟩, fun h => h.1⟩
    · rw [List.takeWhile_cons, if_neg hp]
      simp only [List.not_mem_nil, false_iff, not_and]
      intro hm hlow
      rcases List.mem_cons.1 hm with rfl | hm
      · exact hp hlow
      · cases location with
        | none => exact hp rfl
        | some winner =>
          have hbefore : x.ordinal < m.ordinal := hx m hm
          have hwinner : m.ordinal < winner.origin.ordinal := of_decide_eq_true hlow
          exact hp (decide_eq_true (hbefore.trans hwinner))

/-- Of the members that are asked, the first that answers is before all others that do. -/
theorem findSome?_ask {asked : List (Member σ δ)} (h : asked.Pairwise RootEntry.Before)
    {l : Found σ δ} (hl : asked.findSome? (RootEntry.ask w key) = some l) :
    l.origin ∈ asked ∧ l.origin.ask w key = some l ∧
      ∀ m ∈ asked, ∀ l', m.ask w key = some l' → ¬ l'.Before l := by
  obtain ⟨before, m, after, rfl, hask, hnone⟩ := List.findSome?_eq_some_iff.1 hl
  obtain rfl : l.origin = m := (ask_eq_some.1 hask).2
  refine ⟨by simp, hask, fun m' hm' l' hl' hbefore => ?_⟩
  obtain rfl : l'.origin = m' := (ask_eq_some.1 hl').2
  rcases List.mem_append.1 hm' with hm' | hm'
  · rw [hnone _ hm'] at hl'
    cases hl'
  · rcases List.mem_cons.1 hm' with heq | hm'
    · exact absurd hbefore (Nat.not_lt_of_le (Nat.le_of_eq (congrArg RootEntry.ordinal heq).symm))
    · have hafter := (List.pairwise_cons.1 (List.pairwise_append.1 h).2.1).1 _ hm'
      exact absurd hbefore (Nat.lt_asymm hafter)

theorem precedes_winner {m : Member σ δ} :
    m.precedes (entry.map Entry.winner) ↔
      ∀ x ∈ locationsOf entry, m.ordinal < x.origin.ordinal := by
  cases entry with
  | none => simp [RootEntry.precedes, locationsOf]
  | some e =>
    constructor
    · intro h x hx
      have hlow : m.ordinal < e.winner.origin.ordinal := of_decide_eq_true h
      exact Nat.lt_of_lt_of_le hlow (winner_le e hx)
    · intro h
      exact decide_eq_true (h e.winner (winner_mem e))

/-- The one lookup is the first answer of the other. -/
theorem choose_eq_head? (hf : fallback.Pairwise RootEntry.Before)
    (hone : OnePerOrdinal (locationsOf entry)) :
    choose w key fallback (entry.map Entry.winner) = (collect w key fallback entry).head? := by
  have hasked : (fallback.takeWhile fun m => m.precedes (entry.map Entry.winner)).Pairwise
      RootEntry.Before := hf.sublist (List.takeWhile_sublist _)
  unfold choose
  split
  next l hl =>
    obtain ⟨horigin, hask, hmin⟩ := findSome?_ask hasked hl
    rw [mem_takeWhile_precedes hf, precedes_winner] at horigin
    obtain ⟨hmem, hbelow⟩ := horigin
    refine (head?_eq_some pairwise_collect ?_ fun l' hl' hbefore => ?_).symm
    · exact (mem_collect hf hone).2
        (.inr ⟨l.origin, hmem, hask, fun x hx => Nat.ne_of_gt (hbelow x hx)⟩)
    · rcases (mem_collect hf hone).1 hl' with hloc | ⟨m, hm, hask', -⟩
      · exact Nat.lt_asymm hbefore (hbelow l' hloc)
      · obtain rfl : l'.origin = m := (ask_eq_some.1 hask').2
        refine hmin l'.origin ?_ l' hask' hbefore
        rw [mem_takeWhile_precedes hf, precedes_winner]
        exact ⟨hm, fun x hx => Nat.lt_trans hbefore (hbelow x hx)⟩
  next hnone =>
    rw [List.findSome?_eq_none_iff] at hnone
    cases entry with
    | none =>
      have hempty : collect w key fallback none = [] := by
        rw [List.eq_nil_iff_forall_not_mem]
        intro l hl
        rcases (mem_collect hf hone).1 hl with hloc | ⟨m, hm, hask, -⟩
        · cases hloc
        · rw [hnone m ((mem_takeWhile_precedes hf).2 ⟨hm, rfl⟩)] at hask
          cases hask
      rw [hempty]
      rfl
    | some e =>
      refine (head?_eq_some pairwise_collect ?_ fun l hl hbefore => ?_).symm
      · exact (mem_collect hf hone).2 (.inl (winner_mem e))
      · rcases (mem_collect hf hone).1 hl with hloc | ⟨m, hm, hask, -⟩
        · exact Nat.not_lt_of_le (winner_le e hloc) hbefore
        · obtain rfl : l.origin = m := (ask_eq_some.1 hask).2
          rw [hnone l.origin ((mem_takeWhile_precedes hf).2 ⟨hm, decide_eq_true hbefore⟩)] at hask
          cases hask

/-- The locations that a merge can see: those of the index entry and the answers of the members
in the registry. -/
def Sighted (w : σ) (key : String) (fallback : Registry (Root σ) δ)
    (entry : Option (Entry (Member σ δ))) (l : Found σ δ) : Prop :=
  l ∈ locationsOf entry ∨ ∃ m ∈ fallback, m.ask w key = some l

/-- Two merges of which one has the longer registry and the other the later entry: if they see the
same, so does a merge of the later entry with any registry in between. -/
theorem Sighted.between {low mid high : Registry (Root σ) δ}
    {early late : Option (Entry (Member σ δ))} (hlow : ∀ m ∈ low, m ∈ mid)
    (hhigh : ∀ m ∈ mid, m ∈ high)
    (h : ∀ l, Sighted w key low late l ↔ Sighted w key high early l) (l : Found σ δ) :
    Sighted w key mid late l ↔ Sighted w key high early l := by
  constructor
  · rintro (hloc | ⟨m, hm, hask⟩)
    · exact (h l).1 (.inl hloc)
    · exact .inr ⟨m, hhigh m hm, hask⟩
  · intro hl
    rcases (h l).2 hl with hloc | ⟨m, hm, hask⟩
    · exact .inl hloc
    · exact .inr ⟨m, hlow m hm, hask⟩

theorem OnePerOrdinal.of_sighted {all : List (Found σ δ)} (hall : all.Pairwise Located.Before)
    (hsee : ∀ l, Sighted w key fallback entry l → l ∈ all) : OnePerOrdinal (locationsOf entry) :=
  fun a ha b hb hab => Located.eq_of_ordinal_eq hall (hsee a (.inl ha)) (hsee b (.inl hb)) hab

/-- A merge keeps all that it can see, if an ordinal has only one answer. -/
theorem mem_collect_iff_sighted (hf : fallback.Pairwise RootEntry.Before) {all : List (Found σ δ)}
    (hall : all.Pairwise Located.Before) (hsee : ∀ l, Sighted w key fallback entry l → l ∈ all)
    {l : Found σ δ} : l ∈ collect w key fallback entry ↔ Sighted w key fallback entry l := by
  rw [mem_collect hf (.of_sighted hall hsee)]
  apply or_congr_right'
  intro hnot
  constructor
  · rintro ⟨m, hm, hask, -⟩
    exact ⟨m, hm, hask⟩
  · rintro ⟨m, hm, hask⟩
    refine ⟨m, hm, hask, fun x hx hordinal => hnot ?_⟩
    rw [← (ask_eq_some.1 hask).2] at hordinal
    rwa [← Located.eq_of_ordinal_eq hall (hsee x (.inl hx)) (hsee l (.inr ⟨m, hm, hask⟩)) hordinal]

/-- A merge is the list of what it can see, if an order makes one of it. -/
theorem collect_eq {answers : List (Found σ δ)} (hf : fallback.Pairwise RootEntry.Before)
    (hans : answers.Pairwise Located.Before)
    (hsee : ∀ l, l ∈ answers ↔ Sighted w key fallback entry l) :
    collect w key fallback entry = answers ∧
      choose w key fallback (entry.map Entry.winner) = answers.head? := by
  have hall : collect w key fallback entry = answers := by
    refine pairwise_collect.eq_of_mem_iff hans fun l => ?_
    rw [mem_collect_iff_sighted hf hans fun l => (hsee l).2, hsee]
  exact ⟨hall, hall ▸ choose_eq_head? hf (.of_sighted hans fun l => (hsee l).2)⟩

/-- A merge comes to nothing only if there is nothing to see. -/
theorem collect_ne_nil_iff (hf : fallback.Pairwise RootEntry.Before)
    (hone : OnePerOrdinal (locationsOf entry)) :
    collect w key fallback entry ≠ [] ↔ ∃ l, Sighted w key fallback entry l := by
  constructor
  · intro hne
    obtain ⟨l, hl⟩ := List.exists_mem_of_ne_nil _ hne
    rcases (mem_collect hf hone).1 hl with hloc | ⟨m, hm, hask, -⟩
    · exact ⟨l, .inl hloc⟩
    · exact ⟨l, .inr ⟨m, hm, hask⟩⟩
  · rintro ⟨l, hloc | ⟨m, hm, hask⟩⟩
    · exact List.ne_nil_of_mem ((mem_collect hf hone).2 (.inl hloc))
    · by_cases hfresh : ∀ x ∈ locationsOf entry, x.origin.ordinal ≠ m.ordinal
      · exact List.ne_nil_of_mem ((mem_collect hf hone).2 (.inr ⟨m, hm, hask, hfresh⟩))
      · push Not at hfresh
        obtain ⟨x, hx, -⟩ := hfresh
        exact List.ne_nil_of_mem ((mem_collect hf hone).2 (.inl hx))

/-- Merges of the same locations with a registry that answers the same are the same. -/
theorem collect_ext {w' : σ} {entry' : Option (Entry (Member σ δ))}
    (hf : fallback.Pairwise RootEntry.Before) (hone : OnePerOrdinal (locationsOf entry))
    (hone' : OnePerOrdinal (locationsOf entry'))
    (hlocations : ∀ l, l ∈ locationsOf entry ↔ l ∈ locationsOf entry')
    (hask : ∀ m ∈ fallback, m.ask w key = m.ask w' key) :
    collect w key fallback entry = collect w' key fallback entry' ∧
      choose w key fallback (entry.map Entry.winner) =
        choose w' key fallback (entry'.map Entry.winner) := by
  have hall : collect w key fallback entry = collect w' key fallback entry' := by
    refine pairwise_collect.eq_of_mem_iff pairwise_collect fun l => ?_
    rw [mem_collect hf hone, mem_collect hf hone', hlocations]
    apply or_congr_right
    constructor
    · rintro ⟨m, hm, hanswer, hfresh⟩
      exact ⟨m, hm, hask m hm ▸ hanswer, fun x hx => hfresh x ((hlocations x).2 hx)⟩
    · rintro ⟨m, hm, hanswer, hfresh⟩
      exact ⟨m, hm, (hask m hm).symm ▸ hanswer, fun x hx => hfresh x ((hlocations x).1 hx)⟩
  exact ⟨hall, by rw [choose_eq_head? hf hone, choose_eq_head? hf hone', hall]⟩

theorem collect_congr {fallback' : Registry (Root σ) δ} {entry' : Option (Entry (Member σ δ))}
    {all : List (Found σ δ)} (hf : fallback.Pairwise RootEntry.Before)
    (hf' : fallback'.Pairwise RootEntry.Before) (hall : all.Pairwise Located.Before)
    (hsee : ∀ l, Sighted w key fallback entry l → l ∈ all)
    (hiff : ∀ l, Sighted w key fallback' entry' l ↔ Sighted w key fallback entry l) :
    collect w key fallback' entry' = collect w key fallback entry ∧
      choose w key fallback' (entry'.map Entry.winner) =
        choose w key fallback (entry.map Entry.winner) := by
  have hsee' : ∀ l, Sighted w key fallback' entry' l → l ∈ all := fun l hl => hsee l ((hiff l).1 hl)
  have hcollect : collect w key fallback' entry' = collect w key fallback entry := by
    refine pairwise_collect.eq_of_mem_iff pairwise_collect fun l => ?_
    rw [mem_collect_iff_sighted hf' hall hsee', hiff, mem_collect_iff_sighted hf hall hsee]
  refine ⟨hcollect, ?_⟩
  rw [choose_eq_head? hf' (.of_sighted hall hsee'), choose_eq_head? hf (.of_sighted hall hsee),
    hcollect]

end Merge

end Overlay
