import Mathlib.Data.List.Induction
import Overlay.Proofs.Registration

/-!
# The registry under changes

An entry is inserted where a search finds that the entries of lower ordinals end, which asks for a
list in the order of the ordinals: `Ordered.enters`. Whatever is inserted and removed, the registry
stays in that order, and what it holds can be read off the changes: the entries whose ordinal was
not removed since, of those with the same ordinal the newest first. This is `Reflects`, which every
change keeps. Changes publish a new list and leave the published ones alone, so a snapshot stays
what it was: `registry_exact`.
-/

namespace Overlay

/-- A search for how far a condition reaches into a list in which it holds up to some place and
nowhere behind it. What it answers for other lists is left open. -/
def FindsBoundary {α : Type} (search : (α → Bool) → List α → Nat) : Prop :=
  ∀ (low : α → Bool) (front back : List α), (∀ a ∈ front, low a = true) →
    (∀ a ∈ back, low a = false) → search low (front ++ back) = front.length

def bisect {α : Type} (low : α → Bool) (l : List α) (lo hi : Nat) : Nat :=
  if lo < hi then
    let mid := (lo + hi) / 2
    if l[mid]?.any low then bisect low l (mid + 1) hi else bisect low l lo mid
  else lo
termination_by hi - lo

theorem bisect_append {α : Type} {low : α → Bool} {front back : List α} {lo hi : Nat}
    (hfront : ∀ a ∈ front, low a = true) (hback : ∀ a ∈ back, low a = false)
    (hlo : lo ≤ front.length) (hhi : front.length ≤ hi) :
    bisect low (front ++ back) lo hi = front.length := by
  fun_induction bisect low (front ++ back) lo hi with
  | case1 lo hi hlt mid hlow ih =>
    refine ih ?_ hhi
    by_contra hmid
    rw [List.getElem?_append_right (by omega), Option.any_eq_true] at hlow
    obtain ⟨a, ha, hlow⟩ := hlow
    rw [hback a (List.mem_of_getElem? ha)] at hlow
    cases hlow
  | case2 lo hi hlt mid hhigh ih =>
    refine ih hlo ?_
    by_contra hmid
    have hin : mid < front.length := by omega
    rw [List.getElem?_append_left hin, List.getElem?_eq_getElem hin, Option.any_some] at hhigh
    exact hhigh (hfront _ (List.getElem_mem hin))
  | case3 lo hi hlt => omega

theorem findsBoundary_bisect {α : Type} :
    FindsBoundary fun (low : α → Bool) (l : List α) => bisect low l 0 l.length := by
  intro low front back hfront hback
  exact bisect_append hfront hback (Nat.zero_le _) (by rw [List.length_append]; omega)

namespace Registry

variable {ρ δ : Type} {registry after : Registry ρ δ} {e : RootEntry ρ δ}

def Ordered (registry : Registry ρ δ) : Prop :=
  registry.Pairwise fun a b => a.ordinal ≤ b.ordinal

/-- One list is the other with an entry put behind all lower ordinals and before all others. -/
def Enters (e : RootEntry ρ δ) (registry after : Registry ρ δ) : Prop :=
  ∃ front back, registry = front ++ back ∧ after = front ++ e :: back ∧
    (∀ r ∈ front, r.ordinal < e.ordinal) ∧ ∀ r ∈ back, e.ordinal ≤ r.ordinal

theorem Ordered.enters (h : registry.Ordered) (e : RootEntry ρ δ) :
    Enters e registry (registry.insert e) := by
  induction registry with
  | nil => exact ⟨[], [], rfl, rfl, by simp, by simp⟩
  | cons x rest ih =>
    obtain ⟨hx, hrest⟩ := List.pairwise_cons.1 h
    by_cases hlt : x.ordinal < e.ordinal
    · obtain ⟨front, back, hsplit, hinsert, hfront, hback⟩ := ih hrest
      refine ⟨x :: front, back, by rw [hsplit, List.cons_append], ?_,
        List.forall_mem_cons.2 ⟨hlt, hfront⟩, hback⟩
      rw [insert, if_pos hlt, hinsert, List.cons_append]
    · have hle : e.ordinal ≤ x.ordinal := Nat.le_of_not_lt hlt
      refine ⟨[], x :: rest, rfl, by rw [insert, if_neg hlt, List.nil_append], by simp, ?_⟩
      exact List.forall_mem_cons.2 ⟨hle, fun r hr => Nat.le_trans hle (hx r hr)⟩

theorem Ordered.of_enters (h : registry.Ordered) (henters : Enters e registry after) :
    after.Ordered := by
  obtain ⟨front, back, rfl, rfl, hfront, hback⟩ := henters
  obtain ⟨hf, hb, hacross⟩ := List.pairwise_append.1 h
  refine List.pairwise_append.2 ⟨hf, List.pairwise_cons.2 ⟨hback, hb⟩, fun a ha b hb => ?_⟩
  obtain rfl | hb := List.mem_cons.1 hb
  · exact Nat.le_of_lt (hfront a ha)
  · exact hacross a ha b hb

theorem Enters.perm (h : Enters e registry after) : after.Perm (e :: registry) := by
  obtain ⟨front, back, rfl, rfl, -, -⟩ := h
  exact List.perm_middle

/-- An entry stands first among those of its ordinal. -/
theorem Enters.filter_ordinal (h : Enters e registry after) (ordinal : Nat) :
    after.filter (·.ordinal == ordinal) =
      [e].filter (·.ordinal == ordinal) ++ registry.filter (·.ordinal == ordinal) := by
  obtain ⟨front, back, rfl, rfl, hfront, -⟩ := h
  by_cases he : e.ordinal = ordinal
  · subst he
    have hnone : front.filter (·.ordinal == e.ordinal) = [] :=
      List.filter_eq_nil_iff.2 fun r hr => by simpa using Nat.ne_of_lt (hfront r hr)
    simp [List.filter_append, hnone]
  · simp [List.filter_append, he]

/-- Stopping at the first entry that does not come before an ordinal misses none that does. -/
theorem Ordered.takeWhile_eq_filter (h : registry.Ordered) (bound : Nat) :
    registry.takeWhile (·.ordinal < bound) = registry.filter (·.ordinal < bound) := by
  induction registry with
  | nil => rfl
  | cons x rest ih =>
    obtain ⟨hx, hrest⟩ := List.pairwise_cons.1 h
    by_cases hlt : x.ordinal < bound
    · rw [List.takeWhile_cons_of_pos (by simpa using hlt),
        List.filter_cons_of_pos (by simpa using hlt), ih hrest]
    · have hnone : (x :: rest).filter (·.ordinal < bound) = [] :=
        List.filter_eq_nil_iff.2 fun r hr => by
          have hle : x.ordinal ≤ r.ordinal := by
            obtain rfl | hr := List.mem_cons.1 hr
            · exact Nat.le_refl _
            · exact hx r hr
          simp only [decide_eq_true_eq]
          omega
      rw [List.takeWhile_cons_of_neg (by simpa using hlt), hnone]

def insertAt (search : (RootEntry ρ δ → Bool) → List (RootEntry ρ δ) → Nat)
    (e : RootEntry ρ δ) (registry : Registry ρ δ) : Registry ρ δ :=
  registry.insertIdx (search (fun r => r.ordinal < e.ordinal) registry) e

theorem Enters.insertAt_eq {search : (RootEntry ρ δ → Bool) → List (RootEntry ρ δ) → Nat}
    (hsearch : FindsBoundary search) (h : Enters e registry after) :
    registry.insertAt search e = after := by
  obtain ⟨front, back, rfl, rfl, hfront, hback⟩ := h
  have hplace : search (fun r => r.ordinal < e.ordinal) (front ++ back) = front.length :=
    hsearch _ front back (fun r hr => decide_eq_true (hfront r hr)) fun r hr =>
      decide_eq_false (Nat.not_lt.2 (hback r hr))
  rw [insertAt, hplace]
  clear hplace hfront hback
  induction front with
  | nil => rfl
  | cons x front ih => rw [List.cons_append, List.length_cons, List.insertIdx_succ_cons, ih,
      List.cons_append]

inductive Change (ρ δ : Type) where
  | insert (e : RootEntry ρ δ)
  | remove (ordinal : Nat)

def removedBy (ordinal : Nat) (changes : List (Change ρ δ)) : Bool :=
  changes.any fun
    | .insert _ => false
    | .remove removed => removed == ordinal

theorem removedBy_iff {ordinal : Nat} {changes : List (Change ρ δ)} :
    removedBy ordinal changes = true ↔ .remove ordinal ∈ changes := by
  rw [removedBy, List.any_eq_true]
  constructor
  · rintro ⟨c, hc, hremoves⟩
    cases c with
    | insert e => cases hremoves
    | remove removed => exact beq_iff_eq.1 hremoves ▸ hc
  · exact fun h => ⟨_, h, beq_self_eq_true ordinal⟩

/-- The entries that were inserted and whose ordinals were not removed since, the oldest first. -/
def standing : List (Change ρ δ) → List (RootEntry ρ δ)
  | [] => []
  | .insert e :: later =>
    if removedBy e.ordinal later then standing later else e :: standing later
  | .remove _ :: later => standing later

theorem mem_standing {changes : List (Change ρ δ)} :
    e ∈ standing changes ↔
      ∃ before later, changes = before ++ .insert e :: later ∧ .remove e.ordinal ∉ later := by
  induction changes with
  | nil => simp [standing]
  | cons c rest ih =>
    have hrest : e ∈ standing rest → ∃ before later, c :: rest = before ++ .insert e :: later ∧
        .remove e.ordinal ∉ later := fun h => by
      obtain ⟨before, later, rfl, hlater⟩ := ih.1 h
      exact ⟨c :: before, later, rfl, hlater⟩
    constructor
    · intro h
      cases c with
      | insert x =>
        rw [standing] at h
        split at h
        next => exact hrest h
        next hstays =>
          rw [removedBy_iff] at hstays
          obtain rfl | h := List.mem_cons.1 h
          · exact ⟨[], rest, rfl, hstays⟩
          · exact hrest h
      | remove ordinal => exact hrest h
    · rintro ⟨before, later, hsplit, hlater⟩
      obtain ⟨rfl, hc⟩ | ⟨before, rfl, hsplit⟩ := List.cons_eq_append_iff.1 hsplit
      · obtain ⟨rfl, rfl⟩ := List.cons.inj hc
        rw [standing, if_neg (mt removedBy_iff.1 hlater)]
        exact List.mem_cons_self
      · have hin : e ∈ standing rest := ih.2 ⟨before, later, (List.cons.inj hsplit).2, hlater⟩
        cases c with
        | insert x =>
          rw [standing]
          split
          · exact hin
          · exact List.mem_cons_of_mem x hin
        | remove ordinal => exact hin

theorem standing_concat_insert (changes : List (Change ρ δ)) (e : RootEntry ρ δ) :
    standing (changes ++ [.insert e]) = standing changes ++ [e] := by
  induction changes with
  | nil => rfl
  | cons c later ih =>
    cases c with
    | insert x =>
      have hsame : removedBy x.ordinal (later ++ [.insert e]) = removedBy x.ordinal later := by
        simp [removedBy]
      rw [List.cons_append, standing, standing, hsame, ih]
      split <;> rfl
    | remove ordinal => exact ih

theorem standing_concat_remove (changes : List (Change ρ δ)) (ordinal : Nat) :
    standing (changes ++ [.remove ordinal]) =
      (standing changes).filter (·.ordinal != ordinal) := by
  induction changes with
  | nil => rfl
  | cons c later ih =>
    cases c with
    | insert x =>
      have hnow : removedBy x.ordinal (later ++ [.remove ordinal]) =
          (removedBy x.ordinal later || ordinal == x.ordinal) := by
        simp [removedBy]
      rw [List.cons_append, standing, standing, hnow, ih]
      by_cases hold : removedBy x.ordinal later = true
      · rw [hold, Bool.true_or, if_pos rfl, if_pos rfl]
      · rw [Bool.not_eq_true] at hold
        rw [hold, Bool.false_or, if_neg Bool.false_ne_true]
        by_cases hx : x.ordinal = ordinal
        · simp [hx]
        · simp [hx, Ne.symm hx]
    | remove removed => exact ih

/-- Once an ordinal is removed, nothing of it stands until it is inserted again. -/
theorem ordinal_ne_of_mem_standing {changes between : List (Change ρ δ)} {ordinal : Nat}
    (hbetween : ∀ e, .insert e ∈ between → e.ordinal ≠ ordinal)
    (he : e ∈ standing (changes ++ .remove ordinal :: between)) : e.ordinal ≠ ordinal := by
  rintro rfl
  obtain ⟨before, later, hsplit, hlater⟩ := mem_standing.1 he
  obtain ⟨x, -, hx⟩ | ⟨x, -, hx⟩ := List.append_eq_append_iff.1 hsplit
  · obtain ⟨-, hx⟩ | ⟨x, rfl, hx⟩ := List.cons_eq_append_iff.1 hx
    · cases hx
    · have hin : .insert e ∈ between := by
        rw [(List.cons.inj hx).2]
        exact List.mem_append_right x List.mem_cons_self
      exact hbetween e hin rfl
  · obtain ⟨-, hx⟩ | ⟨x, rfl, hx⟩ := List.cons_eq_append_iff.1 hx
    · cases hx
    · rw [(List.cons.inj hx).2] at hlater
      exact hlater (List.mem_append_right x List.mem_cons_self)

structure Reflects (registry : Registry ρ δ) (changes : List (Change ρ δ)) : Prop where
  ordered : registry.Ordered
  perm : registry.Perm (standing changes)
  newest_first : ∀ ordinal, registry.filter (·.ordinal == ordinal) =
    ((standing changes).filter (·.ordinal == ordinal)).reverse

namespace Reflects

variable {changes : List (Change ρ δ)}

theorem empty : Reflects ([] : Registry ρ δ) [] :=
  ⟨List.Pairwise.nil, .refl _, fun _ => rfl⟩

theorem insert (h : Reflects registry changes) (e : RootEntry ρ δ) :
    Reflects (registry.insert e) (changes ++ [.insert e]) := by
  have henters : Enters e registry (registry.insert e) := h.ordered.enters e
  refine ⟨h.ordered.of_enters henters, ?_, fun ordinal => ?_⟩
  · rw [standing_concat_insert]
    calc (registry.insert e).Perm (e :: registry) := henters.perm
      _ |>.Perm (e :: standing changes) := h.perm.cons e
      _ |>.Perm (standing changes ++ [e]) := (List.perm_append_singleton e _).symm
  · rw [standing_concat_insert, henters.filter_ordinal, h.newest_first, List.filter_append,
      List.reverse_append]
    congr 1
    by_cases he : e.ordinal = ordinal <;> simp [he]

theorem remove (h : Reflects registry changes) (ordinal : Nat) :
    Reflects (registry.remove ordinal) (changes ++ [.remove ordinal]) := by
  refine ⟨h.ordered.filter _, ?_, fun other => ?_⟩
  · rw [standing_concat_remove]
    exact h.perm.filter _
  · have hcomm : ∀ l : List (RootEntry ρ δ), (l.filter (·.ordinal != ordinal)).filter
        (·.ordinal == other) = (l.filter (·.ordinal == other)).filter (·.ordinal != ordinal) :=
      fun l => by simp only [List.filter_filter, Bool.and_comm]
    rw [standing_concat_remove, Registry.remove, hcomm, hcomm, h.newest_first, List.filter_reverse]

theorem holds_iff (h : Reflects registry changes) {ordinal : Nat} :
    registry.holds ordinal = true ↔ ∃ e ∈ standing changes, e.ordinal = ordinal := by
  rw [holds, List.any_eq_true]
  simp only [h.perm.mem_iff, beq_iff_eq]

end Reflects

/-- A registry as lookups share it. Lists that were published stay; a snapshot is the place of the
one that was current. -/
structure Shared (ρ δ : Type) where
  lists : List (Registry ρ δ)
  current : Nat
  current_lt : current < lists.length

namespace Shared

def empty : Shared ρ δ := ⟨[[]], 0, Nat.one_pos⟩

def contents (s : Shared ρ δ) : Registry ρ δ := s.lists.get ⟨s.current, s.current_lt⟩

def publish (s : Shared ρ δ) (next : Registry ρ δ) : Shared ρ δ where
  lists := s.lists ++ [next]
  current := s.lists.length
  current_lt := by rw [List.length_append]; exact Nat.lt_succ_self _

@[simp] theorem contents_publish (s : Shared ρ δ) (next : Registry ρ δ) :
    (s.publish next).contents = next := by simp [publish, contents]

def change (s : Shared ρ δ) : Change ρ δ → Shared ρ δ × Option Bool
  | .insert e => (s.publish (s.contents.insert e), none)
  | .remove ordinal => (s.publish (s.contents.remove ordinal), some (s.contents.holds ordinal))

def run (s : Shared ρ δ) (changes : List (Change ρ δ)) : Shared ρ δ :=
  changes.foldl (fun s c => (s.change c).1) s

theorem run_append (s : Shared ρ δ) (a b : List (Change ρ δ)) :
    s.run (a ++ b) = (s.run a).run b := List.foldl_append

theorem lists_change (s : Shared ρ δ) (c : Change ρ δ) : s.lists <+: (s.change c).1.lists := by
  cases c <;> exact List.prefix_append ..

theorem lists_run (s : Shared ρ δ) (changes : List (Change ρ δ)) :
    s.lists <+: (s.run changes).lists := by
  induction changes generalizing s with
  | nil => exact List.prefix_refl _
  | cons c later ih => exact (s.lists_change c).trans (ih (s.change c).1)

theorem getElem?_run (s : Shared ρ δ) (later : List (Change ρ δ)) :
    (s.run later).lists[s.current]? = some s.contents := by
  obtain ⟨added, hlists⟩ := s.lists_run later
  rw [← hlists, List.getElem?_append_left s.current_lt]
  exact List.getElem?_eq_getElem s.current_lt

theorem reflects_run (changes : List (Change ρ δ)) :
    Reflects (run empty changes).contents changes := by
  induction changes using List.reverseRecOn with
  | nil => exact .empty
  | append_singleton before c ih =>
    have hlast : run empty (before ++ [c]) = ((run empty before).change c).1 := by
      rw [run_append]
      rfl
    rw [hlast]
    cases c with
    | insert e =>
      rw [change, contents_publish]
      exact ih.insert e
    | remove ordinal =>
      rw [change, contents_publish]
      exact ih.remove ordinal

/-- After any changes the registry is in the order of the ordinals and holds what was inserted and
not removed since, of each ordinal the newest first; so stopping at an ordinal misses nothing before
it. Inserting puts the entry before its equals, also where its place is searched for. Removing takes
the entries of one ordinal out and tells whether there was one, which no further removal does before
an insertion. A snapshot keeps what it shows. -/
theorem registry_exact {search : (RootEntry ρ δ → Bool) → List (RootEntry ρ δ) → Nat}
    (hsearch : FindsBoundary search) (changes : List (Change ρ δ)) :
    let shared : Shared ρ δ := run empty changes
    Reflects shared.contents changes ∧
      (∀ bound, shared.contents.takeWhile (·.ordinal < bound) =
        shared.contents.filter (·.ordinal < bound)) ∧
      (∀ e, Enters e shared.contents (shared.change (.insert e)).1.contents ∧
        shared.contents.insertAt search e = (shared.change (.insert e)).1.contents) ∧
      (∀ ordinal,
        (shared.change (.remove ordinal)).1.contents =
            shared.contents.filter (·.ordinal != ordinal) ∧
          ∃ found, (shared.change (.remove ordinal)).2 = some found ∧
            (found = true ↔ ∃ before e later, changes = before ++ .insert e :: later ∧
              e.ordinal = ordinal ∧ .remove ordinal ∉ later)) ∧
      (∀ ordinal between, (∀ e, .insert e ∈ between → e.ordinal ≠ ordinal) →
        ((shared.run (.remove ordinal :: between)).change (.remove ordinal)).2 = some false) ∧
      ∀ later, (shared.run later).lists[shared.current]? = some shared.contents := by
  intro shared
  have hreflects : Reflects shared.contents changes := reflects_run changes
  refine ⟨hreflects, hreflects.ordered.takeWhile_eq_filter, fun e => ?_, fun ordinal => ?_,
    fun ordinal between hbetween => ?_, shared.getElem?_run⟩
  · have henters : Enters e shared.contents (shared.contents.insert e) := hreflects.ordered.enters e
    rw [change, contents_publish]
    exact ⟨henters, henters.insertAt_eq hsearch⟩
  · rw [change, contents_publish]
    refine ⟨rfl, _, rfl, ?_⟩
    rw [hreflects.holds_iff]
    constructor
    · rintro ⟨e, he, rfl⟩
      obtain ⟨before, later, hsplit, hlater⟩ := mem_standing.1 he
      exact ⟨before, e, later, hsplit, rfl, hlater⟩
    · rintro ⟨before, e, later, hsplit, rfl, hlater⟩
      exact ⟨e, mem_standing.2 ⟨before, later, hsplit, hlater⟩, rfl⟩
  · have hafter : Reflects (shared.run (.remove ordinal :: between)).contents
        (changes ++ .remove ordinal :: between) := by
      rw [← run_append]
      exact reflects_run _
    rw [change, Option.some.injEq, ← Bool.not_eq_true, hafter.holds_iff]
    rintro ⟨e, he, hordinal⟩
    exact ordinal_ne_of_mem_standing hbetween he hordinal

theorem registry_exact_repeated :
    let changes : List (Change String Unit) := [.insert ⟨3, "a", none⟩, .insert ⟨0, "b", none⟩,
      .insert ⟨3, "c", none⟩, .remove 0, .insert ⟨1, "d", none⟩]
    let shared := run empty changes
    FindsBoundary (fun low (l : List (RootEntry String Unit)) => bisect low l 0 l.length) ∧
      shared.contents.map RootEntry.root = ["d", "c", "a"] ∧
      Reflects shared.contents changes ∧
      (shared.change (.remove 3)).2 = some true ∧
      ((shared.run [.remove 3, .insert ⟨0, "e", none⟩]).change (.remove 3)).2 = some false ∧
      (shared.run [.remove 3]).lists[shared.current]? = some shared.contents := by
  intro changes shared
  obtain ⟨hreflects, -, -, hremove, hagain, hsnapshot⟩ :=
    registry_exact findsBoundary_bisect changes
  obtain ⟨-, found, hfound, hiff⟩ := hremove 3
  have hthere : found = true :=
    hiff.2 ⟨[], ⟨3, "a", none⟩, changes.tail, rfl, rfl, by simp [changes]⟩
  exact ⟨findsBoundary_bisect, rfl, hreflects, hfound.trans (congrArg some hthere),
    hagain 3 [.insert ⟨0, "e", none⟩] (by simp), hsnapshot [.remove 3]⟩

end Shared

end Registry

end Overlay
