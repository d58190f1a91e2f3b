import Overlay.Proofs.ClassPath.Answers

/-!
# Lookups that check themselves

With validation a lookup is compared with the answers of asking every known member in turn. The
known members are the members, but for one that is just being published: `Reachable.recorded`. A
location of that one is not shown yet, so the two answers are the same, the comparison holds, and
`Reachable.resources` says of every lookup, checked or not, that it comes to the answers of the
members that count.
-/

namespace Overlay

variable {σ δ : Type}

section Compare

variable {w : σ} {key : String} {known later : List (Member σ δ)} {m : Member σ δ} {l : Found σ δ}

theorem Located.sameAs_self (l : Found σ δ) : l.sameAs l = true := by
  simp [sameAs, EntryPath.samePath_iff.2]

theorem agree?_self (location : Option (Found σ δ)) : agree? location location = true := by
  cases location with
  | none => rfl
  | some l => exact l.sameAs_self

theorem agreeAll_self (locations : List (Found σ δ)) : agreeAll locations locations = true := by
  induction locations with
  | nil => rfl
  | cons l rest ih => rw [agreeAll, l.sameAs_self, ih]; rfl

theorem ordinal_le_lastOrdinal (h : known.Pairwise RootEntry.Before) (hm : m ∈ known) :
    ∃ last, lastOrdinal known = some last ∧ m.ordinal ≤ last := by
  obtain ⟨before, newest, rfl⟩ :=
    (List.eq_nil_or_concat known).resolve_left (List.ne_nil_of_mem hm)
  refine ⟨newest.ordinal, by simp [lastOrdinal], ?_⟩
  rw [List.concat_eq_append] at h hm
  rcases List.mem_append.1 hm with hm | hm
  · exact Nat.le_of_lt ((List.pairwise_append.1 h).2.2 m hm newest List.mem_cons_self)
  · rw [List.mem_singleton.1 hm]

theorem isVisible_of_mem (h : known.Pairwise RootEntry.Before) (hl : l.origin ∈ known) :
    l.isVisible known = true := by
  obtain ⟨last, hlast, hle⟩ := ordinal_le_lastOrdinal h hl
  rw [Located.isVisible, hlast]
  exact decide_eq_true hle

theorem isVisible_of_ask (h : known.Pairwise RootEntry.Before) (hm : m ∈ known)
    (hask : m.ask w key = some l) : l.isVisible known = true :=
  isVisible_of_mem h ((ask_eq_some.1 hask).2 ▸ hm)

theorem not_isVisible_of_ask (h : (known ++ later).Pairwise RootEntry.Before) (hm : m ∈ later)
    (hask : m.ask w key = some l) : l.isVisible known = false := by
  rw [Located.isVisible, lastOrdinal, (ask_eq_some.1 hask).2]
  cases hlast : known.getLast? with
  | none => rfl
  | some newest =>
    have hbefore := (List.pairwise_append.1 h).2.2 newest (List.mem_of_getLast? hlast) m hm
    exact decide_eq_false (Nat.not_le_of_lt hbefore)

theorem filter_allAnswers (h : (known ++ later).Pairwise RootEntry.Before) :
    (allAnswers w key (known ++ later)).filter (Located.isVisible known) =
      allAnswers w key known := by
  have hvisible : (allAnswers w key known).filter (Located.isVisible known) =
      allAnswers w key known := by
    rw [List.filter_eq_self]
    intro l hl
    obtain ⟨m, hm, hask⟩ := Session.mem_allAnswers.1 hl
    exact isVisible_of_ask (List.pairwise_append.1 h).1 hm hask
  have hhidden : (allAnswers w key later).filter (Located.isVisible known) = [] := by
    rw [List.filter_eq_nil_iff]
    intro l hl
    obtain ⟨m, hm, hask⟩ := Session.mem_allAnswers.1 hl
    rw [not_isVisible_of_ask h hm hask]
    exact Bool.false_ne_true
  have happend : allAnswers w key (known ++ later) =
      allAnswers w key known ++ allAnswers w key later := List.filterMap_append
  rw [happend, List.filter_append, hvisible, hhidden, List.append_nil]

theorem filter_firstAnswer (h : (known ++ later).Pairwise RootEntry.Before) :
    (firstAnswer w key (known ++ later)).filter (Located.isVisible known) =
      firstAnswer w key known := by
  rw [firstAnswer, firstAnswer, List.findSome?_append]
  cases hfirst : known.findSome? (RootEntry.ask w key) with
  | some l =>
    obtain ⟨m, hm, hask⟩ := List.exists_of_findSome?_eq_some hfirst
    have hvisible := isVisible_of_ask (List.pairwise_append.1 h).1 hm hask
    rw [Option.some_or, Option.filter_some, if_pos hvisible]
  | none =>
    rw [Option.none_or, Option.filter_eq_none_iff]
    intro l hl
    obtain ⟨m, hm, hask⟩ := List.exists_of_findSome?_eq_some hl
    rw [not_isVisible_of_ask h hm hask]
    exact Bool.false_ne_true

end Compare

namespace ClassPath

variable {w : σ} {cp : ClassPath σ δ} {known later : List (Member σ δ)} {key : String}

/-- A check holds if the lookup answers as the known members and some later ones do. -/
theorem checkedFind_eq (h : (known ++ later).Pairwise RootEntry.Before)
    (hfind : (cp.find w key).answer = .ok (firstAnswer w key (known ++ later))) :
    (cp.checkedFind w known key).answer = .ok (firstAnswer w key known) ∧
      (cp.checkedFind w known key).after = (cp.find w key).after := by
  simp only [checkedFind, Reply.andThen, hfind, filter_firstAnswer h, agree?_self, if_true,
    and_self]

theorem checkedFindAll_eq (h : (known ++ later).Pairwise RootEntry.Before)
    (hfindAll : (cp.findAll w key).answer = .ok (allAnswers w key (known ++ later))) :
    (cp.checkedFindAll w known key).answer = .ok (allAnswers w key known) ∧
      (cp.checkedFindAll w known key).after = (cp.findAll w key).after := by
  simp only [checkedFindAll, Reply.andThen, hfindAll, filter_allAnswers h, agreeAll_self, if_true,
    and_self]

theorem known_apply (cp : ClassPath σ δ) {a : Action σ δ} (h : ∀ m, a ≠ .remember m) :
    (cp.apply a).value.known = cp.known := by
  cases a with
  | remember entry => exact absurd rfl (h entry)
  | report _ | reserve _ | put _ | fallBack _ | scan _ => rfl

theorem remember_not_mem_publish {config : Config} {entry m : Member σ δ} :
    .remember m ∉ publish w config entry := by
  have h := published w config entry
  generalize publish w config entry = actions at h ⊢
  cases h <;> simp

end ClassPath

namespace Session

/-- The known members are the members. Until all that there is to do for the last member is done,
it is not among them; making it known comes last. -/
def Recorded (s : Session σ δ) (known : List (Member σ δ)) : Prop :=
  (s.todo = [] ∧ known = s.members) ∨
    ∃ before m, s.todo = before ++ [.remember m] ∧ (∀ other, .remember other ∉ before) ∧
      s.members = known ++ [m]

namespace Recorded

variable {s s' : Session σ δ} {known : List (Member σ δ)}

theorem congr (h : s.Recorded known) (hmembers : s'.members = s.members)
    (htodo : s'.todo = s.todo) : s'.Recorded known := by
  rw [Recorded, hmembers, htodo]
  exact h

theorem start {config : Config} {w : σ} (h : known ∈ (start config w).cp.known) :
    (Session.start config w).Recorded known := by
  refine .inl ⟨rfl, ?_⟩
  simp only [Session.start, ClassPath.new, Option.mem_def] at h
  split at h
  · exact (Option.some.inj h).symm
  · cases h

theorem enroll (h : s.Recorded known) (htodo : s.todo = []) (root : Root σ)
    (rest : List (RootTree σ)) : (s.enroll root rest).Recorded known := by
  rcases h with ⟨-, rfl⟩ | ⟨before, m, hlast, -, -⟩
  · exact .inr ⟨_, _, rfl, fun _ => ClassPath.remember_not_mem_publish, rfl⟩
  · rw [htodo] at hlast
    simp at hlast

theorem act (h : ∀ known ∈ s.cp.known, s.Recorded known) {a : Action σ δ}
    {rest : List (Action σ δ)} (htodo : s.todo = a :: rest) :
    ∀ known ∈ (s.cp.apply a).value.known,
      Recorded { s with cp := (s.cp.apply a).value, todo := rest } known := by
  have hsplit : ∀ {before m}, s.todo = before ++ [.remember m] →
      (before = [] ∧ a = .remember m ∧ rest = []) ∨
        ∃ others, before = a :: others ∧ rest = others ++ [.remember m] := by
    intro before m hlast
    rw [htodo, eq_comm, List.append_eq_cons_iff] at hlast
    refine hlast.imp_left fun ⟨hnil, hcons⟩ => ⟨hnil, ?_⟩
    exact ⟨(List.cons.inj hcons).1.symm, (List.cons.inj hcons).2.symm⟩
  by_cases ha : ∃ m, a = .remember m
  · obtain ⟨entry, rfl⟩ := ha
    intro known hknown
    obtain ⟨known, hbefore, rfl⟩ := Option.map_eq_some_iff.1 hknown
    rcases h known hbefore with ⟨hnil, -⟩ | ⟨before, m, hlast, hnone, hmembers⟩
    · simp [htodo] at hnil
    · rcases hsplit hlast with ⟨-, hm, hrest⟩ | ⟨others, rfl, -⟩
      · obtain rfl := Action.remember.inj hm
        exact .inl ⟨hrest, hmembers.symm⟩
      · exact absurd List.mem_cons_self (hnone entry)
  · push Not at ha
    intro known hknown
    rw [ClassPath.known_apply s.cp ha] at hknown
    rcases h known hknown with ⟨hnil, -⟩ | ⟨before, m, hlast, hnone, hmembers⟩
    · simp [htodo] at hnil
    · rcases hsplit hlast with ⟨-, hm, -⟩ | ⟨others, rfl, hrest⟩
      · exact absurd hm (ha m)
      · exact .inr ⟨others, m, hrest, fun other hother =>
          hnone other (List.mem_cons_of_mem a hother), hmembers⟩

theorem step {c : Contract σ} (h : ∀ known ∈ s.cp.known, s.Recorded known)
    (hstep : Step c s s') : ∀ known ∈ s'.cp.known, s'.Recorded known := by
  have hsame : ∀ {cp : ClassPath σ δ}, cp.known = s.cp.known →
      ∀ known ∈ cp.known, Recorded { s with cp := cp } known := fun hcp known hknown =>
    (h known (hcp ▸ hknown)).congr rfl rfl
  cases hstep.effect with
  | queue added coming data => exact fun known hknown => (h known hknown).congr rfl rfl
  | enroll rest htodo hadmits => exact fun _ hknown => (h _ hknown).enroll htodo _ _
  | act htodo => exact act h htodo
  | move hmoved => exact hsame hmoved.known_eq
  | look halike => exact hsame halike.known_eq
  | change w hkeeps => exact fun known hknown => (h known hknown).congr rfl rfl

end Recorded

section Reachable

variable {c : Contract σ} {config : Config} {s : Session σ δ}

theorem Reachable.recorded (h : Reachable c config s) :
    ∀ known ∈ s.cp.known, s.Recorded known :=
  h.invariant (P := fun s => ∀ known ∈ s.cp.known, s.Recorded known)
    (fun _ _ hknown => .start hknown) Recorded.step

theorem Reachable.known_isSome (h : Reachable c config s) : s.cp.known.isSome = config.validate := by
  refine h.invariant (P := fun s => s.cp.known.isSome = config.validate) (fun w => ?_) ?_
  · cases hvalidate : config.validate <;> simp [start, ClassPath.new, hvalidate]
  · intro s s' hsome hstep
    cases hstep.effect with
    | queue added coming data => exact hsome
    | enroll rest htodo hadmits => exact hsome
    | @act a rest htodo =>
      cases a with
      | remember entry => exact Option.isSome_map.trans hsome
      | report _ | reserve _ | put _ | fallBack _ | scan _ => exact hsome
    | move hmoved => exact hmoved.known_eq ▸ hsome
    | look halike => exact halike.known_eq ▸ hsome
    | change w hkeeps => exact hsome

theorem Reachable.known_eq (h : Reachable c config s) (hvalidate : config.validate = true)
    (htodo : s.todo = []) : s.cp.known = some s.members := by
  obtain ⟨known, hknown⟩ := Option.isSome_iff_exists.1 (h.known_isSome.trans hvalidate)
  rcases h.recorded known hknown with ⟨-, rfl⟩ | ⟨before, m, hlast, -⟩
  · exact hknown
  · simp [htodo] at hlast

/-- The known members are all those that count, or one more does. -/
theorem Recorded.counted {known ms : List (Member σ δ)} (hrecorded : s.Recorded known)
    (h : Reachable c config s) (hms : s.Counted ms) :
    s.Counted known ∧ ∃ later, ms = known ++ later := by
  obtain ⟨hbegin, hwhole⟩ := h.members_registered
  rcases hrecorded with ⟨hnil, rfl⟩ | ⟨before, m, htodo, -, hmembers⟩
  · refine ⟨⟨hbegin, fun hcoming _ => hwhole hcoming, .inl rfl⟩, [], ?_⟩
    rw [List.append_nil]
    exact hms.members.resolve_right fun hdue => hdue.1 hnil
  · have hne : s.todo ≠ [] := by simp [htodo]
    have hdrop : s.members.dropLast = known := by rw [hmembers, List.dropLast_concat]
    have hknown : known <+: s.members := ⟨[m], hmembers.symm⟩
    refine ⟨⟨hknown.trans hbegin, fun _ hnil => absurd hnil hne, .inr ⟨hne, hdrop.symm⟩⟩, ?_⟩
    rcases hms.members with rfl | ⟨-, rfl⟩
    · exact ⟨[m], hmembers⟩
    · exact ⟨[], by rw [hdrop, List.append_nil]⟩

/-- Every lookup, checked or not, comes to the answers of the members that count, and leaves the
class path as it would be left unchecked. -/
theorem Reachable.resources (h : Reachable .honest config s) (p : String) :
    ∃ ms, s.Counted ms ∧
      (s.cp.findResource s.world p).answer = .ok (firstAnswer s.world (normalize p) ms) ∧
      (s.cp.findResource s.world p).after = (s.cp.find s.world (normalize p)).after ∧
      (s.cp.allResources s.world p).answer = .ok (allAnswers s.world (normalize p) ms) ∧
      (s.cp.allResources s.world p).after = (s.cp.findAll s.world (normalize p)).after := by
  obtain ⟨log, htidy⟩ := h.tidy
  obtain ⟨ms, hms, hfind, hfindAll⟩ := h.lookups p
  rw [ClassPath.findResource, ClassPath.allResources]
  cases hknown : s.cp.known with
  | none => exact ⟨ms, hms, hfind, rfl, hfindAll, rfl⟩
  | some known =>
    obtain ⟨hcounted, later, rfl⟩ := (h.recorded known hknown).counted h hms
    have hbefore := htidy.pairwise_counted hms
    obtain ⟨hanswer, hafter⟩ := ClassPath.checkedFind_eq hbefore hfind
    exact ⟨known, hcounted, hanswer, hafter, ClassPath.checkedFindAll_eq hbefore hfindAll⟩

/-- A member that resolves a path has it, if no earlier member does. -/
theorem Reachable.findResource_of_earliest (h : Reachable .honest config s) (htodo : s.todo = [])
    {p : String} {m : Member σ δ} (hm : m ∈ s.members) {path : EntryPath}
    (hresolve : m.root.resolve s.world (normalize p) = some path)
    (hearlier : ∀ other ∈ s.members, other.Before m →
      other.root.resolve s.world (normalize p) = none) :
    (s.cp.findResource s.world p).answer = .ok (some ⟨path, m⟩) := by
  obtain ⟨log, htidy⟩ := h.tidy
  obtain ⟨ms, hms, hfind, -⟩ := h.resources p
  obtain rfl : ms = s.members := hms.members.resolve_right fun hdue => hdue.1 htodo
  have hordered := htidy.ordered_members
  have hask : m.ask s.world (normalize p) = some ⟨path, m⟩ := ask_eq_some.2 ⟨hresolve, rfl⟩
  rw [hfind, firstAnswer]
  cases hfirst : s.members.findSome? (RootEntry.ask s.world (normalize p)) with
  | none =>
    rw [List.findSome?_eq_none_iff.1 hfirst m hm] at hask
    cases hask
  | some l =>
    obtain ⟨hmem, hanswer, hmin⟩ := findSome?_ask hordered hfirst
    -- neither is before the other
    have hnotAfter : ¬ m.ordinal < l.origin.ordinal := hmin m hm _ hask
    have hnotBefore : ¬ l.origin.ordinal < m.ordinal := fun hbefore => by
      have hnone := hearlier l.origin hmem hbefore
      rw [(ask_eq_some.1 hanswer).1] at hnone
      cases hnone
    have hsame := RootEntry.eq_of_ordinal_eq hordered hmem hm (by omega)
    rw [hsame, hask] at hanswer
    rw [hanswer]

end Reachable

end Session

end Overlay
