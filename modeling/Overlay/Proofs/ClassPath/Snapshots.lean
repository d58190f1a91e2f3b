import Overlay.Proofs.ClassPath.Answers

/-!
# Lookups while scans go on

A lookup takes the registry first and reads the index afterwards, and any moves of the workers can
come in between. Over honest roots no move changes what is `Seen`, the answers that are in the log
or that a member of the registry gives: what a scan puts is an answer its archive gave already, and
an archive leaves the registry with all its answers in the log. So the registry of an earlier moment
goes with the index of a later one.
-/

namespace Overlay.Session

variable {σ δ : Type} {s : Session σ δ} {log : List (Found σ δ)}

def Seen (s : Session σ δ) (log : List (Found σ δ)) (key : String) (l : Found σ δ) : Prop :=
  (l ∈ log ∧ l.path.render = key) ∨ ∃ m ∈ s.cp.fallback, m.ask s.world key = some l

theorem Faithful.sighted_iff_seen (h : s.Faithful log) {key : String}
    {entry : Option (Entry (Member σ δ))} (hans : Answers log key entry) {l : Found σ δ} :
    Sighted s.world key s.cp.fallback entry l ↔ s.Seen log key l :=
  or_congr_left (h.mem_locationsOf hans)

/-- A move of a worker shows nothing new and hides nothing. -/
theorem Faithful.seen_moved (htidy : s.Tidy log) (h : s.Faithful log) {new : List (Found σ δ)}
    {cp : ClassPath σ δ} (hmoved : s.cp.Moved new cp) (p : String) (l : Found σ δ) :
    Seen { s with cp := cp } (log ++ new) (normalize p) l ↔ s.Seen log (normalize p) l := by
  have hafter := h.moved htidy hmoved
  cases hmoved with
  | idle htasks =>
    rw [List.append_nil]
    exact Iff.rfl
  | abandon hbefore hrest =>
    rw [List.append_nil]
    exact Iff.rfl
  | @advance scan others e rest pool hbefore hrest hproceed hpool =>
    constructor
    · rintro (⟨hlog, hrender⟩ | hask)
      · rcases List.mem_append.1 hlog with hold | hnew
        · exact .inl ⟨hold, hrender⟩
        · have hresolve := (hafter.sound l (.inl hlog)).2 p hrender
          obtain ⟨path, -, rfl⟩ := List.mem_map.1 hnew
          have hin := (htidy.scans scan (hbefore.mem_iff.2 List.mem_cons_self)).1
          exact .inr ⟨scan.entry, hin, ask_eq_some.2 ⟨hresolve, rfl⟩⟩
      · exact .inr hask
    · exact Or.imp_left fun hlog => ⟨List.mem_append_left _ hlog.1, hlog.2⟩
  | @complete scan others pool hbefore hpool hthrough =>
    rw [List.append_nil] at hafter ⊢
    constructor
    · refine Or.imp_right ?_
      rintro ⟨m, hm, hask⟩
      exact ⟨m, (Registry.mem_remove.1 hm).1, hask⟩
    · rintro (hlog | ⟨m, hm, hask⟩)
      · exact .inl hlog
      · -- only the archive whose scan is through has left
        by_cases hleft : m.ordinal = scan.entry.ordinal
        · have hin := (htidy.scans scan (hbefore.mem_iff.2 List.mem_cons_self)).1
          obtain rfl := RootEntry.eq_of_ordinal_eq htidy.ordered hm hin hleft
          obtain ⟨hresolve, horigin⟩ := ask_eq_some.1 hask
          have hlog := h.through htidy hbefore hthrough hresolve
          rw [← horigin] at hlog hin hresolve
          exact .inl ⟨hlog, ((h.honest _ (htidy.listed _ hin)).renders p _ hresolve).1⟩
        · exact .inr ⟨m, Registry.mem_remove.2 ⟨hm, hleft⟩, hask⟩

theorem Faithful.scans (htidy : s.Tidy log) (h : s.Faithful log) {cp : ClassPath σ δ}
    (hscans : s.cp.Scans cp) :
    ∃ log', Tidy { s with cp := cp } log' ∧ Faithful { s with cp := cp } log' ∧
      (∀ m ∈ cp.fallback, m ∈ s.cp.fallback) ∧
      ∀ p l, Seen { s with cp := cp } log' (normalize p) l ↔ s.Seen log (normalize p) l := by
  induction hscans with
  | refl => exact ⟨log, htidy, h, fun _ hm => hm, fun _ _ => Iff.rfl⟩
  | tail _ hlast ih =>
    obtain ⟨log', htidy', hfaithful', hsub, hseen⟩ := ih
    obtain ⟨m, next, hmove, rfl⟩ := hlast
    obtain ⟨new, hmoved⟩ := ClassPath.moved_of_move? hmove
    refine ⟨log' ++ new, htidy'.moved hmoved, hfaithful'.moved htidy' hmoved, fun m hm => ?_,
      fun p l => (hfaithful'.seen_moved htidy' hmoved p l).trans (hseen p l)⟩
    exact hsub m (hmoved.fallback_subset m hm)

/-- The registry of one moment and the index of a later one, with nothing but moves of the workers
in between, are as good as both of either moment. -/
theorem lookup_across_scans {config : Config} (h : Reachable .honest config s)
    {cp : ClassPath σ δ} (hscans : s.cp.Scans cp) (p : String) :
    let mixed : ClassPath σ δ := { cp with fallback := s.cp.fallback }
    (∃ found, (mixed.find s.world (normalize p)).answer = .ok found ∧
      (s.cp.find s.world (normalize p)).answer = .ok found ∧
      (cp.find s.world (normalize p)).answer = .ok found) ∧
    ∃ all, (mixed.findAll s.world (normalize p)).answer = .ok all ∧
      (s.cp.findAll s.world (normalize p)).answer = .ok all ∧
      (cp.findAll s.world (normalize p)).answer = .ok all := by
  intro mixed
  obtain ⟨log, htidy, hfaithful⟩ := h.faithful
  obtain ⟨log', htidy', hfaithful', hsub, hseen⟩ := hfaithful.scans htidy hscans
  obtain ⟨entry, hfind, hans⟩ := htidy.index.find (normalize p)
  obtain ⟨entry', hfind', hans'⟩ := htidy'.index.find (normalize p)
  have hmixed : mixed.index.find (normalize p) = .ok entry' := hfind'
  have hall := pairwise_allAnswers s.world (normalize p) htidy.ordered_members
  have hsee := fun l => hfaithful.mem_allAnswers_of_sighted htidy p hans (l := l)
  have hlater : ∀ l, Sighted s.world (normalize p) cp.fallback entry' l ↔
      Sighted s.world (normalize p) s.cp.fallback entry l := fun l => by
    rw [hfaithful.sighted_iff_seen hans, ← hseen p l]
    exact hfaithful'.sighted_iff_seen hans'
  -- what the index has learnt in between is what an archive of the earlier registry resolves
  have hacross := Sighted.between hsub (fun _ hm => hm) hlater
  obtain ⟨hcollect, hchoose⟩ := collect_congr htidy.ordered htidy'.ordered hall hsee hlater
  obtain ⟨hcollect', hchoose'⟩ := collect_congr htidy.ordered htidy.ordered hall hsee hacross
  refine ⟨⟨_, ?_, ClassPath.find_answer hfind, ?_⟩,
    _, ?_, ClassPath.findAll_answer hfind, ?_⟩
  · rw [← hchoose']
    exact ClassPath.find_answer hmixed
  · rw [← hchoose]
    exact ClassPath.find_answer hfind'
  · rw [← hcollect']
    exact ClassPath.findAll_answer hmixed
  · rw [← hcollect]
    exact ClassPath.findAll_answer hfind'

theorem lookup_across_scans_overlapping :
    ∃ (s : Session Unit String) (cp : ClassPath Unit String), Reachable .honest {} s ∧
      s.cp.Scans cp ∧ s.cp.fallback.map RootEntry.ordinal = [0, 1] ∧
      cp.fallback.map RootEntry.ordinal = [0] ∧
      ∃ found, (ClassPath.find () { cp with fallback := s.cp.fallback } (normalize "x")).answer =
        .ok found ∧ (s.cp.find () (normalize "x")).answer = .ok found := by
  let early : List Pool.Move := [.take 0, .work 0, .take 1, .work 1]
  let late : List Pool.Move := [.work 0, .work 0, .work 1, .work 1, .work 1]
  have hearly : (addedOverlapping.moves early).isSome = true := rfl
  obtain ⟨cp, hcp⟩ := Option.isSome_iff_exists.1 hearly
  have hlate : ((addedOverlapping.moves early).bind fun cp => cp.moves late).isSome = true := rfl
  have hregistries : (addedOverlapping.moves early).map
      (fun cp => (cp.fallback.map RootEntry.ordinal,
        (cp.moves late).map fun cp => cp.fallback.map RootEntry.ordinal)) =
      some ([0, 1], some [0]) := rfl
  rw [hcp, Option.bind_some] at hlate
  obtain ⟨cp', hcp'⟩ := Option.isSome_iff_exists.1 hlate
  simp only [hcp, hcp', Option.map_some, Option.some.injEq, Prod.mk.injEq] at hregistries
  obtain ⟨members, hreach⟩ := reachable_overlapping (.of_moves hcp)
  have hscans : cp.Scans cp' := .of_moves hcp'
  obtain ⟨⟨found, hmixed, hfind, -⟩, -⟩ := lookup_across_scans hreach hscans "x"
  exact ⟨_, cp', hreach, hscans, hregistries.1, hregistries.2, found, hmixed, hfind⟩

end Overlay.Session
