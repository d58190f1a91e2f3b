import Overlay.Proofs.ClassPath.Bookkeeping

/-!
# Sessions of honest roots

As long as the roots are honest, a session is `Faithful`: what was put or is left to be put is
resolved by the member it comes from, and what a member resolves is in one of these two places,
unless lookups ask the member itself.
-/

namespace Overlay

variable {σ δ : Type}

namespace Scan.Underway

variable {scan : Scan σ δ} {log : List (Found σ δ)} {w : σ}

/-- The indexer of an honest archive proceeds, and what it puts is resolved. -/
theorem honest_next (h : scan.Underway log) (hhonest : scan.entry.root.Honest w)
    (hkind : scan.entry.root.kind = .archive) {e : WalkEvent} {rest : List WalkEvent}
    (hrest : scan.rest = e :: rest) :
    (scan.response e).answer = .ok .proceed ∧
      ∀ path ∈ (scan.response e).put?, path.Plain ∧ ∀ p, path.render = normalize p →
        scan.entry.root.resolve w (normalize p) = some path := by
  obtain ⟨before, puts, hevents, hfollows, -⟩ := h
  obtain ⟨all, last, hwalk, hsound, -⟩ := hhonest.follows hkind
  rw [hevents, hrest] at hwalk
  obtain ⟨mid, first, later, hfirst, hlater, rfl⟩ := hwalk.split
  obtain ⟨rfl, rfl⟩ := hfirst.unique hfollows
  cases hlater with
  | cons hanswer hbehind =>
    refine ⟨hanswer, fun path hpath => hsound path ?_⟩
    exact List.mem_append_right _ (List.mem_append_left _ (Option.mem_toList.2 hpath))

/-- An honest archive whose walk has ended well is in the log with all that it resolves. -/
theorem honest_done (h : scan.Underway log) (hhonest : scan.entry.root.Honest w)
    (hkind : scan.entry.root.kind = .archive) (hrest : scan.rest = [])
    (hend : scan.entry.root.walk.ending = .done) (p : String) {path : EntryPath}
    (hpath : scan.entry.root.resolve w (normalize p) = some path) : ⟨path, scan.entry⟩ ∈ log := by
  obtain ⟨before, puts, hevents, hfollows, hputs⟩ := h
  obtain ⟨all, last, hwalk, -, hcomplete⟩ := hhonest.follows hkind
  rw [hevents, hrest, List.append_nil] at hwalk
  obtain ⟨rfl, -⟩ := hwalk.unique hfollows
  exact hputs path (hcomplete hend p path hpath)

end Scan.Underway

namespace Session

/-- The log and what is left to be put agree with what the members resolve. -/
structure Faithful (s : Session σ δ) (log : List (Found σ δ)) : Prop where
  honest : ∀ m ∈ s.members, m.root.Honest s.world
  sound : ∀ l, l ∈ log ∨ .put l ∈ s.todo → l.path.Plain ∧ ∀ p, l.path.render = normalize p →
    l.origin.root.resolve s.world (normalize p) = some l.path
  complete : ∀ m ∈ s.members, m ∈ s.cp.fallback ∨ .fallBack m ∈ s.todo ∨
    (m.root.kind.indexed ∧ ∀ p path, m.root.resolve s.world (normalize p) = some path →
      ⟨path, m⟩ ∈ log ∨ .put ⟨path, m⟩ ∈ s.todo)

namespace Faithful

variable {s : Session σ δ} {log : List (Found σ δ)}

theorem start (config : Config) (w : σ) : Faithful (δ := δ) (start config w) [] where
  honest m hm := by cases hm
  sound l hl := by rcases hl with hl | hl <;> cases hl
  complete m hm := by cases hm

theorem alike (h : s.Faithful log) {cp : ClassPath σ δ} (halike : s.cp.Alike cp) :
    Faithful { s with cp := cp } log := by
  rw [halike.same]
  exact ⟨h.honest, h.sound, h.complete⟩

theorem change (htidy : s.Tidy log) (h : s.Faithful log) {w : σ}
    (hkeeps : ∀ m ∈ s.members, m.root.Honest w ∧ (m.root.kind.indexed →
      ∀ p, m.root.resolve w (normalize p) = m.root.resolve s.world (normalize p))) :
    Faithful { s with world := w } log where
  honest m hm := (hkeeps m hm).1
  sound l hl := by
    obtain ⟨hplain, hsound⟩ := h.sound l hl
    have hindexed : l.origin ∈ s.members ∧ l.origin.root.kind.indexed := by
      rcases hl with hl | hl
      · exact htidy.origins l hl
      · obtain ⟨hlast, hkind⟩ := htidy.due.puts l hl
        exact ⟨List.mem_of_getLast? hlast, by rw [hkind]; rfl⟩
    refine ⟨hplain, fun p hp => ?_⟩
    rw [(hkeeps _ hindexed.1).2 hindexed.2]
    exact hsound p hp
  complete m hm := by
    refine (h.complete m hm).imp_right (Or.imp_right ?_)
    rintro ⟨hindexed, hall⟩
    refine ⟨hindexed, fun p path hpath => hall p path ?_⟩
    rw [← (hkeeps m hm).2 hindexed]
    exact hpath

theorem enroll (h : s.Faithful log) (htodo : s.todo = []) {root : Root σ}
    (hhonest : root.Honest s.world) (rest : List (RootTree σ)) :
    (s.enroll root rest).Faithful log := by
  have hput : ∀ l, .put l ∈ (s.enroll root rest).todo ↔
      root.kind = .memory false ∧ l.origin = ⟨s.cp.nextOrdinal, root, s.data⟩ ∧
        l.path ∈ root.listing s.world := fun l => by
    simp [Session.enroll, ClassPath.enroll, ClassPath.put_mem_publish]
  have hfallBack : .fallBack ⟨s.cp.nextOrdinal, root, s.data⟩ ∈ (s.enroll root rest).todo ↔
      (root.kind = .memory false → root.listing s.world = []) := by
    simp [Session.enroll, ClassPath.enroll, ClassPath.fallBack_mem_publish]
  refine ⟨fun m hm => ?_, fun l hl => ?_, fun m hm => ?_⟩
  · rcases List.mem_append.1 hm with hm | hm
    · exact h.honest m hm
    · rw [List.mem_singleton.1 hm]
      exact hhonest
  · rcases hl with hl | hl
    · exact h.sound l (.inl hl)
    · obtain ⟨hkind, horigin, hlisted⟩ := (hput l).1 hl
      have hshows := (hhonest.listed hkind).resolve_left (List.ne_nil_of_mem hlisted)
      refine ⟨hshows.plain _ hlisted, fun p hp => ?_⟩
      rw [horigin]
      exact (hshows.resolves p l.path).2 ⟨hlisted, hp⟩
  · rcases List.mem_append.1 hm with hm | hm
    · rcases h.complete m hm with hin | hfall | ⟨hindexed, hall⟩
      · exact .inl hin
      · rw [htodo] at hfall
        cases hfall
      · refine .inr (.inr ⟨hindexed, fun p path hpath => .inl ?_⟩)
        have hlog := hall p path hpath
        rw [htodo] at hlog
        exact hlog.resolve_right List.not_mem_nil
    · obtain rfl := List.mem_singleton.1 hm
      by_cases hfall : root.kind = .memory false → root.listing s.world = []
      · exact .inr (.inl (hfallBack.2 hfall))
      · push Not at hfall
        have hshows := (hhonest.listed hfall.1).resolve_left hfall.2
        refine .inr (.inr ⟨by rw [hfall.1]; rfl, fun p path hpath => .inr ?_⟩)
        exact (hput _).2 ⟨hfall.1, rfl, ((hshows.resolves p path).1 hpath).1⟩

theorem act (h : s.Faithful log) {a : Action σ δ} {rest : List (Action σ δ)}
    (htodo : s.todo = a :: rest) :
    Faithful { s with cp := (s.cp.apply a).value, todo := rest } (log ++ a.located) := by
  have hput : ∀ l, (l ∈ log ++ a.located ∨ .put l ∈ rest) ↔ (l ∈ log ∨ .put l ∈ s.todo) := by
    intro l
    rw [htodo, List.mem_append, or_assoc, List.mem_cons]
    cases a <;> simp [Action.located]
  have hfallBack : ∀ m, m ∈ s.cp.fallback ∨ .fallBack m ∈ s.todo →
      m ∈ (s.cp.apply a).value.fallback ∨ .fallBack m ∈ rest := by
    intro m hm
    rw [htodo] at hm
    exact ClassPath.fallBack_apply.2 hm
  refine ⟨h.honest, fun l hl => h.sound l ((hput l).1 hl), fun m hm => ?_⟩
  rcases h.complete m hm with hin | hfall | ⟨hindexed, hall⟩
  · exact or_assoc.1 (.inl (hfallBack m (.inl hin)))
  · exact or_assoc.1 (.inl (hfallBack m (.inr hfall)))
  · exact .inr (.inr ⟨hindexed, fun p path hpath => (hput _).2 (hall p path hpath)⟩)

/-- An archive whose scan is through is in the log with all that it resolves. -/
theorem through (htidy : s.Tidy log) (h : s.Faithful log) {scan : Scan σ δ}
    {others : List (Scan σ δ)} (hbefore : s.cp.pool.tasks.Perm (scan :: others))
    (hthrough : (scan.rest = [] ∧ scan.entry.root.walk.ending = .done) ∨
      ∃ e rest, scan.rest = e :: rest ∧ (scan.response e).answer = .ok .stop)
    {p : String} {path : EntryPath}
    (hpath : scan.entry.root.resolve s.world (normalize p) = some path) :
    ⟨path, scan.entry⟩ ∈ log := by
  obtain ⟨hin, hkind, hunder⟩ := htidy.scans scan (hbefore.mem_iff.2 List.mem_cons_self)
  have hhonest := h.honest _ (htidy.listed _ hin)
  rcases hthrough with ⟨hrest, hend⟩ | ⟨e, rest, hrest, hstop⟩
  · exact hunder.honest_done hhonest hkind hrest hend p hpath
  · obtain ⟨hproceed, -⟩ := hunder.honest_next hhonest hkind hrest
    rw [hstop] at hproceed
    cases hproceed

theorem moved (htidy : s.Tidy log) (h : s.Faithful log) {new : List (Found σ δ)}
    {cp : ClassPath σ δ} (hmoved : s.cp.Moved new cp) :
    Faithful { s with cp := cp } (log ++ new) := by
  cases hmoved with
  | idle htasks =>
    rw [List.append_nil]
    exact ⟨h.honest, h.sound, h.complete⟩
  | @advance scan others e rest pool hbefore hrest hproceed hafter =>
    obtain ⟨hin, hkind, hunder⟩ := htidy.scans scan (hbefore.mem_iff.2 List.mem_cons_self)
    obtain ⟨-, hnext⟩ := hunder.honest_next (h.honest _ (htidy.listed _ hin)) hkind hrest
    refine ⟨h.honest, fun l hl => ?_, fun m hm => ?_⟩
    · rw [List.mem_append, or_right_comm] at hl
      rcases hl with hold | hnew
      · exact h.sound l hold
      · obtain ⟨path, hpath, rfl⟩ := List.mem_map.1 hnew
        exact hnext path (Option.mem_toList.1 hpath)
    · refine (h.complete m hm).imp_right (Or.imp_right ?_)
      rintro ⟨hindexed, hall⟩
      exact ⟨hindexed, fun p path hpath =>
        (hall p path hpath).imp_left (List.mem_append_left _)⟩
  | abandon hbefore hafter =>
    rw [List.append_nil]
    exact ⟨h.honest, h.sound, h.complete⟩
  | @complete scan others pool hbefore hafter hthrough =>
    obtain ⟨hin, hkind, -⟩ := htidy.scans scan (hbefore.mem_iff.2 List.mem_cons_self)
    rw [List.append_nil]
    refine ⟨h.honest, h.sound, fun m hm => ?_⟩
    -- the archive that leaves the registry has everything in the log by now
    rcases h.complete m hm with hfallback | hrest
    · by_cases heq : m.ordinal = scan.entry.ordinal
      · obtain rfl :=
          RootEntry.eq_of_ordinal_eq htidy.ordered_members hm (htidy.listed _ hin) heq
        refine .inr (.inr ⟨by rw [hkind]; rfl, fun p path hpath => .inl ?_⟩)
        exact h.through htidy hbefore hthrough hpath
      · exact .inl (Registry.mem_remove.2 ⟨hfallback, heq⟩)
    · exact .inr hrest

theorem step (htidy : s.Tidy log) (h : s.Faithful log) {s' : Session σ δ}
    (hstep : Step .honest s s') : ∃ log', s'.Tidy log' ∧ s'.Faithful log' := by
  cases hstep.effect with
  | queue added coming data =>
    exact ⟨log, htidy.congr rfl rfl rfl, h.honest, h.sound, h.complete⟩
  | enroll rest htodo hadmits => exact ⟨log, htidy.enroll _ _, h.enroll htodo hadmits rest⟩
  | act htodo => exact ⟨_, htidy.act htodo, h.act htodo⟩
  | move hmoved => exact ⟨_, htidy.moved hmoved, h.moved htidy hmoved⟩
  | look halike => exact ⟨log, htidy.alike halike, h.alike halike⟩
  | change w hkeeps => exact ⟨log, htidy.congr rfl rfl rfl, h.change htidy hkeeps⟩

end Faithful

theorem Reachable.faithful {config : Config} {s : Session σ δ} (h : Reachable .honest config s) :
    ∃ log, s.Tidy log ∧ s.Faithful log :=
  h.invariant (P := fun s => ∃ log, s.Tidy log ∧ s.Faithful log)
    (fun w => ⟨[], .start config w, .start config w⟩)
    fun ⟨_, htidy, hfaithful⟩ hstep => hfaithful.step htidy hstep

end Session

end Overlay
