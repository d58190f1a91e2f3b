import Overlay.Proofs.ClassPath.Accounts
import Overlay.Proofs.ClassPath.Agreement

/-!
# Class paths at rest

When every root is added and no scan is queued or running, nothing is left of how it came about: the
log holds the shares of the members in some order, the registry holds the members that stay. Both
can be read off the roots that were added, and an order of the log has no say in a lookup, so any
two runs that added the same roots give the same answers: `at_rest_as_added`.
-/

namespace Overlay

variable {σ δ : Type}

theorem RootEntry.plain_share {w w' : σ} {m : Member σ δ}
    (h : (Contract.unchanging w).admits w' m.root) : ∀ l ∈ m.share w, l.path.Plain := by
  obtain ⟨-, -, hlisting, hwalk⟩ := h
  intro l hl
  rw [share] at hl
  cases hkind : m.root.kind with
  | memory writable =>
    rw [hkind] at hl
    cases writable with
    | true => cases hl
    | false =>
      obtain ⟨path, hpath, rfl⟩ := List.mem_map.1 hl
      exact hlisting path hpath
  | archive =>
    rw [hkind] at hl
    obtain ⟨path, hpath, rfl⟩ := List.mem_map.1 hl
    exact Indexer.plain_puts (fun _ hopen => absurd hopen List.not_mem_nil) hwalk path hpath
  | external =>
    rw [hkind] at hl
    cases hl

namespace Session

variable {config config' : Config} {s s' : Session σ δ} {w : σ} {log log' : List (Found σ δ)}

structure AtRest (s : Session σ δ) : Prop where
  coming : s.coming = []
  todo : s.todo = []
  tasks : s.cp.pool.tasks = []

theorem Accounted.at_rest (htidy : s.Tidy log) (h : s.Accounted w log) (hrest : s.AtRest) :
    log.Perm (s.members.flatMap (RootEntry.share w)) ∧
      s.cp.fallback = s.members.filter (RootEntry.stays w) := by
  constructor
  · have hshares := h.shares
    rw [outstanding, hrest.todo, hrest.tasks] at hshares
    simpa using hshares
  · refine htidy.ordered.eq_of_mem_iff (htidy.ordered_members.filter _) fun m => ?_
    rw [List.mem_filter]
    constructor
    · intro hm
      have hasked := (h.asked m (htidy.listed m hm)).1 (.inl hm)
      refine ⟨htidy.listed m hm, hasked.resolve_right ?_⟩
      simp [Scanned, ClassPath.scanning, hrest.todo, hrest.tasks]
    · rintro ⟨hm, hstays⟩
      have hasked := (h.asked m hm).2 (.inl hstays)
      exact hasked.resolve_right (by simp [hrest.todo])

/-- Lookups of tidy sessions with the same registry, and with logs of the same plain locations, come
to the same answers if the registry answers the same. -/
theorem Tidy.lookups_ext (h : s.Tidy log) (h' : s'.Tidy log')
    (hfallback : s.cp.fallback = s'.cp.fallback) (hlog : ∀ l, l ∈ log ↔ l ∈ log')
    (hplain : ∀ l ∈ log, l.path.Plain) {key : String}
    (hask : ∀ m ∈ s.cp.fallback, m.ask s.world key = m.ask s'.world key) :
    (∃ found, (s.cp.find s.world key).answer = .ok found ∧
      (s'.cp.find s'.world key).answer = .ok found) ∧
    ∃ all, (s.cp.findAll s.world key).answer = .ok all ∧
      (s'.cp.findAll s'.world key).answer = .ok all := by
  obtain ⟨entry, hans, hone, hfind, hfindAll⟩ := h.lookups s.world key
  obtain ⟨entry', hans', hone', hfind', hfindAll'⟩ := h'.lookups s'.world key
  have hlocations : ∀ l, l ∈ locationsOf entry ↔ l ∈ locationsOf entry' := fun l => by
    rw [hans.mem_locationsOf hplain, hlog l,
      hans'.mem_locationsOf fun l hl => hplain l ((hlog l).2 hl)]
  obtain ⟨hcollect, hchoose⟩ := collect_ext h.ordered hone hone' hlocations hask
  rw [hfallback] at hcollect hchoose hfind hfindAll
  exact ⟨⟨_, hfind, hchoose ▸ hfind'⟩, _, hfindAll, hcollect ▸ hfindAll'⟩

/-- At rest it only matters which roots were added in which order: neither the schedule of the scans
nor the configuration shows in any answer. -/
theorem at_rest_as_added (h : Reachable (.unchanging w) config s)
    (h' : Reachable (.unchanging w) config' s') (hadded : s.added = s'.added) (hrest : s.AtRest)
    (hrest' : s'.AtRest) :
    s.cp.fallback = s'.cp.fallback ∧ s.cp.indexed = s'.cp.indexed ∧
      ∀ key, (∃ found, (s.cp.find s.world key).answer = .ok found ∧
          (s'.cp.find s'.world key).answer = .ok found) ∧
        ∃ all, (s.cp.findAll s.world key).answer = .ok all ∧
          (s'.cp.findAll s'.world key).answer = .ok all := by
  obtain ⟨log, htidy, haccounted⟩ := h.accounted
  obtain ⟨log', htidy', haccounted'⟩ := h'.accounted
  obtain ⟨hlog, hfallback⟩ := haccounted.at_rest htidy hrest
  obtain ⟨hlog', hfallback'⟩ := haccounted'.at_rest htidy' hrest'
  have hmembers : s.members = s'.members := by
    rw [h.members_registered.2 hrest.coming, h'.members_registered.2 hrest'.coming, hadded]
  rw [← hmembers] at hlog' hfallback'
  have hsame : log.Perm log' := hlog.trans hlog'.symm
  refine ⟨hfallback.trans hfallback'.symm, ?_, fun key => ?_⟩
  · rw [ClassPath.indexed, ClassPath.indexed, htidy.index.size, htidy'.index.size, hsame.length_eq]
  · refine htidy.lookups_ext htidy' (hfallback.trans hfallback'.symm) (fun l => hsame.mem_iff)
      (fun l hl => ?_) fun m hm => ?_
    · obtain ⟨m, hm, hshare⟩ := List.mem_flatMap.1 (hlog.mem_iff.1 hl)
      exact RootEntry.plain_share (h.admitted m hm) l hshare
    · have hm := htidy.listed m hm
      obtain ⟨-, hresolve, -⟩ := h.admitted m hm
      obtain ⟨-, hresolve', -⟩ := h'.admitted m (hmembers ▸ hm)
      rw [RootEntry.ask, RootEntry.ask, hresolve, hresolve']

section Later

def later : RootTree Unit :=
  .leaf (RootTables.toRoot { name := "later", kind := .memory false, listing := [.ofNames ["x"]] })

theorem unchanging_deceptive :
    ∀ root ∈ deceptive.leaves, (Contract.unchanging ()).admits () root := by
  simp only [deceptive, RootTree.leaves, RootTree.leavesOf, List.append_nil, List.singleton_append,
    List.forall_mem_cons]
  refine ⟨?_, ?_, ?_, fun root hroot => absurd hroot List.not_mem_nil⟩
  all_goals exact ⟨rfl, rfl, by decide, by decide⟩

theorem unchanging_later : ∀ root ∈ later.leaves, (Contract.unchanging ()).admits () root := by
  intro root hroot
  obtain rfl := List.mem_singleton.1 hroot
  exact ⟨rfl, rfl, by decide, by decide⟩

theorem reachable_later {config : Config} {before cp : ClassPath Unit String}
    (hbefore : (addedDeceptive config).Scans before)
    (hafter : (before.add () none later).value.Scans cp) (hrest : cp.pool.tasks.length = 0) :
    ∃ s, Reachable (.unchanging ()) config s ∧ s.cp = cp ∧ s.AtRest ∧
      s.added = [(deceptive, some "data"), (later, none)] := by
  obtain ⟨members, hfirst⟩ := reachable_of_add (.unchanging ()) config () deceptive (some "data")
    unchanging_deceptive hbefore
  obtain ⟨members', hsecond⟩ := hfirst.add rfl rfl later none unchanging_later
  exact ⟨_, hsecond.scans hafter, rfl, ⟨rfl, rfl, List.length_eq_zero_iff.1 hrest⟩, rfl⟩

/-- Of two runs, one has two scans end before the last root is added, the other has a single worker
begin afterwards, with another index. -/
theorem at_rest_as_added_deceptive :
    ∃ s s' : Session Unit String, Reachable (.unchanging ()) {} s ∧
      Reachable (.unchanging ()) { customTable := false, maxScanners := 1 } s' ∧
      s.added = s'.added ∧ s.AtRest ∧ s'.AtRest ∧
      s.cp.fallback.map RootEntry.ordinal = [0] ∧ s.cp.fallback = s'.cp.fallback ∧
      s.cp.indexed = s'.cp.indexed ∧
      ∃ found, (s.cp.find () "/x").answer = .ok found ∧ (s'.cp.find () "/x").answer = .ok found := by
  let together : List Pool.Move :=
    [.take 0, .take 1, .work 1, .work 0, .work 0, .work 1, .work 1, .work 0, .work 0]
  let alone : List Pool.Move :=
    [.take 0, .work 0, .work 0, .work 0, .work 0, .take 0, .work 0, .work 0, .work 0]
  let single : Config := { customTable := false, maxScanners := 1 }
  have htogether : ((addedDeceptive {}).moves together).map (fun cp =>
      ((cp.add () none later).value.pool.tasks.length,
        (cp.add () none later).value.fallback.map RootEntry.ordinal)) = some (0, [0]) := rfl
  have halone : (((addedDeceptive single).add () none later).value.moves alone).map
      (fun cp => cp.pool.tasks.length) = some 0 := by decide +kernel
  obtain ⟨before, hbefore, hbooks⟩ := Option.map_eq_some_iff.1 htogether
  obtain ⟨htasks, hfallback⟩ := Prod.mk.inj hbooks
  obtain ⟨cp', hscans', htasks'⟩ := Option.map_eq_some_iff.1 halone
  obtain ⟨s, hreach, hcp, hrest, hadded⟩ := reachable_later (.of_moves hbefore) .refl htasks
  obtain ⟨s', hreach', hcp', hrest', hadded'⟩ := reachable_later .refl (.of_moves hscans') htasks'
  have hsame : s.added = s'.added := hadded.trans hadded'.symm
  obtain ⟨hfallbacks, hindexed, hanswers⟩ := at_rest_as_added hreach hreach' hsame hrest hrest'
  exact ⟨s, s', hreach, hreach', hsame, hrest, hrest', hcp ▸ hfallback, hfallbacks, hindexed,
    (hanswers "/x").1⟩

end Later

end Session

end Overlay
