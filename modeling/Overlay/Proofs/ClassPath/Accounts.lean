import Overlay.Proofs.ClassPath.Bookkeeping
import Overlay.Proofs.Scan.Outcome

/-!
# What members contribute

What a member puts in the end, and whether lookups go on to ask it afterwards, can be read off the
member: its `share` and whether it `stays`. `Accounted s w log` says that the log and what is
outstanding are the shares of the members in some order, and that the registry has those members
that stay and those whose scan is not over. Every step keeps this, whichever worker moves and
whatever is being added meanwhile, so that when nothing is outstanding nothing is left of the order
in which it came about.
-/

namespace Overlay

variable {σ δ : Type}

namespace Scan

variable {scan : Scan σ δ} {e : WalkEvent} {rest : List WalkEvent}

def remaining (scan : Scan σ δ) : List (Found σ δ) :=
  (scan.indexer.puts scan.entry.root.name scan.rest).map fun path => ⟨path, scan.entry⟩

def ending (scan : Scan σ δ) : Ending :=
  scan.indexer.ending scan.entry.root.name scan.entry.root.walk.ending scan.rest

theorem remaining_of_proceed (hrest : scan.rest = e :: rest)
    (hproceed : (scan.response e).answer = .ok .proceed) :
    scan.remaining = scan.located e ++ (scan.onward e rest).remaining := by
  rw [remaining, hrest, Indexer.puts_cons hproceed, List.map_append]
  rfl

theorem over_of_through (h : (scan.rest = [] ∧ scan.entry.root.walk.ending = .done) ∨
      ∃ e rest, scan.rest = e :: rest ∧ (scan.response e).answer = .ok .stop) :
    scan.remaining = [] ∧ scan.ending = .done := by
  rcases h with ⟨hrest, hend⟩ | ⟨e, rest, hrest, hstop⟩
  · rw [remaining, ending, hrest]
    exact ⟨rfl, hend⟩
  · rw [response] at hstop
    rw [remaining, ending, hrest, Indexer.puts, Indexer.ending, hstop]
    exact ⟨rfl, rfl⟩

theorem over_of_failed (h : (scan.rest = [] ∧ scan.entry.root.walk.ending ≠ .done) ∨
      ∃ e rest error, scan.rest = e :: rest ∧ (scan.response e).answer = .error error) :
    scan.remaining = [] ∧ scan.ending ≠ .done := by
  rcases h with ⟨hrest, hend⟩ | ⟨e, rest, error, hrest, hfail⟩
  · rw [remaining, ending, hrest]
    exact ⟨rfl, hend⟩
  · rw [response] at hfail
    rw [remaining, ending, hrest, Indexer.puts, Indexer.ending, hfail]
    exact ⟨rfl, by simp⟩

/-- A scan ends as it was bound to end from the start. -/
theorem Underway.ending_new {log : List (Found σ δ)} (h : scan.Underway log) :
    (Scan.new scan.entry).ending = scan.ending := by
  obtain ⟨before, puts, hevents, hfollows, -⟩ := h
  have hnew : (Scan.new scan.entry).ending = Indexer.ending scan.entry.root.name
    scan.entry.root.walk.ending {} scan.entry.root.walk.events := rfl
  rw [hnew, hevents, hfollows.ending_append]
  rfl

end Scan

namespace RootEntry

def share (w : σ) (m : Member σ δ) : List (Found σ δ) :=
  match m.root.kind with
  | .memory false => (m.root.listing w).map fun path => ⟨path, m⟩
  | .archive => (Scan.new m).remaining
  | .memory true | .external => []

/-- Lookups go on to ask the member when there is nothing left to be done for it. -/
def stays (w : σ) (m : Member σ δ) : Bool :=
  match m.root.kind with
  | .memory false => (m.root.listing w).isEmpty
  | .archive => (Scan.new m).ending ≠ .done
  | .memory true | .external => true

theorem share_congr {w w' : σ} {m : Member σ δ} (h : m.root.listing w = m.root.listing w') :
    m.share w = m.share w' := by
  rw [share, share, h]

theorem stays_congr {w w' : σ} {m : Member σ δ} (h : m.root.listing w = m.root.listing w') :
    m.stays w = m.stays w' := by
  rw [stays, stays, h]

theorem stays_of_archive {m : Member σ δ} (h : m.root.kind = .archive) (w : σ) :
    m.stays w ↔ (Scan.new m).ending ≠ .done := by
  rw [stays, h]
  exact decide_eq_true_iff

end RootEntry

def Action.due : Action σ δ → List (Found σ δ)
  | .put l => [l]
  | .scan m => (Scan.new m).remaining
  | .report _ | .reserve _ | .fallBack _ | .remember _ => []

namespace ClassPath

variable {w : σ} {config : Config} {entry : Member σ δ}

theorem due_publish (w : σ) (config : Config) (entry : Member σ δ) :
    (publish w config entry ++ [Action.remember entry]).flatMap Action.due = entry.share w := by
  have h := published w config entry
  generalize publish w config entry = actions at h ⊢
  cases h with
  | listed hkind hlist =>
    simp [RootEntry.share, hkind, Action.due, List.flatMap_map, ← List.map_eq_flatMap]
  | scanned hkind => simp [RootEntry.share, hkind, Action.due]
  | asked hkind hlist reports =>
    have hshare : entry.share w = [] := by
      rw [RootEntry.share]
      cases hmember : entry.root.kind with
      | memory writable =>
        cases writable with
        | true => rfl
        | false => rw [hlist hmember, List.map_nil]
      | archive => exact absurd hmember hkind
      | external => rfl
    simp [Action.due, List.flatMap_map, hshare]

/-- A member falls back to stay, or to be scanned. -/
theorem fallBack_self_mem_publish :
    .fallBack entry ∈ publish w config entry ↔
      entry.stays w ∨ .scan entry ∈ publish w config entry := by
  rw [fallBack_mem_publish, scan_mem_publish, RootEntry.stays]
  cases hkind : entry.root.kind with
  | memory writable => cases writable <;> simp
  | archive => simp
  | external => simp

end ClassPath

/-- Roots of plain names, honest or not, that always list and resolve the same. -/
def Contract.unchanging (w : σ) : Contract σ where
  admits w' root := root.listing w' = root.listing w ∧ root.resolve w' = root.resolve w ∧
    (∀ path ∈ root.listing w, path.Plain) ∧ ∀ e ∈ root.walk.events, e.Plain
  keeps _ _ _ := True

namespace Session

variable {s : Session σ δ} {log : List (Found σ δ)} {w : σ} {m : Member σ δ}

def outstanding (s : Session σ δ) : List (Found σ δ) :=
  s.todo.flatMap Action.due ++ s.cp.pool.tasks.flatMap Scan.remaining

def Asked (s : Session σ δ) (m : Member σ δ) : Prop := m ∈ s.cp.fallback ∨ .fallBack m ∈ s.todo

def Scanned (s : Session σ δ) (m : Member σ δ) : Prop := m ∈ s.cp.scanning ∨ .scan m ∈ s.todo

structure Accounted (s : Session σ δ) (w : σ) (log : List (Found σ δ)) : Prop where
  shares : (log ++ s.outstanding).Perm (s.members.flatMap (RootEntry.share w))
  asked : ∀ m ∈ s.members, s.Asked m ↔ m.stays w ∨ s.Scanned m

namespace Accounted

theorem start (config : Config) (w w' : σ) : Accounted (δ := δ) (start config w') w [] where
  shares := .refl _
  asked m hm := by cases hm

theorem alike (h : s.Accounted w log) {cp : ClassPath σ δ} (halike : s.cp.Alike cp) :
    Accounted { s with cp := cp } w log := by
  rw [halike.same]
  exact ⟨h.shares, h.asked⟩

theorem shares_enroll (h : s.Accounted w log) (htodo : s.todo = []) {root : Root σ}
    (hlisting : root.listing s.world = root.listing w) (rest : List (RootTree σ)) :
    (log ++ (s.enroll root rest).outstanding).Perm
      ((s.enroll root rest).members.flatMap (RootEntry.share w)) := by
  let entry : Member σ δ := ⟨s.cp.nextOrdinal, root, s.data⟩
  have hshares := h.shares
  rw [outstanding, htodo, List.flatMap_nil, List.nil_append] at hshares
  have hout : (s.enroll root rest).outstanding =
      entry.share w ++ s.cp.pool.tasks.flatMap Scan.remaining := by
    rw [← RootEntry.share_congr hlisting, ← ClassPath.due_publish s.world s.cp.config entry]
    rfl
  have hmembers : (s.enroll root rest).members.flatMap (RootEntry.share w) =
      s.members.flatMap (RootEntry.share w) ++ entry.share w := by
    simp [Session.enroll, ClassPath.enroll, entry]
  rw [hout, hmembers]
  exact (List.perm_append_comm_assoc _ _ _).trans
    ((hshares.append_left _).trans List.perm_append_comm)

theorem enroll (htidy : s.Tidy log) (h : s.Accounted w log) (htodo : s.todo = []) {root : Root σ}
    (hlisting : root.listing s.world = root.listing w) (rest : List (RootTree σ)) :
    (s.enroll root rest).Accounted w log := by
  let entry : Member σ δ := ⟨s.cp.nextOrdinal, root, s.data⟩
  let due := ClassPath.publish s.world s.cp.config entry
  refine ⟨h.shares_enroll htodo hlisting rest, fun m hm => ?_⟩
  have hasked : (s.enroll root rest).Asked m ↔ m ∈ s.cp.fallback ∨ .fallBack m ∈ due := by
    simp [Asked, Session.enroll, ClassPath.enroll, due, entry]
  have hscanned : (s.enroll root rest).Scanned m ↔ m ∈ s.cp.scanning ∨ .scan m ∈ due := by
    simp [Scanned, ClassPath.scanning, Session.enroll, ClassPath.enroll, due, entry]
  rw [hasked, hscanned]
  rcases List.mem_append.1 hm with hold | hnew
  · have hother : m ≠ entry := by
      rintro rfl
      exact Nat.lt_irrefl _ (htidy.ordinal_lt hold)
    have hbefore := h.asked m hold
    rw [Asked, Scanned, htodo] at hbefore
    simpa [due, ClassPath.fallBack_mem_publish, ClassPath.scan_mem_publish, hother] using hbefore
  · rw [List.mem_singleton.1 hnew]
    have hfree : entry ∉ s.cp.fallback := fun hin =>
      Nat.lt_irrefl _ (htidy.ordinal_lt (htidy.listed _ hin))
    have hidle : entry ∉ s.cp.scanning := fun hin => hfree (htidy.scanned_listed hin)
    rw [or_iff_right hfree, or_iff_right hidle, ClassPath.fallBack_self_mem_publish,
      RootEntry.stays_congr hlisting]

/-- An action puts what was due of it, or leaves that to the scan that it starts. -/
theorem outstanding_act {a : Action σ δ} {rest : List (Action σ δ)} (htodo : s.todo = a :: rest) :
    (a.located ++ outstanding { s with cp := (s.cp.apply a).value, todo := rest }).Perm
      s.outstanding := by
  have hdue : s.outstanding =
      a.due ++ (rest.flatMap Action.due ++ s.cp.pool.tasks.flatMap Scan.remaining) := by
    rw [outstanding, htodo, List.flatMap_cons, List.append_assoc]
  rw [hdue]
  cases a with
  | scan m =>
    have htasks : ((s.cp.pool.submit (.new m)).tasks.flatMap Scan.remaining).Perm
        ((Scan.new m).remaining ++ s.cp.pool.tasks.flatMap Scan.remaining) :=
      (Pool.tasks_submit _ _).flatMap_right _
    exact (htasks.append_left _).trans (List.perm_append_comm_assoc _ _ _)
  | report _ | reserve _ | put _ | fallBack _ | remember _ => exact .refl _

theorem act (h : s.Accounted w log) {a : Action σ δ} {rest : List (Action σ δ)}
    (htodo : s.todo = a :: rest) :
    Accounted { s with cp := (s.cp.apply a).value, todo := rest } w (log ++ a.located) := by
  refine ⟨?_, fun m hm => ?_⟩
  · rw [List.append_assoc]
    exact ((outstanding_act htodo).append_left log).trans h.shares
  · have hasked := h.asked m hm
    rw [Asked, Scanned, htodo, ← ClassPath.fallBack_apply, ← ClassPath.scan_apply] at hasked
    exact hasked

/-- The accounts stay right when a scan is over, if the archive stays where it should. -/
theorem ended (htidy : s.Tidy log) (h : s.Accounted w log) {scan : Scan σ δ}
    {others : List (Scan σ δ)} {pool : Pool (Scan σ δ)}
    (hbefore : s.cp.pool.tasks.Perm (scan :: others)) (hafter : pool.tasks.Perm others)
    (hremaining : scan.remaining = []) {fallback : Registry (Root σ) δ}
    (hfallback : ∀ m ∈ s.members, m ∈ fallback ↔
      m ∈ s.cp.fallback ∧ (m = scan.entry → scan.ending ≠ .done)) :
    Accounted { s with cp := { s.cp with fallback := fallback, pool := pool } } w log := by
  obtain ⟨hin, hkind, hunder⟩ := htidy.scans scan (hbefore.mem_iff.2 List.mem_cons_self)
  have hdistinct := ((hbefore.map Scan.entry).map RootEntry.ordinal).nodup_iff.1 htidy.distinct
  have hscanning : ∀ m, m ∈ s.cp.scanning ↔ m = scan.entry ∨ m ∈ pool.tasks.map Scan.entry := by
    intro m
    rw [ClassPath.scanning, (hbefore.map Scan.entry).mem_iff, List.map_cons, List.mem_cons,
      (hafter.map Scan.entry).mem_iff]
  refine ⟨?_, fun m hm => ?_⟩
  · have htasks : (s.cp.pool.tasks.flatMap Scan.remaining).Perm
        (pool.tasks.flatMap Scan.remaining) := by
      refine (hbefore.flatMap_right _).trans ?_
      rw [List.flatMap_cons, hremaining, List.nil_append]
      exact (hafter.flatMap_right _).symm
    exact ((htasks.symm.append_left _).append_left log).trans h.shares
  · change m ∈ fallback ∨ .fallBack m ∈ s.todo ↔
      m.stays w ∨ m ∈ pool.tasks.map Scan.entry ∨ .scan m ∈ s.todo
    rw [hfallback m hm]
    by_cases hself : m = scan.entry
    · rw [hself]
      obtain ⟨hfall, hscan⟩ := htidy.scanned_settled ((hscanning _).2 (.inl rfl))
      have hgone : scan.entry ∉ pool.tasks.map Scan.entry := fun hagain => by
        rw [(hafter.map Scan.entry).mem_iff] at hagain
        exact (List.nodup_cons.1 hdistinct).1 (List.mem_map_of_mem hagain)
      rw [or_iff_left hfall, or_iff_left (not_or.2 ⟨hgone, hscan⟩), and_iff_right hin,
        RootEntry.stays_of_archive hkind, hunder.ending_new]
      exact forall_prop_of_true rfl
    · have hasked := h.asked m hm
      rw [Asked, Scanned, hscanning, or_iff_right hself] at hasked
      rw [and_iff_left fun heq => absurd heq hself]
      exact hasked

theorem moved (htidy : s.Tidy log) (h : s.Accounted w log) {new : List (Found σ δ)}
    {cp : ClassPath σ δ} (hmoved : s.cp.Moved new cp) :
    Accounted { s with cp := cp } w (log ++ new) := by
  cases hmoved with
  | idle htasks =>
    rw [List.append_nil]
    refine ⟨?_, fun m hm => ?_⟩
    · exact (((htasks.flatMap_right _).append_left _).append_left log).trans h.shares
    · have hscanning : m ∈ s.cp.scanning ↔ m ∈ _ := ((htasks.map Scan.entry).mem_iff (a := m)).symm
      have hasked := h.asked m hm
      rw [Scanned, hscanning] at hasked
      exact hasked
  | @advance scan others e rest pool hbefore hrest hproceed hafter =>
    have hscanning : (pool.tasks.map Scan.entry).Perm s.cp.scanning :=
      (hafter.map Scan.entry).trans (hbefore.map Scan.entry).symm
    refine ⟨?_, fun m hm => ?_⟩
    · have htasks : (s.cp.pool.tasks.flatMap Scan.remaining).Perm
          (scan.located e ++ pool.tasks.flatMap Scan.remaining) := by
        refine (hbefore.flatMap_right _).trans ?_
        rw [List.flatMap_cons, Scan.remaining_of_proceed hrest hproceed, List.append_assoc]
        exact ((hafter.flatMap_right _).symm).append_left _
      rw [List.append_assoc]
      refine List.Perm.trans ?_ h.shares
      exact ((List.perm_append_comm_assoc _ _ _).trans (htasks.symm.append_left _)).append_left log
    · have hasked := h.asked m hm
      rw [Scanned, ← hscanning.mem_iff] at hasked
      exact hasked
  | @abandon scan others pool hbefore hafter hfailed =>
    obtain ⟨hremaining, hending⟩ := Scan.over_of_failed hfailed
    rw [List.append_nil]
    exact h.ended htidy hbefore hafter hremaining fun m hm => (and_iff_left fun _ => hending).symm
  | @complete scan others pool hbefore hafter hthrough =>
    obtain ⟨hremaining, hending⟩ := Scan.over_of_through hthrough
    rw [List.append_nil]
    obtain ⟨hin, -⟩ := htidy.scans scan (hbefore.mem_iff.2 List.mem_cons_self)
    refine h.ended htidy hbefore hafter hremaining fun m hm => ?_
    rw [Registry.mem_remove]
    constructor
    · rintro ⟨hmem, hne⟩
      exact ⟨hmem, fun heq => absurd (congrArg RootEntry.ordinal heq) hne⟩
    · rintro ⟨hmem, hstay⟩
      refine ⟨hmem, fun hsame => ?_⟩
      exact hstay (RootEntry.eq_of_ordinal_eq htidy.ordered hmem hin hsame) hending

theorem step (htidy : s.Tidy log) (h : s.Accounted w log) {s' : Session σ δ}
    (hstep : Step (.unchanging w) s s') : ∃ log', s'.Tidy log' ∧ s'.Accounted w log' := by
  cases hstep.effect with
  | queue added coming data => exact ⟨log, htidy.congr rfl rfl rfl, h.shares, h.asked⟩
  | enroll rest htodo hadmits =>
    exact ⟨log, htidy.enroll _ _, h.enroll htidy htodo hadmits.1 rest⟩
  | act htodo => exact ⟨_, htidy.act htodo, h.act htodo⟩
  | move hmoved => exact ⟨_, htidy.moved hmoved, h.moved htidy hmoved⟩
  | look halike => exact ⟨log, htidy.alike halike, h.alike halike⟩
  | change w' hkeeps => exact ⟨log, htidy.congr rfl rfl rfl, h.shares, h.asked⟩

end Accounted

theorem Reachable.accounted {config : Config} (h : Reachable (.unchanging w) config s) :
    ∃ log, s.Tidy log ∧ s.Accounted w log :=
  h.invariant (P := fun s => ∃ log, s.Tidy log ∧ s.Accounted w log)
    (fun w' => ⟨[], .start config w', .start config w w'⟩)
    fun ⟨_, htidy, haccounted⟩ hstep => haccounted.step htidy hstep

end Session

end Overlay
