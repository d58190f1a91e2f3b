import Overlay.Proofs.ClassPath.Session
import Overlay.Proofs.Registration

/-!
# Bookkeeping of a session

Whatever its roots are like, a class path keeps its books: `Tidy s log` says that the index holds
`log`, that the fallback registry is in order and has members only, that what a scan has put is in
the log and its archive in the registry, and that what is left to be done for the last member fits
all this. Every step keeps it, with what the step puts added to the log.
-/

namespace Overlay

variable {σ δ : Type}

namespace ClassPath

variable {w : σ} {config : Config} {entry m : Member σ δ}

/-- What a member is published by: what it lists is put, or it is scanned and falls back meanwhile,
or there is nothing of it to index and it falls back for good. -/
inductive Published (w : σ) (entry : Member σ δ) : List (Action σ δ) → Prop
  | listed (hkind : entry.root.kind = .memory false) (hlist : entry.root.listing w ≠ []) :
      Published w entry (.reserve (entry.root.listing w).length ::
        (entry.root.listing w).map fun path => .put ⟨path, entry⟩)
  | scanned (hkind : entry.root.kind = .archive) :
      Published w entry [.fallBack entry, .scan entry]
  | asked (hkind : entry.root.kind ≠ .archive)
      (hlist : entry.root.kind = .memory false → entry.root.listing w = []) (reports : List Event) :
      Published w entry (reports.map .report ++ [.fallBack entry])

theorem published (w : σ) (config : Config) (entry : Member σ δ) :
    Published w entry (publish w config entry) := by
  unfold publish
  cases hkind : entry.root.kind with
  | memory writable =>
    cases writable with
    | true => exact .asked (by simp [hkind]) (by simp [hkind]) [_]
    | false =>
      cases hlist : entry.root.listing w with
      | nil => exact .asked (by simp [hkind]) (fun _ => hlist) [_]
      | cons path paths =>
        have hlisted := Published.listed (w := w) hkind (by rw [hlist]; exact List.cons_ne_nil _ _)
        rwa [hlist] at hlisted
  | archive => exact .scanned hkind
  | external =>
    by_cases hdev : config.development
    · rw [if_pos hdev]
      exact .asked (by simp [hkind]) (by simp [hkind]) []
    · rw [if_neg hdev]
      exact .asked (by simp [hkind]) (by simp [hkind]) [_]

theorem put_mem_publish {l : Found σ δ} :
    .put l ∈ publish w config entry ↔
      entry.root.kind = .memory false ∧ l.origin = entry ∧ l.path ∈ entry.root.listing w := by
  have h := published w config entry
  generalize publish w config entry = actions at h ⊢
  obtain ⟨path, origin⟩ := l
  cases h with
  | listed hkind hlist => simp [hkind, and_comm, eq_comm]
  | scanned hkind => simp [hkind]
  | asked hkind hlist reports =>
    have hnone : entry.root.kind = .memory false → origin = entry →
        path ∉ entry.root.listing w := fun hmemory _ => by simp [hlist hmemory]
    simpa using hnone

theorem fallBack_mem_publish :
    .fallBack m ∈ publish w config entry ↔
      m = entry ∧ (entry.root.kind = .memory false → entry.root.listing w = []) := by
  have h := published w config entry
  generalize publish w config entry = actions at h ⊢
  cases h with
  | listed hkind hlist => simp [hkind, hlist]
  | scanned hkind => simp [hkind]
  | asked hkind hlist reports => simpa using fun _ => hlist

theorem scan_mem_publish :
    .scan m ∈ publish w config entry ↔ m = entry ∧ entry.root.kind = .archive := by
  have h := published w config entry
  generalize publish w config entry = actions at h ⊢
  cases h with
  | listed hkind hlist => simp [hkind]
  | scanned hkind => simp [hkind]
  | asked hkind hlist reports => simp [hkind]

end ClassPath

/-- The order of what is done for a member: it falls back at most once, is scanned at most once,
and is not scanned before it falls back. -/
def Action.MayPrecede : Action σ δ → Action σ δ → Prop
  | .fallBack _, .fallBack _ | .scan _, .scan _ | .scan _, .fallBack _ => False
  | _, _ => True

theorem ClassPath.pairwise_publish (w : σ) (config : Config) (entry : Member σ δ) :
    (publish w config entry ++ [Action.remember entry]).Pairwise Action.MayPrecede := by
  have h := published w config entry
  generalize publish w config entry = actions at h ⊢
  cases h with
  | listed hkind hlist =>
    rw [List.cons_append, List.pairwise_cons, List.pairwise_append, List.pairwise_map]
    refine ⟨fun _ _ => trivial, List.pairwise_of_forall fun _ _ => trivial,
      List.pairwise_singleton _ _, fun a ha b _ => ?_⟩
    obtain ⟨path, -, rfl⟩ := List.mem_map.1 ha
    trivial
  | scanned hkind => simp [Action.MayPrecede]
  | asked hkind hlist reports =>
    rw [List.append_assoc, List.pairwise_append, List.pairwise_map]
    refine ⟨List.pairwise_of_forall fun _ _ => trivial, by simp [Action.MayPrecede],
      fun a ha b _ => ?_⟩
    obtain ⟨event, -, rfl⟩ := List.mem_map.1 ha
    trivial

/-- What is left to be done is for the last member, and fits the registry and the members being
scanned. -/
structure Due (members : List (Member σ δ)) (fallback : Registry (Root σ) δ)
    (scanning : List (Member σ δ)) (todo : List (Action σ δ)) : Prop where
  puts : ∀ l, .put l ∈ todo →
    members.getLast? = some l.origin ∧ l.origin.root.kind = .memory false
  fallBacks : ∀ m, .fallBack m ∈ todo →
    members.getLast? = some m ∧ ∀ r ∈ fallback, r.ordinal ≠ m.ordinal
  scans : ∀ m, .scan m ∈ todo → m.root.kind = .archive ∧ (m ∈ fallback ∨ .fallBack m ∈ todo) ∧
    ∀ r ∈ scanning, r.ordinal ≠ m.ordinal
  sequence : todo.Pairwise Action.MayPrecede

namespace Due

variable {members scanning scanning' : List (Member σ δ)} {fallback fallback' : Registry (Root σ) δ}
  {a : Action σ δ} {rest : List (Action σ δ)} {m : Member σ δ}

theorem nil : Due members fallback scanning [] := ⟨by simp, by simp, by simp, .nil⟩

theorem tail (h : Due members fallback scanning (a :: rest)) (ha : ∀ m, a ≠ .fallBack m) :
    Due members fallback scanning rest where
  puts l hl := h.puts l (List.mem_cons_of_mem _ hl)
  fallBacks m hm := h.fallBacks m (List.mem_cons_of_mem _ hm)
  scans m hm := by
    obtain ⟨hkind, hin, hfree⟩ := h.scans m (List.mem_cons_of_mem _ hm)
    refine ⟨hkind, hin.imp_right fun hfall => ?_, hfree⟩
    exact (List.mem_cons.1 hfall).resolve_left fun heq => ha m heq.symm
  sequence := (List.pairwise_cons.1 h.sequence).2

theorem fallBack (h : Due members fallback scanning (.fallBack m :: rest)) :
    Due members (fallback.insert m) scanning rest where
  puts l hl := h.puts l (List.mem_cons_of_mem _ hl)
  fallBacks m' hm' := ((List.pairwise_cons.1 h.sequence).1 _ hm').elim
  scans m' hm' := by
    obtain ⟨hkind, hin, hfree⟩ := h.scans m' (List.mem_cons_of_mem _ hm')
    refine ⟨hkind, ?_, hfree⟩
    rw [Registry.mem_insert]
    rcases hin with hin | hfall
    · exact .inl (.inr hin)
    · rcases List.mem_cons.1 hfall with heq | hrest
      · exact .inl (.inl (Action.fallBack.inj heq))
      · exact .inr hrest
  sequence := (List.pairwise_cons.1 h.sequence).2

theorem scan (h : Due members fallback scanning (.scan m :: rest))
    (scanning' : List (Member σ δ)) : m ∈ fallback ∧ Due members fallback scanning' rest := by
  obtain ⟨hbefore, hseq⟩ := List.pairwise_cons.1 h.sequence
  refine ⟨?_, fun l hl => h.puts l (List.mem_cons_of_mem _ hl),
    fun m' hm' => (hbefore _ hm').elim, fun m' hm' => (hbefore _ hm').elim, hseq⟩
  rcases (h.scans m List.mem_cons_self).2.1 with hin | hfall
  · exact hin
  · rcases List.mem_cons.1 hfall with heq | hrest
    · cases heq
    · exact (hbefore _ hrest).elim

/-- Members being scanned, and only those, may leave the registry. -/
theorem leave {todo : List (Action σ δ)} (h : Due members fallback scanning todo)
    (hleave : ∀ r ∈ fallback', r ∈ fallback)
    (hstay : ∀ r ∈ fallback, (∀ m ∈ scanning, m.ordinal ≠ r.ordinal) → r ∈ fallback')
    (hscanning : ∀ r ∈ scanning', r ∈ scanning) : Due members fallback' scanning' todo where
  puts := h.puts
  fallBacks m hm := ⟨(h.fallBacks m hm).1, fun r hr => (h.fallBacks m hm).2 r (hleave r hr)⟩
  scans m hm := by
    obtain ⟨hkind, hin, hfree⟩ := h.scans m hm
    exact ⟨hkind, hin.imp_left fun hin => hstay m hin hfree, fun r hr => hfree r (hscanning r hr)⟩
  sequence := h.sequence

theorem publish (w : σ) (config : Config) {entry : Member σ δ}
    (hlast : members.getLast? = some entry)
    (hfallback : ∀ r ∈ fallback, r.ordinal ≠ entry.ordinal)
    (hscanning : ∀ r ∈ scanning, r.ordinal ≠ entry.ordinal) :
    Due members fallback scanning (ClassPath.publish w config entry ++ [.remember entry]) where
  puts l hl := by
    have hput : .put l ∈ ClassPath.publish w config entry := by simpa using hl
    obtain ⟨hkind, rfl, -⟩ := ClassPath.put_mem_publish.1 hput
    exact ⟨hlast, hkind⟩
  fallBacks m hm := by
    have hfall : .fallBack m ∈ ClassPath.publish w config entry := by simpa using hm
    obtain ⟨rfl, -⟩ := ClassPath.fallBack_mem_publish.1 hfall
    exact ⟨hlast, hfallback⟩
  scans m hm := by
    have hscan : .scan m ∈ ClassPath.publish w config entry := by simpa using hm
    obtain ⟨rfl, hkind⟩ := ClassPath.scan_mem_publish.1 hscan
    refine ⟨hkind, .inr (List.mem_append_left _ ?_), hscanning⟩
    exact ClassPath.fallBack_mem_publish.2 ⟨rfl, fun h => by rw [hkind] at h; cases h⟩
  sequence := ClassPath.pairwise_publish w config entry

end Due

namespace Scan

def Underway (log : List (Found σ δ)) (scan : Scan σ δ) : Prop :=
  ∃ before puts, scan.entry.root.walk.events = before ++ scan.rest ∧
    Indexer.Follows scan.entry.root.name {} before puts scan.indexer ∧
    ∀ path ∈ puts, ⟨path, scan.entry⟩ ∈ log

namespace Underway

variable {scan : Scan σ δ} {log log' : List (Found σ δ)}

theorem new (entry : Member σ δ) : (Scan.new entry).Underway log := ⟨[], [], rfl, .nil _, nofun⟩

theorem mono (h : scan.Underway log) (hlog : ∀ l ∈ log, l ∈ log') : scan.Underway log' := by
  obtain ⟨before, puts, hevents, hfollows, hputs⟩ := h
  exact ⟨before, puts, hevents, hfollows, fun path hpath => hlog _ (hputs path hpath)⟩

theorem onward {e : WalkEvent} {rest : List WalkEvent} (h : scan.Underway log)
    (hrest : scan.rest = e :: rest) (hproceed : (scan.response e).answer = .ok .proceed) :
    (scan.onward e rest).Underway (log ++ scan.located e) := by
  obtain ⟨before, puts, hevents, hfollows, hputs⟩ := h
  refine ⟨before ++ [e], puts ++ (scan.response e).put?.toList, ?_,
    hfollows.append (.single hproceed), fun path hpath => ?_⟩
  · rw [hrest] at hevents
    rw [List.append_assoc]
    exact hevents
  · rcases List.mem_append.1 hpath with hold | hnew
    · exact List.mem_append_left _ (hputs path hold)
    · exact List.mem_append_right _ (List.mem_map_of_mem hnew)

end Underway

end Scan

def Action.located : Action σ δ → List (Found σ δ)
  | .put l => [l]
  | .report _ | .reserve _ | .fallBack _ | .scan _ | .remember _ => []

namespace ClassPath

def scanning (cp : ClassPath σ δ) : List (Member σ δ) := cp.pool.tasks.map Scan.entry

variable {cp : ClassPath σ δ} {a : Action σ δ} {rest : List (Action σ δ)} {m : Member σ δ}

/-- A member that is to fall back is in the registry after the action that does it. -/
theorem fallBack_apply :
    m ∈ (cp.apply a).value.fallback ∨ .fallBack m ∈ rest ↔
      m ∈ cp.fallback ∨ .fallBack m ∈ a :: rest := by
  rw [List.mem_cons]
  cases a with
  | fallBack entry =>
    have hinsert : m ∈ cp.fallback.insert entry ↔ m = entry ∨ m ∈ cp.fallback :=
      Registry.mem_insert
    rw [Action.fallBack.injEq, or_left_comm, ← or_assoc, ← hinsert]
    rfl
  | report _ | reserve _ | put _ | scan _ | remember _ =>
    simp only [reduceCtorEq, false_or]
    rfl

theorem scan_apply :
    m ∈ (cp.apply a).value.scanning ∨ .scan m ∈ rest ↔
      m ∈ cp.scanning ∨ .scan m ∈ a :: rest := by
  rw [List.mem_cons]
  cases a with
  | scan entry =>
    have hsubmit : m ∈ (cp.pool.submit (.new entry)).tasks.map Scan.entry ↔
        m = entry ∨ m ∈ cp.scanning := by
      rw [((Pool.tasks_submit cp.pool (Scan.new entry)).map Scan.entry).mem_iff]
      exact List.mem_cons
    rw [Action.scan.injEq, or_left_comm, ← or_assoc, ← hsubmit]
    rfl
  | report _ | reserve _ | put _ | fallBack _ | remember _ =>
    simp only [reduceCtorEq, false_or]
    rfl

end ClassPath

namespace Session

structure Tidy (s : Session σ δ) (log : List (Found σ δ)) : Prop where
  index : s.cp.index.Holds log
  ordinals : s.members.map RootEntry.ordinal = List.range s.cp.nextOrdinal
  ordered : s.cp.fallback.Pairwise RootEntry.Before
  listed : ∀ m ∈ s.cp.fallback, m ∈ s.members
  origins : ∀ l ∈ log, l.origin ∈ s.members ∧ l.origin.root.kind.indexed
  scans : ∀ scan ∈ s.cp.pool.tasks, scan.entry ∈ s.cp.fallback ∧
    scan.entry.root.kind = .archive ∧ scan.Underway log
  distinct : (s.cp.scanning.map RootEntry.ordinal).Nodup
  due : Due s.members s.cp.fallback s.cp.scanning s.todo

namespace Tidy

variable {s : Session σ δ} {log : List (Found σ δ)}

theorem start (config : Config) (w : σ) : Tidy (δ := δ) (start config w) [] where
  index := Index.holds_new config.customTable config.validate
  ordinals := rfl
  ordered := .nil
  listed m hm := by cases hm
  origins l hl := by cases hl
  scans scan hscan := by cases hscan
  distinct := .nil
  due := .nil

theorem ordered_members (h : s.Tidy log) : s.members.Pairwise RootEntry.Before := by
  have hrange := List.pairwise_lt_range (n := s.cp.nextOrdinal)
  rw [← h.ordinals, List.pairwise_map] at hrange
  exact hrange

theorem ordinal_lt (h : s.Tidy log) {m : Member σ δ} (hm : m ∈ s.members) :
    m.ordinal < s.cp.nextOrdinal := by
  rw [← List.mem_range, ← h.ordinals]
  exact List.mem_map_of_mem hm

theorem scanned_listed (h : s.Tidy log) {m : Member σ δ} (hm : m ∈ s.cp.scanning) :
    m ∈ s.cp.fallback := by
  obtain ⟨scan, hscan, rfl⟩ := List.mem_map.1 hm
  exact (h.scans scan hscan).1

/-- What there was to do for an archive is done when its scan is under way. -/
theorem scanned_settled (h : s.Tidy log) {m : Member σ δ} (hm : m ∈ s.cp.scanning) :
    .fallBack m ∉ s.todo ∧ .scan m ∉ s.todo :=
  ⟨fun hdue => (h.due.fallBacks m hdue).2 m (h.scanned_listed hm) rfl,
    fun hdue => (h.due.scans m hdue).2.2 m hm rfl⟩

theorem alike (h : s.Tidy log) {cp : ClassPath σ δ} (halike : s.cp.Alike cp) :
    Tidy { s with cp := cp } log := by
  have hindex := halike.index log h.index
  rw [halike.same]
  exact ⟨hindex, h.ordinals, h.ordered, h.listed, h.origins, h.scans, h.distinct, h.due⟩

theorem enroll (h : s.Tidy log) (root : Root σ) (rest : List (RootTree σ)) :
    (s.enroll root rest).Tidy log where
  index := h.index
  ordinals := by
    simp only [Session.enroll, ClassPath.enroll, List.map_append, List.map_cons, List.map_nil,
      h.ordinals, List.range_succ]
  ordered := h.ordered
  listed m hm := List.mem_append_left _ (h.listed m hm)
  origins l hl := ⟨List.mem_append_left _ (h.origins l hl).1, (h.origins l hl).2⟩
  scans := h.scans
  distinct := h.distinct
  due := by
    have hlisted : ∀ r ∈ s.cp.fallback, r.ordinal ≠ s.cp.nextOrdinal := fun r hr =>
      Nat.ne_of_lt (h.ordinal_lt (h.listed r hr))
    exact Due.publish _ _ List.getLast?_concat hlisted fun r hr => hlisted r (h.scanned_listed hr)

/-- The books are kept by what leaves members, registry and scans alone. -/
theorem skip (h : s.Tidy log) {index : Index (Member σ δ)} (hindex : index.Holds log)
    (known : Option (List (Member σ δ))) {rest : List (Action σ δ)}
    (hdue : Due s.members s.cp.fallback s.cp.scanning rest) :
    Tidy { s with cp := { s.cp with index := index, known := known }, todo := rest } log :=
  ⟨hindex, h.ordinals, h.ordered, h.listed, h.origins, h.scans, h.distinct, hdue⟩

theorem act (h : s.Tidy log) {a : Action σ δ} {rest : List (Action σ δ)}
    (htodo : s.todo = a :: rest) :
    Tidy { s with cp := (s.cp.apply a).value, todo := rest } (log ++ a.located) := by
  have hdue := h.due
  rw [htodo] at hdue
  cases a with
  | report event =>
    rw [Action.located, List.append_nil]
    exact h.skip h.index s.cp.known (hdue.tail fun _ => by simp)
  | reserve count =>
    rw [Action.located, List.append_nil]
    exact h.skip (h.index.reserve count) s.cp.known (hdue.tail fun _ => by simp)
  | remember entry =>
    rw [Action.located, List.append_nil]
    exact h.skip h.index _ (hdue.tail fun _ => by simp)
  | put l =>
    obtain ⟨hlast, hkind⟩ := hdue.puts l List.mem_cons_self
    refine ⟨h.index.put l, h.ordinals, h.ordered, h.listed, fun l' hl' => ?_, fun scan hscan => ?_,
      h.distinct, hdue.tail fun _ => by simp⟩
    · rcases List.mem_append.1 hl' with hold | hnew
      · exact h.origins l' hold
      · obtain rfl : l' = l := List.mem_singleton.1 hnew
        exact ⟨List.mem_of_getLast? hlast, by rw [hkind]; rfl⟩
    · obtain ⟨hin, harchive, hunder⟩ := h.scans scan hscan
      exact ⟨hin, harchive, hunder.mono fun _ => List.mem_append_left _⟩
  | fallBack m =>
    obtain ⟨hlast, hfree⟩ := hdue.fallBacks m List.mem_cons_self
    rw [Action.located, List.append_nil]
    refine ⟨h.index, h.ordinals, Registry.pairwise_insert h.ordered hfree, fun r hr => ?_,
      h.origins, fun scan hscan => ?_, h.distinct, hdue.fallBack⟩
    · rcases Registry.mem_insert.1 hr with rfl | hr
      · exact List.mem_of_getLast? hlast
      · exact h.listed r hr
    · obtain ⟨hin, harchive, hunder⟩ := h.scans scan hscan
      exact ⟨Registry.mem_insert.2 (.inr hin), harchive, hunder⟩
  | scan m =>
    have hperm : (s.cp.pool.submit (.new m)).tasks.Perm (.new m :: s.cp.pool.tasks) :=
      Pool.tasks_submit _ _
    obtain ⟨hkind, -, hfree⟩ := hdue.scans m List.mem_cons_self
    obtain ⟨hin, hrest⟩ := hdue.scan ((s.cp.pool.submit (.new m)).tasks.map Scan.entry)
    rw [Action.located, List.append_nil]
    refine ⟨h.index, h.ordinals, h.ordered, h.listed, h.origins, fun scan hscan => ?_, ?_, hrest⟩
    · rcases List.mem_cons.1 (hperm.mem_iff.1 hscan) with rfl | hold
      · exact ⟨hin, hkind, .new m⟩
      · exact h.scans scan hold
    · have hmap := (hperm.map Scan.entry).map RootEntry.ordinal
      refine hmap.nodup_iff.2 (List.nodup_cons.2 ⟨fun hm => ?_, h.distinct⟩)
      obtain ⟨r, hr, heq⟩ := List.mem_map.1 hm
      exact hfree r hr heq

theorem ended (h : s.Tidy log) {scan : Scan σ δ} {others : List (Scan σ δ)}
    {pool : Pool (Scan σ δ)} (hbefore : s.cp.pool.tasks.Perm (scan :: others))
    (hafter : pool.tasks.Perm others) {fallback : Registry (Root σ) δ}
    (hfallback : fallback = s.cp.fallback ∨ fallback = s.cp.fallback.remove scan.entry.ordinal) :
    Tidy { s with cp := { s.cp with fallback := fallback, pool := pool } } log := by
  have hin : ∀ other ∈ pool.tasks, other ∈ s.cp.pool.tasks := fun other hother =>
    hbefore.mem_iff.2 (List.mem_cons_of_mem _ (hafter.mem_iff.1 hother))
  have hmap := (hbefore.map Scan.entry).map RootEntry.ordinal
  have hdistinct := List.nodup_cons.1 (hmap.nodup_iff.1 h.distinct)
  have hleave : ∀ r ∈ fallback, r ∈ s.cp.fallback := by
    rcases hfallback with rfl | rfl
    · exact fun r hr => hr
    · exact fun r hr => (Registry.mem_remove.1 hr).1
  have hstay : ∀ r ∈ s.cp.fallback, r.ordinal ≠ scan.entry.ordinal → r ∈ fallback := by
    rcases hfallback with rfl | rfl
    · exact fun r hr _ => hr
    · exact fun r hr hne => Registry.mem_remove.2 ⟨hr, hne⟩
  refine ⟨h.index, h.ordinals, ?_, fun m hm => h.listed m (hleave m hm), h.origins,
    fun other hother => ?_, ?_, h.due.leave hleave (fun r hr hfree => hstay r hr ?_) fun r hr => ?_⟩
  · rcases hfallback with rfl | rfl
    · exact h.ordered
    · exact Registry.pairwise_remove h.ordered _
  · obtain ⟨hold, harchive, hunder⟩ := h.scans other (hin other hother)
    refine ⟨hstay _ hold fun heq => hdistinct.1 ?_, harchive, hunder⟩
    rw [← heq]
    exact List.mem_map_of_mem (List.mem_map_of_mem (hafter.mem_iff.1 hother))
  · exact ((hafter.map Scan.entry).map RootEntry.ordinal).nodup_iff.2 hdistinct.2
  · exact (hfree _ (List.mem_map_of_mem (hbefore.mem_iff.2 List.mem_cons_self))).symm
  · obtain ⟨other, hother, rfl⟩ := List.mem_map.1 hr
    exact List.mem_map_of_mem (hin other hother)

theorem moved (h : s.Tidy log) {new : List (Found σ δ)} {cp : ClassPath σ δ}
    (hmoved : s.cp.Moved new cp) : Tidy { s with cp := cp } (log ++ new) := by
  cases hmoved with
  | idle htasks =>
    rw [List.append_nil]
    have hmap := htasks.map Scan.entry
    refine ⟨h.index, h.ordinals, h.ordered, h.listed, h.origins,
      fun scan hscan => h.scans scan (htasks.mem_iff.1 hscan),
      (hmap.map RootEntry.ordinal).nodup_iff.2 h.distinct,
      h.due.leave (fun _ hr => hr) (fun _ hr _ => hr) fun _ => hmap.mem_iff.1⟩
  | @advance scan others e rest pool hbefore hrest hproceed hafter =>
    have hmap : (pool.tasks.map Scan.entry).Perm s.cp.scanning :=
      (hafter.map Scan.entry).trans (hbefore.map Scan.entry).symm
    have hscan := h.scans scan (hbefore.mem_iff.2 List.mem_cons_self)
    refine ⟨h.index.indexing scan e, h.ordinals, h.ordered, h.listed, fun l hl => ?_,
      fun other hother => ?_, (hmap.map RootEntry.ordinal).nodup_iff.2 h.distinct,
      h.due.leave (fun _ hr => hr) (fun _ hr _ => hr) fun _ => hmap.mem_iff.1⟩
    · rcases List.mem_append.1 hl with hold | hnew
      · exact h.origins l hold
      · obtain ⟨path, -, rfl⟩ := List.mem_map.1 hnew
        exact ⟨h.listed _ hscan.1, by rw [hscan.2.1]; rfl⟩
    · rcases List.mem_cons.1 (hafter.mem_iff.1 hother) with rfl | hold
      · exact ⟨hscan.1, hscan.2.1, hscan.2.2.onward hrest hproceed⟩
      · obtain ⟨hin, harchive, hunder⟩ :=
          h.scans other (hbefore.mem_iff.2 (List.mem_cons_of_mem _ hold))
        exact ⟨hin, harchive, hunder.mono fun _ => List.mem_append_left _⟩
  | abandon hbefore hafter =>
    rw [List.append_nil]
    exact h.ended hbefore hafter (.inl rfl)
  | complete hbefore hafter hthrough =>
    rw [List.append_nil]
    exact h.ended hbefore hafter (.inr rfl)

theorem congr (h : s.Tidy log) {s' : Session σ δ} (hcp : s'.cp = s.cp)
    (hmembers : s'.members = s.members) (htodo : s'.todo = s.todo) : s'.Tidy log := by
  obtain ⟨world, cp, added, members, todo, coming, data⟩ := s'
  obtain rfl : cp = s.cp := hcp
  obtain rfl : members = s.members := hmembers
  obtain rfl : todo = s.todo := htodo
  exact ⟨h.index, h.ordinals, h.ordered, h.listed, h.origins, h.scans, h.distinct, h.due⟩

theorem step {c : Contract σ} {s' : Session σ δ} (h : s.Tidy log) (hstep : Step c s s') :
    ∃ log', s'.Tidy log' := by
  cases hstep.effect with
  | queue added coming data => exact ⟨log, h.congr rfl rfl rfl⟩
  | enroll rest htodo hadmits => exact ⟨log, h.enroll _ _⟩
  | act htodo => exact ⟨_, h.act htodo⟩
  | move hmoved => exact ⟨_, h.moved hmoved⟩
  | look halike => exact ⟨log, h.alike halike⟩
  | change w hkeeps => exact ⟨log, h.congr rfl rfl rfl⟩

end Tidy

theorem Reachable.tidy {c : Contract σ} {config : Config} {s : Session σ δ}
    (h : Reachable c config s) : ∃ log, s.Tidy log :=
  h.invariant (P := fun s => ∃ log, s.Tidy log) (fun w => ⟨[], .start config w⟩)
    fun ⟨_, htidy⟩ hstep => htidy.step hstep

theorem Tidy.members_eq {s : Session σ δ} {log : List (Located (Member σ δ))} (h : s.Tidy log) :
    s.members = ((s.members.map fun m => (m.root, m.data)).zipIdx.map
      fun ((root, data), ordinal) => ⟨ordinal, root, data⟩) := by
  refine List.ext_getElem (by simp) fun i hi _ => ?_
  have hordinal : s.members[i].ordinal = i := by
    have hget := List.getElem_of_eq h.ordinals (i := i) (by simpa using hi)
    simpa using hget
  have heta := congrArg (fun n => RootEntry.mk n s.members[i].root s.members[i].data) hordinal
  simp only [List.getElem_map, List.getElem_zipIdx, Nat.zero_add]
  exact heta

/-- The members that the roots make are those that are there and those still to come. -/
theorem Reachable.registered_eq {c : Contract σ} {config : Config} {s : Session σ δ}
    (h : Reachable c config s) : registered s.added = s.members ++
      (((RootTree.leavesOf s.coming).map fun root => (root, s.data)).zipIdx s.members.length).map
        fun ((root, data), ordinal) => ⟨ordinal, root, data⟩ := by
  obtain ⟨log, htidy⟩ := h.tidy
  rw [registered, h.constituents_eq, List.zipIdx_append, List.map_append, ← htidy.members_eq,
    List.length_map, Nat.zero_add]

/-- The members are those that the roots make, as far as they have had their turn. -/
theorem Reachable.members_registered {c : Contract σ} {config : Config} {s : Session σ δ}
    (h : Reachable c config s) :
    s.members <+: registered s.added ∧ (s.coming = [] → s.members = registered s.added) := by
  refine ⟨⟨_, h.registered_eq.symm⟩, fun hcoming => ?_⟩
  rw [h.registered_eq, hcoming]
  simp [RootTree.leavesOf]

end Session

end Overlay
