import Mathlib.Algebra.GroupWithZero.Nat
import Overlay.Proofs.ClassPath.Accounts
import Overlay.Proofs.ClassPath.Agreement
import Overlay.Proofs.ClassPath.Replay

/-!
# The books of registration

A run can be done deed by deed, and a `Chronicle` notes on the way what the session itself does not
show: what each member listed when it was enrolled, and which scans have ended how. With it one can
say which members the fallback registry has at any time and how much is in the index, whatever the
roots are like: `books_of_run`. The step that carries it is `Booked.perform`. It speaks of the
members that are asked or are about to be, since a member is enrolled some time before it is in the
registry, and of what is in the index or about to be put.
-/

namespace Overlay

variable {σ δ : Type}

structure Chronicle (σ δ : Type) where
  /-- The members, each with what it listed when it was enrolled. -/
  listings : List (Member σ δ × List EntryPath) := []
  /-- The scans that are over, each as it was when it ended. -/
  ended : List (Scan σ δ × Ending) := []

def Scan.count (scan : Scan σ δ) : Nat := scan.indexer.folders + scan.indexer.files

namespace Chronicle

/-- Lookups have to ask the member: there was nothing to index, or its scan has not ended well. -/
def Asks (past : Chronicle σ δ) (m : Member σ δ) : Prop :=
  match m.root.kind with
  | .memory true | .external => True
  | .memory false => (m, []) ∈ past.listings
  | .archive => ∀ scan, (scan, .done) ∈ past.ended → scan.entry ≠ m

def listed (past : Chronicle σ δ) : Nat :=
  (past.listings.map fun (m, paths) =>
    if m.root.kind = .memory false then paths.length else 0).sum

variable {past : Chronicle σ δ} {m : Member σ δ}

theorem asks_ended {scan : Scan σ δ} {ending : Ending} :
    Asks { past with ended := past.ended ++ [(scan, ending)] } m ↔
      past.Asks m ∧ (m.root.kind = .archive → ending = .done → scan.entry ≠ m) := by
  unfold Asks
  cases hkind : m.root.kind with
  | memory writable => cases writable <;> simp
  | external => simp
  | archive =>
    simp only [List.mem_append, List.mem_singleton, Prod.mk.injEq, true_implies]
    constructor
    · intro h
      exact ⟨fun scan' hscan' => h scan' (.inl hscan'),
        fun hdone => h scan (.inr ⟨rfl, hdone.symm⟩)⟩
    · rintro ⟨hold, hnew⟩ scan' (hscan' | ⟨rfl, hdone⟩)
      · exact hold scan' hscan'
      · exact hnew hdone.symm

theorem asks_listings {entry : Member σ δ} {paths : List EntryPath} :
    Asks { past with listings := past.listings ++ [(entry, paths)] } m ↔
      past.Asks m ∨ m.root.kind = .memory false ∧ m = entry ∧ paths = [] := by
  unfold Asks
  cases hkind : m.root.kind with
  | memory writable =>
    cases writable with
    | true => simp
    | false => simp [eq_comm]
  | external => simp
  | archive => simp

end Chronicle

namespace ClassPath

def ending? (cp : ClassPath σ δ) : Pool.Move → Option (Scan σ δ × Ending)
  | .work i => match cp.pool.workers[i]? with
    | some (some scan) => match (cp.deliver scan).value.2 with
      | .over ending => some (scan, ending)
      | .going _ => none
    | _ => none
  | .take _ | .exit _ => none

inductive Ends (cp : ClassPath σ δ) : Option (Scan σ δ × Ending) → ClassPath σ δ → Prop where
  | idle {pool : Pool (Scan σ δ)} (htasks : pool.tasks.Perm cp.pool.tasks) :
      Ends cp none { cp with pool := pool }
  | advance {scan : Scan σ δ} {others : List (Scan σ δ)} {e : WalkEvent} {rest : List WalkEvent}
      {pool : Pool (Scan σ δ)} (hbefore : cp.pool.tasks.Perm (scan :: others))
      (hafter : pool.tasks.Perm (scan.onward e rest :: others)) :
      Ends cp none { cp with index := scan.indexing e cp.index, pool := pool }
  | finish {scan : Scan σ δ} {others : List (Scan σ δ)} {pool : Pool (Scan σ δ)} {ending : Ending}
      (hbefore : cp.pool.tasks.Perm (scan :: others)) (hafter : pool.tasks.Perm others) :
      Ends cp (some (scan, ending)) { (cp.conclude scan ending).value with pool := pool }

theorem ends_of_move? {cp : ClassPath σ δ} {m : Pool.Move} {next : Logged (ClassPath σ δ)}
    (h : cp.move? m = some next) : cp.Ends (cp.ending? m) next.value := by
  rcases move?_cases h with ⟨pool, hidle, htasks, hvalue⟩ | ⟨i, scan, rfl, hw, rfl⟩
  · have hending : cp.ending? m = none := by
      cases m with
      | work i => exact absurd rfl (hidle i)
      | take _ | exit _ => rfl
    rw [hending, hvalue]
    exact .idle htasks
  · simp only [ending?, hw]
    rcases cp.deliver_cases scan with ⟨ending, hover, -⟩ | ⟨e, rest, -, -, hgoing⟩
    · obtain ⟨pool, hfinish⟩ : ∃ pool, cp.pool.finish? i = some (scan, pool) := by
        simp [Pool.finish?, hw]
      rw [work_over hfinish hover, hover]
      exact .finish (Pool.tasks_finish hfinish) (.refl _)
    · obtain ⟨others, hbefore, hafter⟩ := Pool.tasks_progress (scan.onward e rest) hw
      rw [work_going hgoing, hgoing]
      exact .advance hbefore hafter

theorem located_publish (w : σ) (config : Config) (entry : Member σ δ) :
    ((publish w config entry ++ [Action.remember entry]).flatMap Action.located).length =
      if entry.root.kind = .memory false then (entry.root.listing w).length else 0 := by
  have h := published w config entry
  generalize publish w config entry = actions at h ⊢
  cases h with
  | listed hkind hlist => simp [hkind, Action.located, List.flatMap_map]
  | scanned hkind => simp [hkind, Action.located]
  | asked hkind hlist reports =>
    have hnone : entry.root.kind = .memory false → 0 = (entry.root.listing w).length :=
      fun hmemory => by rw [hlist hmemory, List.length_nil]
    simpa [Action.located, List.flatMap_map] using hnone

end ClassPath

namespace Session

def note (s : Session σ δ) (past : Chronicle σ δ) : Deed σ δ → Chronicle σ δ
  | .enroll => match s.coming with
    | .leaf root :: _ =>
      let listing := ((s.cp.enroll root s.data).1, root.listing s.world)
      { past with listings := past.listings ++ [listing] }
    | _ => past
  | .scan m => { past with ended := past.ended ++ (s.cp.ending? m).toList }
  | .add .. | .unpack | .act | .find _ | .findAll _ | .change _ => past

def run? (s : Session σ δ) (past : Chronicle σ δ) :
    List (Deed σ δ) → Option (Session σ δ × Chronicle σ δ)
  | [] => some (s, past)
  | d :: rest => (s.perform? d).bind fun next => next.run? (s.note past d) rest

structure Booked (s : Session σ δ) (past : Chronicle σ δ) : Prop where
  listings : past.listings.map Prod.fst = s.members
  asked : ∀ m ∈ s.members, s.Asked m ↔ past.Asks m
  ended : ∀ scan ending, (scan, ending) ∈ past.ended → scan.entry ∈ s.members
  indexed : s.cp.indexed + (s.todo.flatMap Action.located).length =
    past.listed + ((past.ended.map Prod.fst ++ s.cp.pool.tasks).map Scan.count).sum

namespace Booked

variable {s s' : Session σ δ} {past : Chronicle σ δ} {log : List (Found σ δ)}

theorem start (config : Config) (w : σ) : Booked (δ := δ) (start config w) {} where
  listings := rfl
  asked m hm := by cases hm
  ended scan ending h := by cases h
  indexed := by
    have hsize : (Session.start (δ := δ) config w).cp.index.size = 0 :=
      (Tidy.start config w).index.size
    exact hsize

theorem alike (htidy : s.Tidy log) (h : s.Booked past) {cp : ClassPath σ δ}
    (halike : s.cp.Alike cp) : Booked { s with cp := cp } past := by
  have hsize : cp.indexed = s.cp.indexed :=
    (halike.index log htidy.index).size.trans htidy.index.size.symm
  have hindexed := h.indexed
  rw [← hsize] at hindexed
  rw [halike.same] at hindexed ⊢
  exact ⟨h.listings, h.asked, h.ended, hindexed⟩

theorem enroll (htidy : s.Tidy log) (h : s.Booked past) (htodo : s.todo = []) (root : Root σ)
    (rest : List (RootTree σ)) :
    (s.enroll root rest).Booked { past with
      listings := past.listings ++ [((s.cp.enroll root s.data).1, root.listing s.world)] } := by
  let entry : Member σ δ := ⟨s.cp.nextOrdinal, root, s.data⟩
  have hnew : entry ∉ s.members := fun hin => Nat.lt_irrefl _ (htidy.ordinal_lt hin)
  refine ⟨?_, fun m hm => ?_, fun scan ending hended => ?_, ?_⟩
  · rw [List.map_append, h.listings]
    rfl
  · rw [Chronicle.asks_listings]
    have hasked : (s.enroll root rest).Asked m ↔ m ∈ s.cp.fallback ∨
        m = entry ∧ (root.kind = .memory false → root.listing s.world = []) := by
      simp [Asked, Session.enroll, ClassPath.enroll, ClassPath.fallBack_mem_publish, entry]
    rw [hasked]
    rcases List.mem_append.1 hm with hold | hm
    · have hother : m ≠ entry := fun heq => hnew (heq ▸ hold)
      have hbefore := h.asked m hold
      rw [Asked, htodo] at hbefore
      simpa [hother, ClassPath.enroll, entry] using hbefore
    · obtain rfl : m = entry := List.mem_singleton.1 hm
      rw [or_iff_right fun hin => hnew (htidy.listed _ hin)]
      -- nothing was noted of it before, so it is its kind and its listing that count
      have hlistings : ∀ paths, (entry, paths) ∉ past.listings := fun paths hin =>
        hnew (h.listings ▸ List.mem_map_of_mem hin)
      have hended : ∀ scan, (scan, .done) ∈ past.ended → scan.entry ≠ entry :=
        fun scan hin heq => hnew (heq ▸ h.ended scan _ hin)
      have hkind : entry.root.kind = root.kind := rfl
      rw [Chronicle.Asks, hkind]
      cases root.kind with
      | memory writable => cases writable <;> simp [hlistings, ClassPath.enroll, entry]
      | archive => simpa using hended
      | external => simp
  · exact List.mem_append_left _ (h.ended scan ending hended)
  · have hindexed := h.indexed
    have hlocated := ClassPath.located_publish s.world s.cp.config entry
    have hroot : entry.root = root := rfl
    rw [htodo] at hindexed
    simp only [Chronicle.listed, List.map_append, List.sum_append] at hindexed ⊢
    simp only [List.flatMap_nil, List.length_nil, Nat.add_zero] at hindexed
    simp only [Session.enroll, ClassPath.enroll, List.map_cons, List.map_nil, List.sum_cons,
      List.sum_nil] at hlocated ⊢
    rw [hlocated, hroot]
    change s.cp.indexed + _ = _
    omega

theorem act (htidy : s.Tidy log) (h : s.Booked past) {a : Action σ δ} {rest : List (Action σ δ)}
    (htodo : s.todo = a :: rest) :
    Booked { s with cp := (s.cp.apply a).value, todo := rest } past := by
  refine ⟨h.listings, fun m hm => ?_, h.ended, ?_⟩
  · have hasked := h.asked m hm
    rw [Asked, htodo, ← ClassPath.fallBack_apply] at hasked
    exact hasked
  · have hsize : (s.cp.apply a).value.indexed = s.cp.indexed + a.located.length := by
      rw [ClassPath.indexed, ClassPath.indexed, (htidy.act htodo).index.size, htidy.index.size,
        List.length_append]
    have hcount : ((s.cp.apply a).value.pool.tasks.map Scan.count).sum =
        (s.cp.pool.tasks.map Scan.count).sum := by
      cases a with
      | scan m =>
        have hperm := (Pool.tasks_submit s.cp.pool (Scan.new m)).map Scan.count
        have hzero : (Scan.new m).count = 0 := rfl
        exact hperm.sum_nat.trans (by rw [List.map_cons, List.sum_cons, hzero, Nat.zero_add])
      | report _ | reserve _ | put _ | fallBack _ | remember _ => rfl
    have hindexed := h.indexed
    simp only [htodo, List.flatMap_cons, List.length_append, List.map_append,
      List.sum_append] at hindexed
    simp only [List.map_append, List.sum_append]
    omega

theorem ends (htidy : s.Tidy log) (h : s.Booked past) {last : Option (Scan σ δ × Ending)}
    {cp : ClassPath σ δ} (hends : s.cp.Ends last cp) :
    Booked { s with cp := cp } { past with ended := past.ended ++ last.toList } := by
  have hindexed := h.indexed
  simp only [List.map_append, List.sum_append] at hindexed
  cases hends with
  | idle htasks =>
    rw [Option.toList_none, List.append_nil]
    refine ⟨h.listings, h.asked, h.ended, ?_⟩
    have hcount := (htasks.map Scan.count).sum_nat
    simp only [List.map_append, List.sum_append]
    change s.cp.indexed + _ = past.listed + _
    omega
  | @advance scan others e rest pool hbefore hafter =>
    rw [Option.toList_none, List.append_nil]
    refine ⟨h.listings, h.asked, h.ended, ?_⟩
    have hbefore' := (hbefore.map Scan.count).sum_nat
    have hafter' := (hafter.map Scan.count).sum_nat
    have hscan : (scan.onward e rest).count = scan.count + (scan.located e).length := by
      rw [Scan.located, List.length_map]
      exact Indexer.count_step scan.entry.root.name scan.indexer e
    have hsize : (scan.indexing e s.cp.index).size = s.cp.indexed + (scan.located e).length := by
      rw [(htidy.index.indexing scan e).size, ClassPath.indexed, htidy.index.size,
        List.length_append]
    rw [List.map_cons, List.sum_cons] at hbefore' hafter'
    simp only [List.map_append, List.sum_append]
    change (scan.indexing e s.cp.index).size + _ = past.listed + _
    omega
  | @finish scan others pool ending hbefore hafter =>
    have hscanning : scan.entry ∈ s.cp.scanning :=
      List.mem_map_of_mem (hbefore.mem_iff.2 List.mem_cons_self)
    have hin := htidy.scanned_listed hscanning
    refine ⟨?_, fun m hm => ?_, fun scan' ending' hended => ?_, ?_⟩
    · exact h.listings
    · rw [Option.toList_some, Chronicle.asks_ended, ← h.asked m hm]
      obtain ⟨hfall, -⟩ := htidy.scanned_settled hscanning
      have hkind := (htidy.scans scan (hbefore.mem_iff.2 List.mem_cons_self)).2.1
      cases ending with
      | failed error => exact (and_iff_left nofun).symm
      | crashed => exact (and_iff_left nofun).symm
      | done =>
        change m ∈ s.cp.fallback.remove scan.entry.ordinal ∨ .fallBack m ∈ s.todo ↔ _
        rw [Registry.mem_remove]
        by_cases hself : m = scan.entry
        · rw [hself]
          simp [hfall, hkind]
        · have hordinal : m.ordinal ≠ scan.entry.ordinal := fun heq =>
            hself (RootEntry.eq_of_ordinal_eq htidy.ordered_members hm (htidy.listed _ hin) heq)
          rw [and_iff_left hordinal, and_iff_left fun _ _ => Ne.symm hself]
          rfl
    · rcases List.mem_append.1 hended with hold | hnew
      · exact h.ended scan' ending' hold
      · obtain ⟨rfl, rfl⟩ := Prod.mk.inj (List.mem_singleton.1 hnew)
        exact htidy.listed _ hin
    · have hcount : (s.cp.conclude scan ending).value.indexed = s.cp.indexed := by
        cases ending <;> rfl
      have hbefore' := (hbefore.map Scan.count).sum_nat
      have hafter' := (hafter.map Scan.count).sum_nat
      rw [List.map_cons, List.sum_cons] at hbefore'
      simp only [Option.toList_some, List.map_append, List.sum_append, List.map_cons, List.map_nil,
        List.sum_cons, List.sum_nil]
      change (s.cp.conclude scan ending).value.indexed + _ = past.listed + _
      omega

theorem perform (htidy : s.Tidy log) (h : s.Booked past) {d : Deed σ δ}
    (hperform : s.perform? d = some s') : s'.Booked (s.note past d) := by
  cases d with
  | add _ _ | unpack =>
    simp only [perform?] at hperform
    split at hperform
    next => exact Option.some.inj hperform ▸ ⟨h.listings, h.asked, h.ended, h.indexed⟩
    next => cases hperform
  | enroll =>
    simp only [perform?] at hperform
    split at hperform
    next root rest hcoming htodo =>
      obtain rfl := Option.some.inj hperform
      simp only [note, hcoming]
      exact h.enroll htidy htodo root rest
    next => cases hperform
  | act =>
    simp only [perform?] at hperform
    split at hperform
    next htodo => exact Option.some.inj hperform ▸ h.act htidy htodo
    next => cases hperform
  | scan m =>
    obtain ⟨next, hmove, rfl⟩ := Option.map_eq_some_iff.1 hperform
    exact h.ends htidy (ClassPath.ends_of_move? hmove)
  | find path => exact Option.some.inj hperform ▸ h.alike htidy (.findResource _ _ path)
  | findAll path => exact Option.some.inj hperform ▸ h.alike htidy (.allResources _ _ path)
  | change w =>
    exact Option.some.inj hperform ▸ ⟨h.listings, h.asked, h.ended, h.indexed⟩

end Booked

theorem permits_free (s : Session σ δ) (d : Deed σ δ) : s.Permits .free d := by
  cases d with
  | enroll => exact fun _ _ _ => trivial
  | change w => exact fun _ _ => ⟨trivial, trivial⟩
  | add _ _ | unpack | act | scan _ | find _ | findAll _ => trivial

section Run

variable {config : Config} {w : σ} {s s' : Session σ δ} {past past' : Chronicle σ δ}
  {deeds : List (Deed σ δ)}

theorem Steps.of_run (hrun : s.run? past deeds = some (s', past')) : Steps .free s s' := by
  induction deeds generalizing s past with
  | nil =>
    obtain ⟨rfl, -⟩ := Prod.mk.inj (Option.some.inj hrun)
    exact .refl
  | cons d rest ih =>
    obtain ⟨next, hperform, hrest⟩ := Option.bind_eq_some_iff.1 hrun
    exact .head (step_iff.2 ⟨d, s.permits_free d, hperform⟩) (ih hrest)

/-- Whatever a session came to under a contract, it came to by such a run. -/
theorem Performs.exists_run {c : Contract σ} (h : Performs c s deeds s')
    (past : Chronicle σ δ) : ∃ past', s.run? past deeds = some (s', past') := by
  induction h generalizing past with
  | nil s => exact ⟨past, rfl⟩
  | @cons s mid last d rest hpermits hperform hrest ih =>
    obtain ⟨past', hrun⟩ := ih (s.note past d)
    exact ⟨past', by rw [run?, hperform, Option.bind_some, hrun]⟩

theorem Booked.run (htidy : ∃ log, s.Tidy log) (h : s.Booked past)
    (hrun : s.run? past deeds = some (s', past')) : (∃ log, s'.Tidy log) ∧ s'.Booked past' := by
  induction deeds generalizing s past with
  | nil =>
    obtain ⟨rfl, rfl⟩ := Prod.mk.inj (Option.some.inj hrun)
    exact ⟨htidy, h⟩
  | cons d rest ih =>
    obtain ⟨next, hperform, hrest⟩ := Option.bind_eq_some_iff.1 hrun
    obtain ⟨log, htidy⟩ := htidy
    have hnext := htidy.step (step_iff.2 ⟨d, s.permits_free d, hperform⟩)
    exact ih hnext (h.perform htidy hperform) hrest

structure Books (s : Session σ δ) (past : Chronicle σ δ) : Prop where
  /-- The members are the leaves of what was added, in depth-first order and numbered from the
  first one on, as far as they have had their turn. -/
  members : s.members <+: registered s.added ∧ (s.coming = [] → s.members = registered s.added)
  ordinals : s.members.map RootEntry.ordinal = List.range s.members.length
  listings : past.listings.map Prod.fst = s.members
  ordered : s.cp.fallback.Pairwise RootEntry.Before
  /-- The member that is just being published may have yet to be entered. -/
  fallback : ∀ m, m ∈ s.cp.fallback ↔ m ∈ s.members ∧ past.Asks m ∧ .fallBack m ∉ s.todo
  origins : ∀ e ∈ s.cp.index.entries, ∀ l ∈ e.locations, l.origin ∈ s.members ∧
    (l.origin.root.kind = .memory false ∨ l.origin.root.kind = .archive)
  /-- What the roots in memory listed and what all scans have put by now, less what has yet to be
  put of the member that is just being published. -/
  indexed : s.cp.indexed + (s.todo.flatMap Action.located).length =
    past.listed + ((past.ended.map Prod.fst ++ s.cp.pool.tasks).map Scan.count).sum

/-- The books are kept through every run, over whatever roots. -/
theorem books_of_run (hrun : (start config w).run? {} deeds = some (s, past)) : s.Books past := by
  have hreach : Reachable .free config s := ⟨w, .of_run hrun⟩
  obtain ⟨⟨log, htidy⟩, hbooked⟩ := Booked.run ⟨[], .start config w⟩ (.start config w) hrun
  refine ⟨hreach.members_registered, ?_, hbooked.listings, htidy.ordered, fun m => ?_,
    fun e he l hl => ?_, hbooked.indexed⟩
  · have hlength := congrArg List.length htidy.ordinals
    rw [List.length_map, List.length_range] at hlength
    rw [htidy.ordinals, hlength]
  · constructor
    · intro hin
      have hm := htidy.listed m hin
      exact ⟨hm, (hbooked.asked m hm).1 (.inl hin), fun hdue =>
        (htidy.due.fallBacks m hdue).2 m hin rfl⟩
    · rintro ⟨hm, hasks, hdone⟩
      exact ((hbooked.asked m hm).2 hasks).resolve_right hdone
  · obtain ⟨hm, hkind⟩ := htidy.origins l (htidy.index.mem_of_mem_entries he hl)
    refine ⟨hm, ?_⟩
    cases hroot : l.origin.root.kind with
    | memory writable =>
      cases writable with
      | true => rw [hroot] at hkind; cases hkind
      | false => exact .inl rfl
    | archive => exact .inr rfl
    | external => rw [hroot] at hkind; cases hkind

section Assorted

def assorted : RootTree Unit :=
  .joined "all" [
    .leaf (RootTables.toRoot { name := "w", kind := .memory true, listing := [.ofNames ["x"]] }),
    .joined "none" [],
    .leaf (RootTables.toRoot { name := "d", kind := .external }),
    .joined "rest" [.leaf (RootTables.toRoot { name := "n", kind := .memory false }), deceptive]]

/-- Adds the roots of all kinds. The first archive is being scanned when the second one is added,
and both scans are over when the last root has put one of its paths. -/
def addAssorted : List (Deed Unit String) :=
  [.add assorted (some "data"), .unpack, .enroll, .act, .act, .act, .unpack, .enroll, .act, .act,
    .act, .unpack, .enroll, .act, .act, .act, .unpack, .enroll, .act, .act, .scan (.take 0),
    .scan (.work 0), .act, .enroll, .act, .act, .scan (.work 0), .scan (.work 0), .scan (.work 0),
    .scan (.take 0), .act, .scan (.work 0), .scan (.work 0), .enroll, .act, .scan (.work 0), .act]

/-- The archive whose walk breaks off stays in the registry, the one whose walk is stopped does not,
and one of the two paths of the tree in memory has yet to be put. -/
theorem books_of_run_assorted :
    ∃ (s : Session Unit String) (past : Chronicle Unit String),
      (start {} ()).run? {} addAssorted = some (s, past) ∧ s.Books past ∧
      s.cp.fallback.map RootEntry.ordinal = [0, 1, 2, 3] ∧
      past.ended.map (fun e => (e.1.entry.ordinal, e.2)) = [(3, .crashed), (4, .done)] ∧
      past.listed = 2 ∧ s.cp.indexed = 6 := by
  have hseen : ((start {} ()).run? {} addAssorted).map (fun run =>
      (run.1.cp.fallback.map RootEntry.ordinal,
        run.2.ended.map (fun e => (e.1.entry.ordinal, e.2)), run.2.listed,
        run.1.cp.indexed)) = some ([0, 1, 2, 3], [(3, .crashed), (4, .done)], 2, 6) := by
    decide +kernel
  obtain ⟨⟨s, past⟩, hrun, hbooks⟩ := Option.map_eq_some_iff.1 hseen
  simp only [Prod.mk.injEq] at hbooks
  exact ⟨s, past, hrun, books_of_run hrun, hbooks⟩

end Assorted

end Run

end Session

end Overlay
