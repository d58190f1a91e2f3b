import Overlay.Proofs.ClassPath.Honesty
import Overlay.Proofs.ClassPath.Merging

/-!
# What lookups answer

Over honest roots a lookup is worth asking every member in turn, whatever the index already knows
and whatever the registry still holds. While a member is being published its own answers may be
there or not yet, so the members that count are `Counted`.
-/

namespace Overlay

variable {σ δ : Type}

theorem exists_answer {α β ε : Type} {answer : Except ε α} {f : α → β} {b : β}
    (h : answer.toOption.map f = some b) : ∃ a, answer = .ok a ∧ f a = b := by
  cases answer with
  | error fault => cases h
  | ok a => exact ⟨a, rfl, Option.some.inj h⟩

theorem Answers.mem_log {log : List (Found σ δ)} {key : String}
    {entry : Option (Entry (Member σ δ))} (h : Answers log key entry) {l : Found σ δ}
    (hl : l ∈ locationsOf entry) : l ∈ log ∧ l.path.render = key := by
  cases entry with
  | none => cases hl
  | some e =>
    obtain ⟨hlog, hpath⟩ := h.mem_locations.1 hl
    exact ⟨hlog, by rw [hpath, h.renders e rfl]⟩

/-- Where one path at most renders as the key, what was put under it is found. -/
theorem Answers.mem_locationsOf {log : List (Found σ δ)} {key : String}
    {entry : Option (Entry (Member σ δ))} (h : Answers log key entry)
    (hplain : ∀ l ∈ log, l.path.Plain) {l : Found σ δ} :
    l ∈ locationsOf entry ↔ l ∈ log ∧ l.path.render = key := by
  cases entry with
  | none =>
    have hnone := h.none_iff.1 rfl
    simp only [locationsOf, Option.map_none, Option.getD_none, List.not_mem_nil, false_iff, not_and]
    exact fun hl => hnone l hl
  | some e =>
    rw [locationsOf, Option.map_some, Option.getD_some, h.locations_of_plain hplain,
      List.mem_filter, decide_eq_true_iff]

namespace ClassPath

variable {w : σ} {cp : ClassPath σ δ} {key : String} {entry : Option (Entry (Member σ δ))}

theorem find_answer (h : cp.index.find key = .ok entry) :
    (cp.find w key).answer = .ok (choose w key cp.fallback (entry.map Entry.winner)) := by
  rw [find, h]

theorem findAll_answer (h : cp.index.find key = .ok entry) :
    (cp.findAll w key).answer = .ok (collect w key cp.fallback entry) := by
  rw [findAll, h]

end ClassPath

namespace Session

section Lookup

variable {s : Session σ δ} {log : List (Found σ δ)} {key : String}
  {entry : Option (Entry (Member σ δ))}

theorem Faithful.mem_locationsOf (h : s.Faithful log) (hans : Answers log key entry)
    {l : Found σ δ} : l ∈ locationsOf entry ↔ l ∈ log ∧ l.path.render = key :=
  hans.mem_locationsOf fun l hl => (h.sound l (.inl hl)).1

theorem mem_allAnswers {w : σ} {members : List (Member σ δ)} {l : Found σ δ} :
    l ∈ allAnswers w key members ↔ ∃ m ∈ members, m.ask w key = some l :=
  List.mem_filterMap

theorem pairwise_allAnswers (w : σ) (key : String) {members : List (Member σ δ)}
    (h : members.Pairwise RootEntry.Before) :
    (allAnswers w key members).Pairwise Located.Before := by
  rw [allAnswers, List.pairwise_filterMap]
  refine h.imp fun hbefore l hl l' hl' => ?_
  rw [Located.Before, (ask_eq_some.1 hl).2, (ask_eq_some.1 hl').2]
  exact hbefore

/-- A lookup sees no more than the answers of the members. -/
theorem Faithful.mem_allAnswers_of_sighted (htidy : s.Tidy log) (h : s.Faithful log) (p : String)
    (hans : Answers log (normalize p) entry) {l : Found σ δ}
    (hl : Sighted s.world (normalize p) s.cp.fallback entry l) :
    l ∈ allAnswers s.world (normalize p) s.members := by
  rw [mem_allAnswers]
  rcases hl with hl | ⟨m, hm, hask⟩
  · obtain ⟨hlog, hrender⟩ := (h.mem_locationsOf hans).1 hl
    refine ⟨l.origin, (htidy.origins l hlog).1, ask_eq_some.2 ⟨?_, rfl⟩⟩
    exact (h.sound l (.inl hlog)).2 p hrender
  · exact ⟨m, htidy.listed m hm, hask⟩

/-- A lookup sees every answer, but that of the last member it may miss while there is something
left to be done for it. -/
theorem Faithful.sighted_of_ask (h : s.Faithful log) (p : String)
    (hans : Answers log (normalize p) entry) {l : Found σ δ} (hm : l.origin ∈ s.members)
    (hask : l.origin.ask s.world (normalize p) = some l)
    (hdone : s.todo = [] ∨ s.members.getLast? ≠ some l.origin) (htidy : s.Tidy log) :
    Sighted s.world (normalize p) s.cp.fallback entry l := by
  obtain ⟨hresolve, -⟩ := ask_eq_some.1 hask
  have hsettled : ∀ a ∈ s.todo, a ≠ .fallBack l.origin ∧ a ≠ .put l := by
    intro a ha
    rcases hdone with hnil | hlast
    · rw [hnil] at ha
      cases ha
    · constructor
      · rintro rfl
        exact hlast (htidy.due.fallBacks _ ha).1
      · rintro rfl
        exact hlast (htidy.due.puts _ ha).1
  rcases h.complete l.origin hm with hin | hfall | ⟨-, hall⟩
  · exact .inr ⟨l.origin, hin, hask⟩
  · exact absurd rfl (hsettled _ hfall).1
  · rcases hall p l.path hresolve with hlog | hput
    · exact .inl ((h.mem_locationsOf hans).2 ⟨hlog, ((h.honest _ hm).renders p _ hresolve).1⟩)
    · exact absurd rfl (hsettled _ hput).2

/-- The members that lookups count: those that the roots make, as far as they have had their turn.
The last one need not count yet while there is something left to be done for it. -/
structure Counted (s : Session σ δ) (ms : List (Member σ δ)) : Prop where
  registered : ms <+: registered s.added
  settled : s.coming = [] → s.todo = [] → ms = Session.registered s.added
  members : ms = s.members ∨ s.todo ≠ [] ∧ ms = s.members.dropLast

theorem Faithful.exists_answers (htidy : s.Tidy log) (h : s.Faithful log) (p : String)
    (hans : Answers log (normalize p) entry) :
    ∃ ms, (ms = s.members ∨ s.todo ≠ [] ∧ ms = s.members.dropLast) ∧
      ∀ l, l ∈ allAnswers s.world (normalize p) ms ↔
        Sighted s.world (normalize p) s.cp.fallback entry l := by
  by_cases hall : ∀ l ∈ allAnswers s.world (normalize p) s.members,
      Sighted s.world (normalize p) s.cp.fallback entry l
  · exact ⟨s.members, .inl rfl, fun l => ⟨hall l, h.mem_allAnswers_of_sighted htidy p hans⟩⟩
  · push Not at hall
    obtain ⟨x, hx, hmissed⟩ := hall
    obtain ⟨m, hm, hask⟩ := mem_allAnswers.1 hx
    obtain rfl : x.origin = m := (ask_eq_some.1 hask).2
    -- the one answer that can be missed is that of the member being published
    have hdue : s.todo ≠ [] ∧ s.members.getLast? = some x.origin := by
      by_contra hnot
      rw [not_and_or, not_not] at hnot
      exact hmissed (h.sighted_of_ask p hans hm hask hnot htidy)
    have hsplit := List.dropLast_append_getLast? x.origin hdue.2
    have hbefore := htidy.ordered_members
    rw [← hsplit, List.pairwise_append] at hbefore
    refine ⟨s.members.dropLast, .inr ⟨hdue.1, rfl⟩, fun l => ⟨fun hl => ?_, fun hl => ?_⟩⟩
    · obtain ⟨m, hm, hask⟩ := mem_allAnswers.1 hl
      obtain rfl : l.origin = m := (ask_eq_some.1 hask).2
      have hlt : l.origin.ordinal < x.origin.ordinal := hbefore.2.2 _ hm _ List.mem_cons_self
      refine h.sighted_of_ask p hans ((List.dropLast_sublist _).mem hm) hask (.inr fun heq => ?_)
        htidy
      rw [hdue.2, Option.some.injEq] at heq
      rw [heq] at hlt
      exact Nat.lt_irrefl _ hlt
    · obtain ⟨m, hm, hask'⟩ := mem_allAnswers.1 (h.mem_allAnswers_of_sighted htidy p hans hl)
      rw [← hsplit] at hm
      rcases List.mem_append.1 hm with hm | hm
      · exact mem_allAnswers.2 ⟨m, hm, hask'⟩
      · obtain rfl : m = x.origin := List.mem_singleton.1 hm
        obtain rfl := Option.some.inj (hask.symm.trans hask')
        exact absurd hl hmissed

end Lookup

section Overlapping

def overlapping : RootTree Unit :=
  .joined "app" [
    .leaf (RootTables.ofPaths "a.zip" .archive (Forest.nodes (some (.file "x" (.file "y" .nil))))
      ⟨[.enter none, .file "x"], .crashed⟩).toRoot,
    .joined "rest" [
      .leaf (RootTables.ofPaths "b.zip" .archive (Forest.nodes (some (.file "x" .nil)))
        ⟨Forest.traversal (some (.file "x" .nil)), .done⟩).toRoot,
      .leaf (RootTables.ofPaths "m" (.memory false)
        (Forest.nodes (some (.file "x" (.file "z" .nil))))).toRoot]]

def addedOverlapping : ClassPath Unit String :=
  ((ClassPath.new {}).add () (some "data") overlapping).value

theorem honest_overlapping : ∀ root ∈ overlapping.leaves, root.Honest () := by
  simp only [overlapping, RootTree.leaves, RootTree.leavesOf, List.append_nil,
    List.singleton_append, List.forall_mem_cons]
  refine ⟨?_, ?_, ?_, fun root hroot => absurd hroot List.not_mem_nil⟩
  · refine RootTables.honest_ofPaths () (by decide) ⟨[.file "y", .leave], rfl⟩ fun hend => ?_
    cases hend
  · exact RootTables.honest_ofPaths () (by decide) List.prefix_rfl fun _ => rfl
  · refine RootTables.honest_ofPaths () (by decide) List.nil_prefix fun hend => ?_
    cases hend

theorem reachable_added (config : Config) {cp : ClassPath Unit String}
    (hscans : ((ClassPath.new config).add () (some "data") overlapping).value.Scans cp) :
    ∃ members, Reachable .honest config (σ := Unit) (δ := String)
      { world := (), cp := cp, added := [(overlapping, some "data")], members := members,
        data := some "data" } :=
  reachable_of_add .honest config () overlapping (some "data") honest_overlapping hscans

theorem reachable_overlapping {cp : ClassPath Unit String} (hscans : addedOverlapping.Scans cp) :
    ∃ members, Reachable .honest {} (σ := Unit) (δ := String)
      { world := (), cp := cp, added := [(overlapping, some "data")], members := members,
        data := some "data" } :=
  reachable_added {} hscans

end Overlapping

section Reachable

variable {config : Config} {s : Session σ δ}

/-- Every lookup comes to an answer, and the answer is that of asking the members in turn. -/
theorem Reachable.lookups (h : Reachable .honest config s) (p : String) :
    ∃ ms, s.Counted ms ∧
      (s.cp.find s.world (normalize p)).answer =
        .ok (firstAnswer s.world (normalize p) ms) ∧
      (s.cp.findAll s.world (normalize p)).answer =
        .ok (allAnswers s.world (normalize p) ms) := by
  obtain ⟨log, htidy, hfaithful⟩ := h.faithful
  obtain ⟨entry, hfind, hans⟩ := htidy.index.find (normalize p)
  obtain ⟨ms, hms, hsee⟩ := hfaithful.exists_answers htidy p hans
  obtain ⟨hbegin, hwhole⟩ := h.members_registered
  have hsub : ms <+: s.members := by
    rcases hms with rfl | ⟨-, rfl⟩
    · exact List.prefix_rfl
    · exact List.dropLast_prefix _
  have hpair : (allAnswers s.world (normalize p) ms).Pairwise Located.Before :=
    pairwise_allAnswers _ _ (htidy.ordered_members.sublist hsub.sublist)
  obtain ⟨hcollect, hchoose⟩ := collect_eq htidy.ordered hpair hsee
  refine ⟨ms, ⟨hsub.trans hbegin, fun hcoming htodo => ?_, hms⟩, ?_, ?_⟩
  · rcases hms with rfl | ⟨hne, -⟩
    · exact hwhole hcoming
    · exact absurd htodo hne
  · rw [ClassPath.find_answer hfind, hchoose, allAnswers, List.head?_filterMap, firstAnswer]
  · rw [ClassPath.findAll_answer hfind, hcollect]

theorem Tidy.pairwise_counted {log : List (Found σ δ)} (h : s.Tidy log) {ms : List (Member σ δ)}
    (hms : s.Counted ms) : ms.Pairwise RootEntry.Before := by
  rcases hms.members with rfl | ⟨-, rfl⟩
  · exact h.ordered_members
  · exact h.ordered_members.sublist (List.dropLast_sublist _)

theorem Faithful.renders {log : List (Found σ δ)} (h : s.Faithful log) {ms : List (Member σ δ)}
    (hms : s.Counted ms) {m : Member σ δ} (hm : m ∈ ms) {p : String} {path : EntryPath}
    (hpath : m.root.resolve s.world (normalize p) = some path) : path.render = normalize p := by
  have hmember : m ∈ s.members := by
    rcases hms.members with rfl | ⟨-, rfl⟩
    · exact hm
    · exact (List.dropLast_sublist _).mem hm
  exact ((h.honest m hmember).renders p path hpath).1

/-- The member of the lowest ordinal that resolves a path is the one that has it. -/
theorem find_first_added (h : Reachable .honest config s) (p : String) :
    ∃ ms, s.Counted ms ∧ ∃ found, (s.cp.find s.world (normalize p)).answer = .ok found ∧
      (found = none ↔ ∀ m ∈ ms, m.root.resolve s.world (normalize p) = none) ∧
      ∀ l, found = some l → l.origin ∈ ms ∧
        l.origin.root.resolve s.world (normalize p) = some l.path ∧
        l.path.render = normalize p ∧
        ∀ m ∈ ms, m.root.resolve s.world (normalize p) ≠ none → l.origin.ordinal ≤ m.ordinal := by
  obtain ⟨log, htidy, hfaithful⟩ := h.faithful
  obtain ⟨ms, hms, hfind, -⟩ := h.lookups p
  refine ⟨ms, hms, _, hfind, ?_, fun l hl => ?_⟩
  · rw [firstAnswer, List.findSome?_eq_none_iff]
    simp only [RootEntry.ask, Option.map_eq_none_iff]
  · obtain ⟨hmem, hask, hmin⟩ := findSome?_ask (htidy.pairwise_counted hms) hl
    have hresolve := (ask_eq_some.1 hask).1
    refine ⟨hmem, hresolve, hfaithful.renders hms hmem hresolve, fun m hm hne => ?_⟩
    obtain ⟨path, hpath⟩ := Option.ne_none_iff_exists'.1 hne
    have hfirst := hmin m hm ⟨path, m⟩ (ask_eq_some.2 ⟨hpath, rfl⟩)
    exact Nat.le_of_not_lt hfirst

theorem find_first_added_overlapping :
    ∃ (s : Session Unit String) (l : Found Unit String), Reachable .honest {} s ∧
      s.cp.fallback.map RootEntry.ordinal = [0] ∧
      (s.cp.find () (normalize "x/")).answer = .ok (some l) ∧
      l.origin.ordinal = 0 ∧ l.origin.data = some "data" ∧ l.path.render = "/x" := by
  let through : List Pool.Move :=
    [.take 0, .work 0, .take 1, .work 1, .work 0, .work 0, .work 1, .work 1, .work 1]
  have hmoves : (addedOverlapping.moves through).isSome = true := rfl
  obtain ⟨cp, hcp⟩ := Option.isSome_iff_exists.1 hmoves
  have hfallback : (addedOverlapping.moves through).map
      (fun cp => cp.fallback.map RootEntry.ordinal) = some [0] := rfl
  rw [hcp, Option.map_some, Option.some.injEq] at hfallback
  obtain ⟨members, hreach⟩ := reachable_overlapping (.of_moves hcp)
  obtain ⟨ms, hms, found, hfind, hnone, hsome⟩ := find_first_added hreach "x/"
  obtain rfl : ms = registered [(overlapping, some "data")] := hms.settled rfl rfl
  have hdata : ∀ m ∈ registered [(overlapping, some "data")], m.data = some "data" := by decide
  obtain ⟨m, hm, hzero, hresolve⟩ : ∃ m ∈ registered [(overlapping, some "data")],
      m.ordinal = 0 ∧ m.root.resolve () (normalize "x/") ≠ none := by decide
  cases found with
  | none => exact absurd (hnone.1 rfl m hm) hresolve
  | some l =>
    obtain ⟨hmem, -, hrender, hmin⟩ := hsome l rfl
    have hfirst := hmin m hm hresolve
    rw [hzero, Nat.le_zero] at hfirst
    exact ⟨_, l, hreach, hfallback, hfind, hfirst, hdata _ hmem, hrender⟩

/-- Asking for all of them, every member that resolves a path has its turn once, in order. -/
theorem findAll_every_member (h : Reachable .honest config s) (p : String) :
    ∃ ms, s.Counted ms ∧ ∃ all, (s.cp.findAll s.world (normalize p)).answer = .ok all ∧
      all = ms.filterMap (fun m =>
        (m.root.resolve s.world (normalize p)).map fun path => ⟨path, m⟩) ∧
      all.Pairwise Located.Before ∧ ∀ l ∈ all, l.path.render = normalize p := by
  obtain ⟨log, htidy, hfaithful⟩ := h.faithful
  obtain ⟨ms, hms, -, hfindAll⟩ := h.lookups p
  refine ⟨ms, hms, _, hfindAll, rfl, pairwise_allAnswers _ _ (htidy.pairwise_counted hms),
    fun l hl => ?_⟩
  obtain ⟨m, hm, hask⟩ := mem_allAnswers.1 hl
  obtain ⟨hresolve, rfl⟩ := ask_eq_some.1 hask
  exact hfaithful.renders hms hm hresolve

theorem findAll_every_member_overlapping :
    ∃ (s : Session Unit String) (all : List (Found Unit String)), Reachable .honest {} s ∧
      s.cp.fallback.map RootEntry.ordinal = [0, 1] ∧
      (s.cp.findAll () (normalize "x/")).answer = .ok all ∧
      all.map (fun l => l.origin.ordinal) = [0, 1, 2] := by
  let halfway : List Pool.Move := [.take 0, .work 0, .take 1, .work 1, .work 0, .work 0, .work 1]
  have hmoves : (addedOverlapping.moves halfway).isSome = true := rfl
  obtain ⟨cp, hcp⟩ := Option.isSome_iff_exists.1 hmoves
  have hfallback : (addedOverlapping.moves halfway).map
      (fun cp => cp.fallback.map RootEntry.ordinal) = some [0, 1] := rfl
  rw [hcp, Option.map_some, Option.some.injEq] at hfallback
  obtain ⟨members, hreach⟩ := reachable_overlapping (.of_moves hcp)
  obtain ⟨ms, hms, all, hfind, hall, -⟩ := findAll_every_member hreach "x/"
  obtain rfl : ms = registered [(overlapping, some "data")] := hms.settled rfl rfl
  refine ⟨_, all, hreach, hfallback, hfind, ?_⟩
  rw [hall]
  rfl

end Reachable

end Session

end Overlay
