import Overlay.Proofs.ClassPath.Answers

/-!
# The two lookups agree

Whatever the roots are like, the one lookup is the first answer of the other, and the other has at
most one answer for each member, in their order: `find_heads_findAll`. Roots may contradict
themselves, but the locations of an index entry are all of one path, and the ordinal of a location
tells its member. So an ordinal has a single location to offer, however often that was put.
-/

namespace Overlay

variable {σ δ : Type}

def Contract.free : Contract σ := ⟨fun _ _ => True, fun _ _ _ => True⟩

namespace Session

variable {config : Config} {s : Session σ δ}

theorem Tidy.onePerOrdinal {log : List (Found σ δ)} (h : s.Tidy log) {key : String}
    {entry : Option (Entry (Member σ δ))} (hans : Answers log key entry) :
    OnePerOrdinal (locationsOf entry) := by
  cases entry with
  | none => exact nofun
  | some e =>
    intro a ha b hb hordinal
    obtain ⟨haLog, haPath⟩ := hans.mem_locations.1 ha
    obtain ⟨hbLog, hbPath⟩ := hans.mem_locations.1 hb
    have horigin : a.origin = b.origin :=
      RootEntry.eq_of_ordinal_eq h.ordered_members (h.origins a haLog).1 (h.origins b hbLog).1
        hordinal
    obtain ⟨path, origin⟩ := a
    obtain rfl : origin = b.origin := horigin
    obtain rfl : path = b.path := haPath.trans hbPath.symm
    rfl

/-- Both lookups come to an answer, which is that of merging an index entry. -/
theorem Tidy.lookups {log : List (Found σ δ)} (h : s.Tidy log) (w : σ) (key : String) :
    ∃ entry, Answers log key entry ∧ OnePerOrdinal (locationsOf entry) ∧
      (s.cp.find w key).answer = .ok (choose w key s.cp.fallback (entry.map Entry.winner)) ∧
      (s.cp.findAll w key).answer = .ok (collect w key s.cp.fallback entry) := by
  obtain ⟨entry, hfind, hans⟩ := h.index.find key
  exact ⟨entry, hans, h.onePerOrdinal hans, ClassPath.find_answer hfind,
    ClassPath.findAll_answer hfind⟩

/-- What a lookup merges comes from members. -/
theorem Tidy.origin_mem {log : List (Found σ δ)} (h : s.Tidy log) {w : σ} {key : String}
    {entry : Option (Entry (Member σ δ))} (hans : Answers log key entry) {l : Found σ δ}
    (hl : l ∈ collect w key s.cp.fallback entry) : l.origin ∈ s.members := by
  rcases (mem_collect h.ordered (h.onePerOrdinal hans)).1 hl with hloc | ⟨m, hm, hask, -⟩
  · exact (h.origins l (hans.mem_log hloc).1).1
  · rw [(ask_eq_some.1 hask).2]
    exact h.listed m hm

/-- The one lookup is the first answer of the other, which has an answer for each of its members
once and in order. -/
theorem find_heads_findAll (h : Reachable .free config s) (key : String) :
    ∃ found all, (s.cp.find s.world key).answer = .ok found ∧
      (s.cp.findAll s.world key).answer = .ok all ∧ all.Pairwise Located.Before ∧
      found = all.head? ∧ (found = none ↔ all = []) := by
  obtain ⟨log, htidy⟩ := h.tidy
  obtain ⟨entry, -, hone, hfind, hfindAll⟩ := htidy.lookups s.world key
  refine ⟨_, _, hfind, hfindAll, pairwise_collect, choose_eq_head? htidy.ordered hone, ?_⟩
  rw [choose_eq_head? htidy.ordered hone, List.head?_eq_none_iff]

section Deceptive

/-- Roots that contradict themselves. The first archive resolves `/x` to another path, its walk names
`/x` twice and breaks off; the walk of the second one presents the root directory again, before it
comes to the last path; the tree in memory lists a path twice that it does not resolve. -/
def deceptive : RootTree Unit :=
  .joined "app" [
    .leaf (RootTables.toRoot {
      name := "a.zip"
      kind := .archive
      targets := [("/x", .ofNames ["y"])]
      walk := ⟨[.enter none, .file "x", .file "x"], .crashed⟩ }),
    .leaf (RootTables.toRoot {
      name := "b.zip"
      kind := .archive
      targets := [("/x", .ofNames ["x"]), ("/z", .ofNames ["z"])]
      walk := ⟨[.enter none, .file "x", .enter none, .file "z"], .done⟩ }),
    .leaf (RootTables.toRoot {
      name := "m"
      kind := .memory false
      listing := [.ofNames ["x"], .ofNames ["x"]] })]

def addedDeceptive (config : Config) : ClassPath Unit String :=
  ((ClassPath.new config).add () (some "data") deceptive).value

/-- The archive that lies is asked while the others are in the index, the later one first. -/
theorem find_heads_findAll_deceptive :
    ∃ (s : Session Unit String) (l : Found Unit String) (others : List (Found Unit String)),
      Reachable .free {} s ∧ s.cp.fallback.map RootEntry.ordinal = [0, 1] ∧
      (s.cp.find () "/x").answer = .ok (some l) ∧
      (s.cp.findAll () "/x").answer = .ok (l :: others) ∧
      l.origin.ordinal = 0 ∧ l.path.render = "/y" := by
  let halfway : List Pool.Move := [.take 0, .take 1, .work 1, .work 1]
  have hmoves : ((addedDeceptive {}).moves halfway).map (fun cp =>
      (cp.fallback.map RootEntry.ordinal, (cp.find () "/x").answer.toOption.map fun found =>
        found.map fun l => (l.origin.ordinal, l.path.render))) =
      some ([0, 1], some (some (0, "/y"))) := by decide +kernel
  obtain ⟨cp, hcp, hseen⟩ := Option.map_eq_some_iff.1 hmoves
  obtain ⟨hfallback, hanswer⟩ := Prod.mk.inj hseen
  obtain ⟨members, hreach⟩ := reachable_of_add .free {} () deceptive (some "data")
    (fun _ _ => trivial) (.of_moves hcp)
  obtain ⟨first, hfirst, hwinner⟩ := exists_answer hanswer
  obtain ⟨l, rfl, hl⟩ := Option.map_eq_some_iff.1 hwinner
  obtain ⟨found, all, hfind, hfindAll, -, hhead, -⟩ := find_heads_findAll hreach "/x"
  obtain rfl : found = some l := Except.ok.inj (hfind.symm.trans hfirst)
  obtain ⟨others, rfl⟩ : ∃ others, all = l :: others := by
    cases all with
    | nil => cases hhead
    | cons x rest => exact ⟨rest, congrArg (· :: rest) (Option.some.inj hhead).symm⟩
  obtain ⟨hordinal, hpath⟩ := Prod.mk.inj hl
  exact ⟨_, l, others, hreach, hfallback, hfirst, hfindAll, hordinal, hpath⟩

end Deceptive

end Session

end Overlay
