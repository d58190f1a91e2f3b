import Overlay.Proofs.ClassPath.Agreement
import Overlay.Proofs.Scan.Outcome

/-!
# What is found stays found

A lookup that finds something goes on to find something while the scans proceed. What is in the log
stays there, and a member stays in the registry until its scan is through. An archive whose walk
names all that it resolves has then put the path, unless its indexer was stopped before: a root
directory that is presented again ends a scan as if it were through. `find_outlasts_scans` leaves out
the archives that are cut short in this way; `find_lost_behind_repeat` is one that loses a path.
-/

namespace Overlay

variable {σ δ : Type}

namespace Root

def NamedByWalk (root : Root σ) (w : σ) : Prop :=
  ∀ p path, root.resolve w (normalize p) = some path →
    ∃ named ∈ Walk.named [] root.walk.events, named.render = normalize p

/-- Where an indexer is stopped by the root directory right inside the root directory, it has put
every path that the root resolves. -/
def NotCutShort (root : Root σ) (w : σ) : Prop :=
  ∀ before after puts ix, root.walk.events = before ++ .enter none :: after →
    Indexer.Follows root.name {} before puts ix → ix.stack.length = 1 →
    ∀ p path, root.resolve w (normalize p) = some path →
      ∃ named ∈ puts, named.render = normalize p

end Root

namespace RootTables

variable {name : String} {kind : RootKind} {paths : List EntryPath} {walk : Walk}

theorem namedByWalk_ofPaths (w : σ) (hplain : ∀ path ∈ paths, path.Plain)
    (hnamed : ∀ path ∈ paths, path ∈ Walk.named [] walk.events) :
    Root.NamedByWalk (RootTables.ofPaths name kind paths walk).toRoot w := by
  intro p path hpath
  obtain ⟨hmem, hrender⟩ := ((shows_ofPaths w hplain).resolves p path).1 hpath
  exact ⟨path, hnamed path hmem, hrender⟩

/-- Of a root of some paths it is enough to look at the walk. -/
theorem notCutShort_ofPaths (w : σ) (hplain : ∀ path ∈ paths, path.Plain)
    (hwalk : ∀ i < walk.events.length, walk.events[i]? = some (.enter none) →
      (Walk.opened [] (walk.events.take i)).length = 1 →
      ∀ path ∈ paths, path ∈ Walk.named [] (walk.events.take i)) :
    Root.NotCutShort (RootTables.ofPaths name kind paths walk).toRoot w := by
  intro before after puts ix hevents hfollows hone p path hpath
  obtain ⟨hmem, hrender⟩ := ((shows_ofPaths w hplain).resolves p path).1 hpath
  obtain ⟨rfl, hopened⟩ := hfollows.named
  have hsplit : walk.events = before ++ .enter none :: after := hevents
  refine ⟨path, ?_, hrender⟩
  have hbefore := hwalk before.length (by simp [hsplit]) (by simp [hsplit])
  rw [hsplit, List.take_left] at hbefore
  exact hbefore (hopened ▸ hone) path hmem

end RootTables

/-- An archive whose scan is through has put a path that it resolves. -/
theorem Scan.Underway.put_of_through {scan : Scan σ δ} {log : List (Found σ δ)} {w : σ}
    (h : scan.Underway log) (hnamed : scan.entry.root.NamedByWalk w)
    (hwhole : scan.entry.root.NotCutShort w)
    (hthrough : (scan.rest = [] ∧ scan.entry.root.walk.ending = .done) ∨
      ∃ e rest, scan.rest = e :: rest ∧ (scan.response e).answer = .ok .stop)
    {p : String} {path : EntryPath}
    (hpath : scan.entry.root.resolve w (normalize p) = some path) :
    ∃ l ∈ log, l.path.render = normalize p := by
  obtain ⟨before, puts, hevents, hfollows, hputs⟩ := h
  rcases hthrough with ⟨hrest, -⟩ | ⟨e, rest, hrest, hstop⟩
  · obtain ⟨named, hmem, hrender⟩ := hnamed p path hpath
    rw [hevents, hrest, List.append_nil] at hmem
    obtain ⟨rfl, -⟩ := hfollows.named
    exact ⟨_, hputs named hmem, hrender⟩
  · obtain ⟨rfl, hone⟩ := Indexer.answer_eq_stop_iff.1 hstop
    rw [hrest] at hevents
    obtain ⟨named, hmem, hrender⟩ := hwhole before rest puts _ hevents hfollows hone p path hpath
    exact ⟨_, hputs named hmem, hrender⟩

namespace Answers

variable {log : List (Found σ δ)} {key : String} {entry : Option (Entry (Member σ δ))}

theorem exists_mem_locationsOf (h : Answers log key entry) (hlog : ∃ l ∈ log, l.path.render = key) :
    ∃ l, l ∈ locationsOf entry := by
  cases entry with
  | none =>
    obtain ⟨l, hl, hrender⟩ := hlog
    exact absurd hrender (h.none_iff.1 rfl l hl)
  | some e => exact ⟨e.first, e.first_mem_locations⟩

end Answers

namespace Session

variable {config : Config} {s : Session σ δ} {log : List (Found σ δ)} {key : String}

def Offers (s : Session σ δ) (log : List (Found σ δ)) (key : String) (m : Member σ δ) : Prop :=
  (∃ l ∈ log, l.path.render = key) ∨
    m ∈ s.cp.fallback ∧ ∃ path, m.root.resolve s.world key = some path

theorem Tidy.offers_of_find (h : s.Tidy log) {l : Found σ δ}
    (hfind : (s.cp.find s.world key).answer = .ok (some l)) :
    l.origin ∈ s.members ∧ s.Offers log key l.origin := by
  obtain ⟨entry, hans, hone, hanswer, -⟩ := h.lookups s.world key
  rw [hanswer, Except.ok.injEq, choose_eq_head? h.ordered hone] at hfind
  rcases (mem_collect h.ordered hone).1 (List.mem_of_head? hfind) with hloc | ⟨m, hm, hask, -⟩
  · exact ⟨(h.origins l (hans.mem_log hloc).1).1, .inl ⟨l, hans.mem_log hloc⟩⟩
  · obtain ⟨hresolve, rfl⟩ := ask_eq_some.1 hask
    exact ⟨h.listed _ hm, .inr ⟨hm, _, hresolve⟩⟩

theorem Tidy.find_of_offers (h : s.Tidy log) {m : Member σ δ} (hoffers : s.Offers log key m) :
    ∃ l, (s.cp.find s.world key).answer = .ok (some l) := by
  obtain ⟨entry, hans, hone, hanswer, -⟩ := h.lookups s.world key
  have hsight : ∃ l, Sighted s.world key s.cp.fallback entry l := by
    rcases hoffers with hlog | ⟨hm, path, hpath⟩
    · obtain ⟨l, hl⟩ := hans.exists_mem_locationsOf hlog
      exact ⟨l, .inl hl⟩
    · exact ⟨⟨path, m⟩, .inr ⟨m, hm, ask_eq_some.2 ⟨hpath, rfl⟩⟩⟩
  have hne := (collect_ne_nil_iff h.ordered hone).2 hsight
  rw [hanswer, choose_eq_head? h.ordered hone]
  exact ⟨_, congrArg Except.ok (List.head?_eq_some_head hne)⟩

/-- A move of a worker leaves something to be found, if the member is no archive that is cut
short. -/
theorem Tidy.offers_moved (h : s.Tidy log) {new : List (Found σ δ)} {cp : ClassPath σ δ}
    (hmoved : s.cp.Moved new cp) {p : String} {m : Member σ δ}
    (hnamed : m.root.kind = .archive → m.root.NamedByWalk s.world)
    (hwhole : m.root.kind = .archive → m.root.NotCutShort s.world)
    (hoffers : s.Offers log (normalize p) m) :
    Offers { s with cp := cp } (log ++ new) (normalize p) m := by
  rcases hoffers with ⟨l, hl, hrender⟩ | ⟨hm, path, hpath⟩
  · exact .inl ⟨l, List.mem_append_left _ hl, hrender⟩
  · cases hmoved with
    | idle htasks => exact .inr ⟨hm, path, hpath⟩
    | advance hbefore hrest hproceed hafter => exact .inr ⟨hm, path, hpath⟩
    | abandon hbefore hafter => exact .inr ⟨hm, path, hpath⟩
    | @complete scan others pool hbefore hafter hthrough =>
      by_cases hleft : m.ordinal = scan.entry.ordinal
      · obtain ⟨hin, hkind, hunder⟩ := h.scans scan (hbefore.mem_iff.2 List.mem_cons_self)
        obtain rfl := RootEntry.eq_of_ordinal_eq h.ordered hm hin hleft
        rw [List.append_nil]
        exact .inl (hunder.put_of_through (hnamed hkind) (hwhole hkind) hthrough hpath)
      · exact .inr ⟨Registry.mem_remove.2 ⟨hm, hleft⟩, path, hpath⟩

theorem Tidy.offers_scans (h : s.Tidy log) {cp : ClassPath σ δ} (hscans : s.cp.Scans cp)
    {p : String} {m : Member σ δ} (hnamed : m.root.kind = .archive → m.root.NamedByWalk s.world)
    (hwhole : m.root.kind = .archive → m.root.NotCutShort s.world)
    (hoffers : s.Offers log (normalize p) m) :
    ∃ log', Tidy { s with cp := cp } log' ∧ Offers { s with cp := cp } log' (normalize p) m := by
  induction hscans with
  | refl => exact ⟨log, h, hoffers⟩
  | tail _ hlast ih =>
    obtain ⟨log', htidy', hoffers'⟩ := ih
    obtain ⟨move, next, hmove, rfl⟩ := hlast
    obtain ⟨new, hmoved⟩ := ClassPath.moved_of_move? hmove
    exact ⟨log' ++ new, htidy'.moved hmoved, htidy'.offers_moved hmoved hnamed hwhole hoffers'⟩

/-- What a lookup finds does not get lost while scans proceed, unless it is in an archive that is
cut short. -/
theorem find_outlasts_scans (h : Reachable .free config s) {cp : ClassPath σ δ}
    (hscans : s.cp.Scans cp) (p : String) {l : Found σ δ}
    (hfind : (s.cp.find s.world (normalize p)).answer = .ok (some l))
    (hnamed : l.origin.root.kind = .archive → l.origin.root.NamedByWalk s.world)
    (hwhole : l.origin.root.kind = .archive → l.origin.root.NotCutShort s.world) :
    ∃ l', (cp.find s.world (normalize p)).answer = .ok (some l') := by
  obtain ⟨log, htidy⟩ := h.tidy
  obtain ⟨-, hoffers⟩ := htidy.offers_of_find hfind
  obtain ⟨log', htidy', hoffers'⟩ := htidy.offers_scans hscans hnamed hwhole hoffers
  exact htidy'.find_of_offers hoffers'

section Repeating

/-- An archive of some files, whose walk presents the root directory again between two of them. -/
def repeating (early late : List String) : Root Unit :=
  (RootTables.ofPaths "jar" .archive (.root :: (early ++ late).map EntryPath.root.child)
    ⟨.enter none :: (early.map .file ++ .enter none :: (late.map .file ++ [.leave, .leave])),
      .done⟩).toRoot

def addedRepeating (early late : List String) : ClassPath Unit String :=
  ((ClassPath.new {}).add () none (.leaf (repeating early late))).value

theorem reachable_repeating {early late : List String} {cp : ClassPath Unit String}
    (hscans : (addedRepeating early late).Scans cp) :
    ∃ s, Reachable .free {} s ∧ s.cp = cp ∧ s.members = [⟨0, repeating early late, none⟩] := by
  obtain ⟨members, hreach⟩ := reachable_of_add .free {} () (.leaf (repeating early late)) none
    (fun _ _ => trivial) hscans
  exact ⟨_, hreach, rfl, hreach.members_registered.2 rfl⟩

def untilRepeat (early : List String) : List Pool.Move :=
  .take 0 :: List.replicate (early.length + 2) (.work 0)

/-- All that there is to be found was named before the root directory is presented again. -/
theorem find_outlasts_scans_repeating :
    ∃ (s : Session Unit String) (cp : ClassPath Unit String) (l l' : Found Unit String),
      Reachable .free {} s ∧ s.cp.Scans cp ∧ s.cp.fallback.map RootEntry.ordinal = [0] ∧
      cp.fallback.map RootEntry.ordinal = [] ∧
      (s.cp.find () (normalize "a/")).answer = .ok (some l) ∧
      (cp.find () (normalize "a/")).answer = .ok (some l') := by
  obtain ⟨s, hreach, hcp, hmembers⟩ := reachable_repeating (.refl (a := addedRepeating ["a"] []))
  have hfirst : ((addedRepeating ["a"] []).find () (normalize "a/")).answer.toOption.map
      Option.isSome = some true := by decide +kernel
  have hmoves : ((addedRepeating ["a"] []).moves (untilRepeat ["a"])).map
      (fun cp => cp.fallback.map RootEntry.ordinal) = some [] := rfl
  obtain ⟨cp, hscans, hfallback⟩ := Option.map_eq_some_iff.1 hmoves
  rw [← hcp] at hfirst hscans
  obtain ⟨found, hfind, hsome⟩ := exists_answer hfirst
  obtain ⟨l, rfl⟩ := Option.isSome_iff_exists.1 hsome
  obtain ⟨log, htidy⟩ := hreach.tidy
  obtain ⟨horigin, -⟩ := htidy.offers_of_find hfind
  rw [hmembers, List.mem_singleton] at horigin
  obtain ⟨l', hfind'⟩ := find_outlasts_scans hreach (.of_moves hscans) "a/" hfind
    (fun _ => by rw [horigin]; exact RootTables.namedByWalk_ofPaths _ (by decide) (by decide))
    (fun _ => by rw [horigin]; exact RootTables.notCutShort_ofPaths _ (by decide) (by decide))
  refine ⟨s, cp, l, l', hreach, .of_moves hscans, ?_, hfallback, hfind, hfind'⟩
  rw [hcp]
  rfl

/-- What is named only after the root directory is presented again is lost when the scan ends. -/
theorem find_lost_behind_repeat :
    ∃ (s : Session Unit String) (cp : ClassPath Unit String) (l : Found Unit String),
      Reachable .free {} s ∧ (∀ m ∈ s.members, m.root.NamedByWalk s.world) ∧ s.cp.Scans cp ∧
      cp.fallback.map RootEntry.ordinal = [] ∧
      (s.cp.find () (normalize "b")).answer = .ok (some l) ∧
      (cp.find () (normalize "b")).answer = .ok none := by
  obtain ⟨s, hreach, hcp, hmembers⟩ :=
    reachable_repeating (.refl (a := addedRepeating ["a"] ["b"]))
  have hfirst : ((addedRepeating ["a"] ["b"]).find () (normalize "b")).answer.toOption.map
      Option.isSome = some true := by decide +kernel
  have hmoves : ((addedRepeating ["a"] ["b"]).moves (untilRepeat ["a"])).map (fun cp =>
      (cp.fallback.map RootEntry.ordinal,
        (cp.find () (normalize "b")).answer.toOption.map Option.isSome)) =
      some ([], some false) := by decide +kernel
  obtain ⟨cp, hscans, hafter⟩ := Option.map_eq_some_iff.1 hmoves
  obtain ⟨hfallback, hlast⟩ := Prod.mk.inj hafter
  rw [← hcp] at hfirst hscans
  obtain ⟨found, hfind, hsome⟩ := exists_answer hfirst
  obtain ⟨l, rfl⟩ := Option.isSome_iff_exists.1 hsome
  obtain ⟨found', hfind', hnone⟩ := exists_answer hlast
  obtain rfl := Option.not_isSome_iff_eq_none.1 (Bool.eq_false_iff.1 hnone)
  refine ⟨s, cp, l, hreach, fun m hm => ?_, .of_moves hscans, hfallback, hfind, hfind'⟩
  rw [hmembers, List.mem_singleton] at hm
  rw [hm]
  exact RootTables.namedByWalk_ofPaths _ (by decide) (by decide)

end Repeating

end Session

end Overlay
