import Overlay.Proofs.ClassPath.Checking

/-!
# The same run without validation

A `Deed` says what a step of a session does. `Performs` is a run with all that was done in it, so
that the same deeds can be done again in another session. `Session.unchecked` is a session with
validation turned off. Whatever is done in a session of honest roots does the same in its unchecked
counterpart: what lookups check is never amiss, so checking leaves no trace.
-/

namespace Overlay

variable {σ δ : Type}

inductive Deed (σ δ : Type) where
  | add (tree : RootTree σ) (data : Option δ)
  | unpack
  | enroll
  | act
  | scan (m : Pool.Move)
  | find (path : String)
  | findAll (path : String)
  | change (w : σ)

namespace Session

def perform? (s : Session σ δ) : Deed σ δ → Option (Session σ δ)
  | .add tree data => match s.coming, s.todo with
    | [], [] => some { s with added := s.added ++ [(tree, data)], coming := [tree], data := data }
    | _, _ => none
  | .unpack => match s.coming with
    | .joined _ trees :: rest => some { s with coming := trees ++ rest }
    | _ => none
  | .enroll => match s.coming, s.todo with
    | .leaf root :: rest, [] => some (s.enroll root rest)
    | _, _ => none
  | .act => match s.todo with
    | a :: rest => some { s with cp := (s.cp.apply a).value, todo := rest }
    | [] => none
  | .scan m => (s.cp.move? m).map fun next => { s with cp := next.value }
  | .find path => some { s with cp := (s.cp.findResource s.world path).after }
  | .findAll path => some { s with cp := (s.cp.allResources s.world path).after }
  | .change w => some { s with world := w }

def Permits (c : Contract σ) (s : Session σ δ) : Deed σ δ → Prop
  | .enroll => ∀ root rest, s.coming = .leaf root :: rest → c.admits s.world root
  | .change w => ∀ m ∈ s.members, c.admits w m.root ∧ c.keeps s.world w m.root
  | .add .. | .unpack | .act | .scan _ | .find _ | .findAll _ => True

theorem step_iff {c : Contract σ} {s s' : Session σ δ} :
    Step c s s' ↔ ∃ d, s.Permits c d ∧ s.perform? d = some s' := by
  constructor
  · intro h
    cases h with
    | add tree data hcoming htodo =>
      exact ⟨.add tree data, trivial, by simp only [perform?, hcoming, htodo]⟩
    | unpack hcoming => exact ⟨.unpack, trivial, by simp only [perform?, hcoming]⟩
    | enroll hcoming htodo hadmits =>
      refine ⟨.enroll, fun root rest h => ?_, by simp only [perform?, hcoming, htodo]⟩
      rw [hcoming] at h
      obtain ⟨hroot, -⟩ := List.cons.inj h
      rwa [← RootTree.leaf.inj hroot]
    | act htodo => exact ⟨.act, trivial, by simp only [perform?, htodo]⟩
    | @scan m next hmove => exact ⟨.scan m, trivial, by rw [perform?, hmove]; rfl⟩
    | find path => exact ⟨.find path, trivial, rfl⟩
    | findAll path => exact ⟨.findAll path, trivial, rfl⟩
    | change w hkeeps => exact ⟨.change w, hkeeps, rfl⟩
  · rintro ⟨d, hpermits, hperform⟩
    cases d with
    | add tree data =>
      simp only [perform?] at hperform
      split at hperform
      next hcoming htodo => exact Option.some.inj hperform ▸ .add tree data hcoming htodo
      next => cases hperform
    | unpack =>
      simp only [perform?] at hperform
      split at hperform
      next hcoming => exact Option.some.inj hperform ▸ .unpack hcoming
      next => cases hperform
    | enroll =>
      simp only [perform?] at hperform
      split at hperform
      next root rest hcoming htodo =>
        exact Option.some.inj hperform ▸ .enroll hcoming htodo (hpermits root rest hcoming)
      next => cases hperform
    | act =>
      simp only [perform?] at hperform
      split at hperform
      next htodo => exact Option.some.inj hperform ▸ .act htodo
      next => cases hperform
    | scan m =>
      obtain ⟨next, hmove, rfl⟩ := Option.map_eq_some_iff.1 hperform
      exact .scan hmove
    | find path => exact Option.some.inj hperform ▸ .find path
    | findAll path => exact Option.some.inj hperform ▸ .findAll path
    | change w => exact Option.some.inj hperform ▸ .change w hpermits

inductive Performs (c : Contract σ) : Session σ δ → List (Deed σ δ) → Session σ δ → Prop where
  | nil (s : Session σ δ) : Performs c s [] s
  | cons {s mid last : Session σ δ} {d : Deed σ δ} {rest : List (Deed σ δ)}
      (hpermits : s.Permits c d) (hperform : s.perform? d = some mid)
      (hrest : Performs c mid rest last) : Performs c s (d :: rest) last

theorem steps_iff_performs {c : Contract σ} {s s' : Session σ δ} :
    Steps c s s' ↔ ∃ deeds, Performs c s deeds s' := by
  constructor
  · intro h
    induction h using Relation.ReflTransGen.head_induction_on with
    | refl => exact ⟨[], .nil _⟩
    | head hstep _ ih =>
      obtain ⟨d, hpermits, hperform⟩ := step_iff.1 hstep
      obtain ⟨deeds, hrest⟩ := ih
      exact ⟨d :: deeds, .cons hpermits hperform hrest⟩
  · rintro ⟨deeds, h⟩
    induction h with
    | nil => exact .refl
    | cons hpermits hperform _ ih => exact .head (step_iff.2 ⟨_, hpermits, hperform⟩) ih

end Session

namespace Index

variable {ω : Type}

def unchecked (index : Index ω) : Index ω := { index with check := false }

/-- The comparison of segments agrees with that of texts, so repeating it changes no answer. -/
theorem find_unchecked (index : Index ω) (key : String) :
    index.unchecked.find key = index.find key := by
  obtain ⟨store, check⟩ := index
  cases store with
  | table t => simp only [unchecked, find, PathTable.find_eq]
  | map m => simp only [unchecked, find, PathMap.find_eq]

theorem put_unchecked (index : Index ω) (l : Located ω) :
    (index.unchecked.put l).value = (index.put l).value.unchecked := by
  obtain ⟨store, check⟩ := index
  cases store <;> rfl

theorem reserve_unchecked (index : Index ω) (count : Nat) :
    (index.unchecked.reserve count).value = (index.reserve count).value.unchecked := by
  obtain ⟨store, check⟩ := index
  cases store <;> rfl

theorem warn_unchecked (index : Index ω) (key : String) :
    index.unchecked.warn key = (index.warn key).unchecked := by
  obtain ⟨store, check⟩ := index
  cases store <;> rfl

end Index

namespace ClassPath

def unchecked (cp : ClassPath σ δ) : ClassPath σ δ :=
  { cp with
    config := { cp.config with validate := false }, index := cp.index.unchecked, known := none }

variable {w : σ} (cp : ClassPath σ δ)

theorem apply_unchecked (a : Action σ δ) :
    (cp.unchecked.apply a).value = (cp.apply a).value.unchecked := by
  cases a with
  | reserve count =>
    change { cp.unchecked with index := (cp.index.unchecked.reserve count).value } = _
    rw [Index.reserve_unchecked]
    rfl
  | put l =>
    change { cp.unchecked with index := (cp.index.unchecked.put l).value } = _
    rw [Index.put_unchecked]
    rfl
  | report _ | fallBack _ | scan _ | remember _ => rfl

theorem deliver_unchecked (scan : Scan σ δ) :
    (cp.unchecked.deliver scan).value =
      ((cp.deliver scan).value.1.unchecked, (cp.deliver scan).value.2) := by
  cases hrest : scan.rest with
  | nil => simp only [deliver, hrest]; rfl
  | cons e rest =>
    rw [deliver_cons cp hrest, deliver_cons cp.unchecked hrest]
    have hindex : scan.indexing e cp.unchecked.index = (scan.indexing e cp.index).unchecked := by
      simp only [Scan.indexing]
      cases (scan.response e).put? with
      | none => rfl
      | some path => exact Index.put_unchecked cp.index ⟨path, scan.entry⟩
    rw [hindex]
    rfl

theorem conclude_unchecked (scan : Scan σ δ) (ending : Ending) :
    (cp.unchecked.conclude scan ending).value = (cp.conclude scan ending).value.unchecked := by
  cases ending <;> rfl

theorem work_unchecked (i : Nat) (scan : Scan σ δ) :
    (cp.unchecked.work i scan).value = (cp.work i scan).value.unchecked := by
  simp only [work, Logged.value_bind, deliver_unchecked]
  generalize (cp.deliver scan).value = delivered
  obtain ⟨next, going | ending⟩ := delivered
  · rfl
  · simp only [Logged.value_bind, conclude_unchecked]
    rfl

theorem move?_unchecked (m : Pool.Move) :
    (cp.unchecked.move? m).map Logged.value =
      (cp.move? m).map fun next => next.value.unchecked := by
  cases m with
  | take i =>
    change ((cp.pool.take? i).map _).map _ = ((cp.pool.take? i).map _).map _
    rw [Option.map_map, Option.map_map]
    rfl
  | exit i =>
    change ((cp.pool.exit? i).map _).map _ = ((cp.pool.exit? i).map _).map _
    rw [Option.map_map, Option.map_map]
    rfl
  | work i =>
    simp only [move?]
    rw [show cp.unchecked.pool = cp.pool from rfl]
    split
    next scan _ => rw [Option.map_some, Option.map_some, work_unchecked]
    next => rfl

theorem find_unchecked (key : String) :
    (cp.unchecked.find w key).answer = (cp.find w key).answer ∧
      (cp.unchecked.find w key).after = (cp.find w key).after.unchecked := by
  have hindex : cp.unchecked.index.find key = cp.index.find key := Index.find_unchecked cp.index key
  rw [find, find, hindex]
  cases cp.index.find key with
  | error mismatch => exact ⟨rfl, rfl⟩
  | ok entry =>
    refine ⟨rfl, ?_⟩
    cases entry with
    | none => rfl
    | some e =>
      dsimp only
      rw [reportAmbiguity, reportAmbiguity]
      cases e.unwarned with
      | false => rfl
      | true =>
        change { cp.unchecked with index := cp.index.unchecked.warn key } = _
        rw [Index.warn_unchecked]
        rfl

theorem findAll_unchecked (key : String) :
    (cp.unchecked.findAll w key).answer = (cp.findAll w key).answer ∧
      (cp.unchecked.findAll w key).after = (cp.findAll w key).after.unchecked := by
  have hindex : cp.unchecked.index.find key = cp.index.find key := Index.find_unchecked cp.index key
  rw [findAll, findAll, hindex]
  cases cp.index.find key with
  | error mismatch => exact ⟨rfl, rfl⟩
  | ok entry => exact ⟨rfl, rfl⟩

end ClassPath

namespace Session

def unchecked (s : Session σ δ) : Session σ δ := { s with cp := s.cp.unchecked }

theorem unchecked_start (config : Config) (w : σ) :
    (start config w : Session σ δ).unchecked = start { config with validate := false } w := rfl

variable {config : Config} {s s' : Session σ δ}

/-- What is done over honest roots does the same without validation. -/
theorem Reachable.perform?_unchecked (h : Reachable .honest config s) (d : Deed σ δ) :
    s.unchecked.perform? d = (s.perform? d).map unchecked := by
  cases d with
  | add tree data =>
    obtain ⟨world, cp, added, members, todo, coming, data⟩ := s
    cases coming <;> cases todo <;> rfl
  | unpack =>
    obtain ⟨world, cp, added, members, todo, coming, data⟩ := s
    obtain _ | ⟨_ | _, _⟩ := coming <;> rfl
  | enroll =>
    obtain ⟨world, cp, added, members, todo, coming, data⟩ := s
    obtain _ | ⟨_ | _, _⟩ := coming <;> cases todo <;> rfl
  | act =>
    obtain ⟨world, cp, added, members, todo, coming, data⟩ := s
    cases todo with
    | nil => rfl
    | cons a rest =>
      change some { Session.unchecked _ with cp := (cp.unchecked.apply a).value, todo := rest } = _
      rw [ClassPath.apply_unchecked]
      rfl
  | scan m =>
    have hmove := congrArg (Option.map fun cp => { s.unchecked with cp := cp })
      (s.cp.move?_unchecked m)
    rw [Option.map_map, Option.map_map] at hmove
    rw [perform?, perform?, Option.map_map]
    exact hmove
  | find path =>
    obtain ⟨ms, -, -, hafter, -⟩ := h.resources path
    have hunchecked := (s.cp.find_unchecked (normalize path) (w := s.world)).2
    rw [perform?, perform?, Option.map_some, hafter]
    exact congrArg (fun cp => some { s.unchecked with cp := cp }) hunchecked
  | findAll path =>
    obtain ⟨ms, -, -, -, -, hafter⟩ := h.resources path
    have hunchecked := (s.cp.findAll_unchecked (normalize path) (w := s.world)).2
    rw [perform?, perform?, Option.map_some, hafter]
    exact congrArg (fun cp => some { s.unchecked with cp := cp }) hunchecked
  | change w => rfl

theorem Reachable.perform (h : Reachable .honest config s) {d : Deed σ δ}
    (hpermits : s.Permits .honest d) (hperform : s.perform? d = some s') :
    Reachable .honest config s' := by
  obtain ⟨w, hsteps⟩ := h
  exact ⟨w, hsteps.tail (step_iff.2 ⟨d, hpermits, hperform⟩)⟩

/-- A run over honest roots goes the same way without validation. -/
theorem Performs.unchecked {deeds : List (Deed σ δ)} (hrun : Performs .honest s deeds s')
    (h : Reachable .honest config s) : Performs .honest s.unchecked deeds s'.unchecked := by
  induction hrun with
  | nil s => exact .nil s.unchecked
  | @cons s mid last d rest hpermits hperform _ ih =>
    have hunchecked : s.unchecked.perform? d = some mid.unchecked := by
      rw [h.perform?_unchecked d, hperform, Option.map_some]
    have hpermits' : s.unchecked.Permits .honest d := by
      cases d <;> exact hpermits
    exact .cons hpermits' hunchecked (ih (h.perform hpermits hperform))

/-- No lookup over honest roots gives a false alarm: each comes to an answer, and once a root is
added it is the answer of the class path that went through the same run without validation. -/
theorem no_false_alarm {w : σ} {deeds : List (Deed σ δ)}
    (hrun : Performs .honest (start config w) deeds s) :
    ∃ plain, Performs .honest (start { config with validate := false } w) deeds plain ∧
      plain.world = s.world ∧
      ∀ p, ∃ found all, (s.cp.findResource s.world p).answer = .ok found ∧
        (s.cp.allResources s.world p).answer = .ok all ∧
        (s.todo = [] → (plain.cp.findResource s.world p).answer = .ok found ∧
          (plain.cp.allResources s.world p).answer = .ok all) := by
  have hstart : Reachable .honest config (start (δ := δ) config w) := ⟨w, .refl⟩
  have hreach : Reachable .honest config s := ⟨w, steps_iff_performs.2 ⟨deeds, hrun⟩⟩
  have hplain := hrun.unchecked hstart
  rw [unchecked_start] at hplain
  refine ⟨s.unchecked, hplain, rfl, fun p => ?_⟩
  obtain ⟨ms, hms, hfind, -, hfindAll, -⟩ := hreach.resources p
  obtain ⟨ms', hms', hfind', hfindAll'⟩ := hreach.lookups p
  refine ⟨_, _, hfind, hfindAll, fun htodo => ?_⟩
  have hwhole : ms' = ms := by
    rw [hms.members.resolve_right fun hdue => hdue.1 htodo,
      hms'.members.resolve_right fun hdue => hdue.1 htodo]
  rw [hwhole] at hfind' hfindAll'
  have hfind_eq := (s.cp.find_unchecked (normalize p) (w := s.world)).1
  have hfindAll_eq := (s.cp.findAll_unchecked (normalize p) (w := s.world)).1
  exact ⟨hfind_eq.trans hfind', hfindAll_eq.trans hfindAll'⟩

/-- The class path of `addedOverlapping`, but with validation. -/
theorem no_false_alarm_overlapping :
    ∃ (deeds : List (Deed Unit String)) (s plain : Session Unit String),
      Performs .honest (start { validate := true } ()) deeds s ∧
      Performs .honest (start {} ()) deeds plain ∧
      s.cp.fallback.map RootEntry.ordinal = [0] ∧
      s.cp.known.map (List.map RootEntry.ordinal) = some [0, 1, 2] ∧
      ∃ found, (s.cp.findResource () "x/").answer = .ok found ∧
        (plain.cp.findResource () "x/").answer = .ok found ∧
        found.map (fun l => l.origin.ordinal) = some 0 := by
  let checked : ClassPath Unit String :=
    ((ClassPath.new { validate := true }).add () (some "data") overlapping).value
  let through : List Pool.Move :=
    [.take 0, .work 0, .take 1, .work 1, .work 0, .work 0, .work 1, .work 1, .work 1]
  have hmoves : (checked.moves through).map (fun cp =>
      (cp.fallback.map RootEntry.ordinal, cp.known.map (List.map RootEntry.ordinal))) =
      some ([0], some [0, 1, 2]) := rfl
  obtain ⟨cp, hcp, hbooks⟩ := Option.map_eq_some_iff.1 hmoves
  rw [Prod.mk.injEq] at hbooks
  obtain ⟨members, w, hsteps⟩ := reachable_added { validate := true } (.of_moves hcp)
  obtain ⟨deeds, hrun⟩ := steps_iff_performs.1 hsteps
  obtain ⟨plain, hplain, -, hanswers⟩ := no_false_alarm hrun
  obtain ⟨found, all, hfind, -, hsame⟩ := hanswers "x/"
  obtain ⟨hplainFind, -⟩ := hsame rfl
  obtain ⟨ms, hms, hfirst, -⟩ := Reachable.resources ⟨w, hsteps⟩ "x/"
  obtain rfl : ms = registered [(overlapping, some "data")] := hms.settled rfl rfl
  obtain rfl := Except.ok.inj (hfind.symm.trans hfirst)
  exact ⟨deeds, _, plain, hrun, hplain, hbooks.1, hbooks.2, _, hfind, hplainFind, rfl⟩

end Session

end Overlay
