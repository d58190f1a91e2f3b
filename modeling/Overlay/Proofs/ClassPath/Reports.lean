import Overlay.Proofs.ClassPath.Answers
import Overlay.Proofs.Index.Reports

/-!
# Ambiguities are reported once

A class path may be used in any order: members are enrolled, actions done, scans moved on, and
lookups made. Of each use only its incidents bear on what keys find, the locations it puts and the
keys it asks for, and a run of uses comes to the history of these: `find_uses`. So what is known of
histories says when a lookup reports an ambiguity, `ambiguity_reported_once`. That a lookup with
validation may look twice makes no difference, since it finds the mark of its first look the second
time.
-/

namespace Overlay

variable {σ δ : Type} {α β : Type}

namespace Event

def isAmbiguity : Event → Bool
  | ambiguous .. => true
  | _ => false

def ambiguities (events : List Event) : List Event := events.filter isAmbiguity

theorem ambiguities_append (a b : List Event) :
    ambiguities (a ++ b) = ambiguities a ++ ambiguities b := List.filter_append ..

end Event

theorem Index.Holds.find_putAll {ω : Type} {index : Index ω} {log : List (Located ω)}
    {key : String} {found : Option (Entry ω)} (hholds : index.Holds log)
    (h : index.find key = .ok found) (locations : List (Located ω)) :
    (index.putAll locations).value.find key =
      .ok ((locations.map .put).foldl (Incident.react key) found) := by
  induction locations generalizing index log found with
  | nil => exact h
  | cons l rest ih => exact ih (hholds.put l) (hholds.find_put h l)

/-- The report of an ambiguity, unless that was done before. -/
def Entry.alarm (key : String) (e : Entry (Member σ δ)) : List Event :=
  if e.unwarned then [.ambiguous key (e.locations.map fun l => l.origin.root.name)] else []

/-- What is found once more needs no report. -/
theorem Entry.alarm_react (key : String) (found : Option (Entry (Member σ δ))) :
    (Incident.react key found (.ask key)).elim [] (alarm key) = [] := by
  rw [Incident.react, if_pos rfl]
  cases found with
  | none => rfl
  | some e =>
    rw [Option.map_some, Option.elim_some, alarm, unwarned_warn]
    rfl

inductive Use (σ δ : Type) where
  | enroll (root : Root σ) (data : Option δ)
  | act (a : Action σ δ)
  | scan (m : Pool.Move)
  | find (w : σ) (path : String)
  | findAll (w : σ) (path : String)

namespace ClassPath

/-- The class path after a use. A move that no worker can make does nothing. -/
def use (cp : ClassPath σ δ) : Use σ δ → ClassPath σ δ
  | .enroll root data => (cp.enroll root data).2
  | .act a => (cp.apply a).value
  | .scan m => ((cp.move? m).map Logged.value).getD cp
  | .find w path => (cp.findResource w path).after
  | .findAll w path => (cp.allResources w path).after

def arriving (cp : ClassPath σ δ) : Pool.Move → List (Found σ δ)
  | .work i => match cp.pool.workers[i]? with
    | some (some scan) => scan.rest.head?.elim [] scan.located
    | _ => []
  | .take _ | .exit _ => []

def incidents (cp : ClassPath σ δ) : Use σ δ → List (Incident (Member σ δ))
  | .act a => a.located.map .put
  | .scan m => (cp.arriving m).map .put
  | .find _ path => [.ask (normalize path)]
  | .enroll .. | .findAll .. => []

def history (cp : ClassPath σ δ) : List (Use σ δ) → List (Incident (Member σ δ))
  | [] => []
  | u :: rest => cp.incidents u ++ (cp.use u).history rest

end ClassPath

/-- What a session comes to is a run of uses of its class path. -/
theorem Session.Reachable.exists_uses {c : Contract σ} {config : Config} {s : Session σ δ}
    (h : Reachable c config s) :
    ∃ uses : List (Use σ δ), s.cp = uses.foldl ClassPath.use (.new config) := by
  refine h.invariant
    (P := fun s => ∃ uses : List (Use σ δ), s.cp = uses.foldl ClassPath.use (.new config))
    (fun _ => ⟨[], rfl⟩) ?_
  rintro s s' ⟨uses, huses⟩ hstep
  have hlast : ∀ u, s.cp.use u = (uses ++ [u]).foldl ClassPath.use (.new config) := fun u => by
    rw [List.foldl_append, ← huses]
    rfl
  cases hstep with
  | add tree data hcoming htodo => exact ⟨uses, huses⟩
  | unpack hcoming => exact ⟨uses, huses⟩
  | @enroll root rest hcoming htodo hadmits => exact ⟨_, hlast (.enroll root s.data)⟩
  | @act a rest htodo => exact ⟨_, hlast (.act a)⟩
  | @scan m next hmove =>
    have hnext : next.value = s.cp.use (.scan m) := by
      rw [ClassPath.use, hmove]
      rfl
    exact ⟨_, hnext.trans (hlast (.scan m))⟩
  | find path => exact ⟨_, hlast (.find s.world path)⟩
  | findAll path => exact ⟨_, hlast (.findAll s.world path)⟩
  | change w hkeeps => exact ⟨uses, huses⟩

namespace ClassPath

open Event (ambiguities ambiguities_append)

/-- A reply that takes no part in the reports of ambiguities. -/
structure Mute (cp : ClassPath σ δ) (reply : Reply σ δ α) : Prop where
  index : reply.after.index = cp.index
  events : ambiguities reply.events = []

/-- A reply that asks for a key, and reports its ambiguity unless that was done before. -/
structure Asks (cp : ClassPath σ δ) (key : String) (reply : Reply σ δ α) : Prop where
  finds : ∀ {other found}, cp.index.find other = .ok found →
    reply.after.index.find other = .ok (Incident.react other found (.ask key))
  reports : ∀ {found}, cp.index.find key = .ok found →
    ambiguities reply.events = found.elim [] (Entry.alarm key)

section Lookups

variable {cp : ClassPath σ δ} {key : String} {reply : Reply σ δ α}
  {f : α → ClassPath σ δ → Reply σ δ β}

theorem Mute.andThen (h : cp.Mute reply) (hf : ∀ a, reply.after.Mute (f a reply.after)) :
    cp.Mute (reply.andThen f) := by
  unfold Reply.andThen
  split
  · exact ⟨h.index, h.events⟩
  next a _ =>
    refine ⟨(hf a).index.trans h.index, ?_⟩
    dsimp only
    rw [ambiguities_append, h.events, (hf a).events, List.nil_append]

theorem Asks.andThen (h : cp.Asks key reply)
    (hf : ∀ a, reply.after.Mute (f a reply.after) ∨ reply.after.Asks key (f a reply.after)) :
    cp.Asks key (reply.andThen f) := by
  unfold Reply.andThen
  split
  · exact ⟨h.finds, h.reports⟩
  next a _ =>
    rcases hf a with hmute | hagain
    · refine ⟨fun hfound => ?_, fun hfound => ?_⟩
      · dsimp only
        rw [hmute.index, h.finds hfound]
      · dsimp only
        rw [ambiguities_append, h.reports hfound, hmute.events, List.append_nil]
    · refine ⟨fun hfound => ?_, fun hfound => ?_⟩
      · dsimp only
        rw [hagain.finds (h.finds hfound), Incident.react_ask_ask]
      · dsimp only
        rw [ambiguities_append, h.reports hfound, hagain.reports (h.finds hfound),
          Entry.alarm_react, List.append_nil]

/-- The report marks the entry, unless there is nothing to be marked. -/
theorem reportAmbiguity_spec (cp : ClassPath σ δ) {key : String}
    {entry : Option (Entry (Member σ δ))} (hentry : cp.index.find key = .ok entry) :
    (∀ {other found}, cp.index.find other = .ok found →
      (cp.reportAmbiguity key entry).value.index.find other =
        .ok (Incident.react other found (.ask key))) ∧
    (cp.reportAmbiguity key entry).events = entry.elim [] (Entry.alarm key) := by
  have hsame : entry.map Entry.warn = entry → ∀ {other found}, cp.index.find other = .ok found →
      Incident.react other found (.ask key) = found := by
    intro hwarn other found hfound
    rw [Incident.react]
    split
    next heq =>
      subst heq
      obtain rfl := Except.ok.inj (hentry.symm.trans hfound)
      exact hwarn
    next => rfl
  cases entry with
  | none => exact ⟨fun hfound => by rw [hsame rfl hfound]; exact hfound, rfl⟩
  | some e =>
    rw [reportAmbiguity, Option.elim_some, Entry.alarm]
    cases hunwarned : e.unwarned with
    | true => exact ⟨fun hfound => Index.find_warn hfound key, rfl⟩
    | false =>
      have hwarn : (some e).map Entry.warn = some e := congrArg some (Entry.warn_eq_self hunwarned)
      exact ⟨fun hfound => by rw [hsame hwarn hfound]; exact hfound, rfl⟩

theorem mute_details (cp : ClassPath σ δ) (operation key found : String) :
    ambiguities (cp.details operation key found) = [] := by
  unfold details
  split <;> rfl

theorem Mute.findAll (w : σ) (cp : ClassPath σ δ) (key : String) : cp.Mute (cp.findAll w key) := by
  unfold ClassPath.findAll
  split
  · exact ⟨rfl, rfl⟩
  · exact ⟨rfl, mute_details ..⟩

theorem Asks.find (w : σ) (cp : ClassPath σ δ) (key : String) :
    cp.Asks key (cp.find w key) := by
  unfold ClassPath.find
  cases hfound : cp.index.find key with
  | error mismatch =>
    rw [Index.find_eq_hashed] at hfound
    cases hfound
  | ok entry =>
    dsimp only
    obtain ⟨hfinds, hevents⟩ := cp.reportAmbiguity_spec hfound
    refine ⟨hfinds, fun {found} hkey => ?_⟩
    obtain rfl := Except.ok.inj (hfound.symm.trans hkey)
    dsimp only
    rw [ambiguities_append, mute_details, List.append_nil, hevents]
    cases entry with
    | none => rfl
    | some e =>
      rw [Option.elim_some, Entry.alarm]
      split <;> rfl

/-- After an answer that differs from the slow one, a lookup looks once more. -/
theorem Mute.giveUp {operation : String} {known : List (Member σ δ)} {shown : α → String}
    {quick slow : α} {again : Reply σ δ α} (h : cp.Mute again) :
    cp.Mute (ClassPath.giveUp operation key known shown quick slow again) :=
  h.andThen fun _ => ⟨rfl, rfl⟩

theorem Asks.giveUp {operation : String} {known : List (Member σ δ)} {shown : α → String}
    {quick slow : α} {again : Reply σ δ α} (h : cp.Asks key again) :
    cp.Asks key (ClassPath.giveUp operation key known shown quick slow again) :=
  h.andThen fun _ => .inl ⟨rfl, rfl⟩

theorem Asks.checkedFind (w : σ) (cp : ClassPath σ δ) (known : List (Member σ δ)) (key : String) :
    cp.Asks key (cp.checkedFind w known key) := by
  refine (Asks.find w cp key).andThen fun found => ?_
  dsimp only
  split
  · exact .inl ⟨rfl, rfl⟩
  · exact .inr (.giveUp (.find w _ key))

theorem Mute.checkedFindAll (w : σ) (cp : ClassPath σ δ) (known : List (Member σ δ))
    (key : String) : cp.Mute (cp.checkedFindAll w known key) := by
  refine (Mute.findAll w cp key).andThen fun found => ?_
  dsimp only
  split
  · exact ⟨rfl, rfl⟩
  · exact .giveUp (.findAll w _ key)

theorem Asks.findResource (w : σ) (cp : ClassPath σ δ) (path : String) :
    cp.Asks (normalize path) (cp.findResource w path) := by
  unfold ClassPath.findResource
  split
  · exact .find w cp _
  next known _ => exact .checkedFind w cp known _

theorem Mute.allResources (w : σ) (cp : ClassPath σ δ) (path : String) :
    cp.Mute (cp.allResources w path) := by
  unfold ClassPath.allResources
  split
  · exact .findAll w cp _
  next known _ => exact .checkedFindAll w cp known _

end Lookups

section Uses

variable {cp : ClassPath σ δ} {key : String} {found : Option (Entry (Member σ δ))}

theorem index_work (cp : ClassPath σ δ) (i : Nat) (scan : Scan σ δ) :
    (cp.work i scan).value.index =
      (cp.index.putAll (scan.rest.head?.elim [] scan.located)).value := by
  have hdeliver : (cp.deliver scan).value.1.index =
      (cp.index.putAll (scan.rest.head?.elim [] scan.located)).value := by
    cases hrest : scan.rest with
    | nil =>
      simp only [deliver, hrest]
      rfl
    | cons e rest =>
      rw [deliver_cons cp hrest]
      exact congrArg Logged.value (Indexing.put?_eq ⟨cp.index, scan.entry, scan.indexer⟩ _)
  rw [← hdeliver]
  simp only [work, Logged.value_bind]
  generalize (cp.deliver scan).value = delivered
  obtain ⟨next, going | ending⟩ := delivered
  · rfl
  · cases ending <;> rfl

theorem index_scan (cp : ClassPath σ δ) (m : Pool.Move) :
    (cp.use (.scan m)).index = (cp.index.putAll (cp.arriving m)).value := by
  rw [use]
  cases m with
  | take i =>
    rw [move?]
    cases cp.pool.take? i <;> rfl
  | exit i =>
    rw [move?]
    cases cp.pool.exit? i <;> rfl
  | work i =>
    rw [move?, arriving]
    rcases cp.pool.workers[i]? with _ | _ | scan
    · rfl
    · rfl
    · exact index_work cp i scan

theorem holds_use (h : ∃ log, cp.index.Holds log) (u : Use σ δ) :
    ∃ log, (cp.use u).index.Holds log := by
  obtain ⟨log, h⟩ := h
  cases u with
  | enroll root data => exact ⟨log, h⟩
  | scan m =>
    rw [index_scan]
    exact ⟨_, h.putAll _⟩
  | find w path => exact ⟨log, (Alike.findResource w cp path).index log h⟩
  | findAll w path => exact ⟨log, (Alike.allResources w cp path).index log h⟩
  | act a =>
    cases a with
    | put l => exact ⟨_, h.put l⟩
    | reserve count => exact ⟨log, h.reserve count⟩
    | report _ | fallBack _ | scan _ | remember _ => exact ⟨log, h⟩

/-- What a key finds after a use is decided by what it found before and by the incidents. -/
theorem find_use (h : ∃ log, cp.index.Holds log) (hfound : cp.index.find key = .ok found)
    (u : Use σ δ) :
    (cp.use u).index.find key = .ok ((cp.incidents u).foldl (Incident.react key) found) := by
  obtain ⟨log, h⟩ := h
  cases u with
  | enroll root data => exact hfound
  | scan m =>
    rw [index_scan]
    exact h.find_putAll hfound _
  | find w path => exact (Asks.findResource w cp path).finds hfound
  | findAll w path =>
    rw [use, (Mute.allResources w cp path).index]
    exact hfound
  | act a =>
    cases a with
    | put l => exact h.find_put hfound l
    | reserve count => exact (h.find_reserve count key).trans hfound
    | report _ | fallBack _ | scan _ | remember _ => exact hfound

/-- What a key finds after a run of uses is decided by the history of the run. -/
theorem find_uses (h : ∃ log, cp.index.Holds log) (hfound : cp.index.find key = .ok found)
    (uses : List (Use σ δ)) :
    (∃ log, (uses.foldl use cp).index.Holds log) ∧ (uses.foldl use cp).index.find key =
      .ok ((cp.history uses).foldl (Incident.react key) found) := by
  induction uses generalizing cp found with
  | nil => exact ⟨h, hfound⟩
  | cons u rest ih =>
    rw [history, List.foldl_append]
    exact ih (holds_use h u) (find_use h hfound u)

theorem find_new (config : Config) (key : String) :
    (ClassPath.new config : ClassPath σ δ).index.find key = .ok none := by
  obtain ⟨found, hfound, hans⟩ := (Index.holds_new config.customTable config.validate).find key
  rw [hans.none_iff.2 nofun] at hfound
  exact hfound

/-- A lookup reports the ambiguity of its key if and only if the entry it finds became an overlap,
or was extended, since the key was last asked for. To ask for every location reports nothing and
leaves the report to be made. Nothing else that is done has a say in it unless it puts a location
under the key or asks for it. -/
theorem ambiguity_reported_once (config : Config) (uses : List (Use σ δ)) (w : σ) (path : String) :
    let cp := uses.foldl use (.new config)
    let past := (ClassPath.new config).history uses
    let key := normalize path
    ∃ found, cp.index.find key = .ok found ∧
      (∀ first others warned, found = some (.overlap first others warned) →
        Unreported key first.path past → ambiguities (cp.findResource w path).events =
          [.ambiguous key ((first :: others).map fun l => l.origin.root.name)]) ∧
      ((¬ ∃ first others warned, found = some (.overlap first others warned) ∧
        Unreported key first.path past) → ambiguities (cp.findResource w path).events = []) ∧
      ambiguities (cp.allResources w path).events = [] ∧
      (cp.allResources w path).after.index = cp.index ∧
      ∀ u, (∀ i ∈ cp.incidents u, i.key ≠ key) → (cp.use u).index.find key = .ok found := by
  intro cp past key
  obtain ⟨hholds, hfound⟩ := find_uses ⟨[], Index.holds_new config.customTable config.validate⟩
    (find_new config key) uses
  have hrecalled := Incident.recalled key past
  have hreports := (Asks.findResource w cp path).reports hfound
  have hmute := Mute.allResources w cp path
  refine ⟨_, hfound, ?_, ?_, hmute.events, hmute.index, fun u hu => ?_⟩
  · intro first others warned hoverlap hunreported
    have hunwarned := (hrecalled.unwarned _ hoverlap).2 hunreported
    rw [hreports, hoverlap, Option.elim_some, Entry.alarm, if_pos hunwarned]
    rfl
  · intro hnone
    rw [hreports]
    cases hentry : past.foldl (Incident.react key) none with
    | none => rfl
    | some e =>
      rw [Option.elim_some, Entry.alarm, if_neg]
      intro hunwarned
      cases e with
      | single l => cases hunwarned
      | overlap first others warned =>
        exact hnone ⟨first, others, warned, hentry, (hrecalled.unwarned _ hentry).1 hunwarned⟩
  · rw [find_use hholds hfound u, Incident.foldl_react_of_ne (Index.render_of_find hfound) hu]

end Uses

section Colliding

def named (name : String) : Member Unit String :=
  ⟨0, RootTables.toRoot { name := name, kind := .memory false }, none⟩

def collidingUses : List (Use Unit String) :=
  [.act (.put ⟨.ofNames ["Aa"], named "a"⟩), .act (.put ⟨.ofNames ["BB"], named "b"⟩),
    .act (.put ⟨.ofNames ["Aa"], named "b"⟩), .find () "Aa", .act (.reserve 200), .find () "BB",
    .act (.put ⟨.ofNames ["Aa"], named "c"⟩), .findAll () "Aa"]

/-- The location that was put last is reported with the others, and then no more. -/
theorem ambiguity_reported_once_colliding :
    let cp := collidingUses.foldl use (.new {})
    ambiguities (cp.findResource () "Aa").events = [.ambiguous "/Aa" ["a", "b", "c"]] ∧
      ambiguities ((cp.findResource () "Aa").after.findResource () "Aa").events = [] := by
  intro cp
  have hseen : (cp.index.find (normalize "Aa")).toOption.map (Option.map fun e =>
      (e.unwarned, e.path, e.locations.map fun l => l.origin.root.name)) =
      some (some (true, .ofNames ["Aa"], ["a", "b", "c"])) := by decide +kernel
  obtain ⟨found, hfound, hreport, -⟩ := ambiguity_reported_once {} collidingUses () "Aa"
  obtain ⟨_, -, -, hquiet, -⟩ :=
    ambiguity_reported_once {} (collidingUses ++ [.find () "Aa"]) () "Aa"
  constructor
  · obtain ⟨found', hfound', hentry⟩ := exists_answer hseen
    obtain rfl := Except.ok.inj (hfound.symm.trans hfound')
    obtain ⟨e, rfl, he⟩ := Option.map_eq_some_iff.1 hentry
    obtain ⟨hunwarned, he⟩ := Prod.mk.inj he
    obtain ⟨hpath, hnames⟩ := Prod.mk.inj he
    cases e with
    | single l => cases hunwarned
    | overlap first others warned =>
      refine (hreport first others warned rfl ?_).trans ?_
      · exact ⟨[_, _, _, _, _], ⟨.ofNames ["Aa"], named "c"⟩, [], rfl, hpath.symm,
          ⟨_, List.mem_cons_self, hpath.symm⟩, List.not_mem_nil⟩
      · exact congrArg (fun names => [Event.ambiguous "/Aa" names]) hnames
  · refine hquiet ?_
    rintro ⟨first, others, warned, -, hunreported⟩
    have hask : Unreported (normalize "Aa") first.path
        ((ClassPath.new {}).history collidingUses ++ [.ask (normalize "Aa")]) := hunreported
    exact (unreported_ask.1 hask).1 rfl

end Colliding

end ClassPath

end Overlay
