import Overlay.Proofs.Scan.Delivery
import Overlay.Proofs.Scan.Outcome

/-!
# Streams of events that need be no walk

Nothing makes a root report a tree. Events may leave more directories than were entered, present the
root directory anywhere and name entries outside of it, and they may go on after an answer that
should have ended the walk. `Indexer.Sound` is what an indexer keeps under all this: its open
directories are nested in each other from the root down, it has counted what it has put, and
whatever it has put was put behind the directory it is in. Both this and the answers,
`Indexing.deliverAll_any`, are read off `Indexer.Stepped`, which lists what an event can do.
-/

namespace Overlay

variable {ω : Type}

namespace Indexer

/-- Directories, the innermost first, each of which is in the next one, down to the root. -/
def Nested : List EntryPath → Prop
  | [] => True
  | [dir] => dir = .root
  | inner :: dir :: outer => inner.parent? = some dir ∧ Nested (dir :: outer)

theorem Nested.tail {dirs : List EntryPath} (h : Nested dirs) : Nested dirs.tail := by
  cases dirs with
  | nil => trivial
  | cons inner outer =>
    cases outer with
    | nil => trivial
    | cons dir outer => exact h.2

theorem nested_singleton {dirs : List EntryPath} (h : Nested dirs) :
    dirs.length = 1 ↔ dirs = [.root] := by
  rw [List.length_eq_one_iff]
  constructor
  · rintro ⟨dir, rfl⟩
    exact congrArg (fun dir => [dir]) h
  · exact fun hroot => ⟨.root, hroot⟩

/-- An indexer refuses what is outside of the root directory, and a root directory that is presented
deeper down. -/
theorem answer_eq_error_iff {root : String} {ix : Indexer} {e : WalkEvent} {error : IoError} :
    (ix.step root e).answer = .error error ↔
      (∃ name, e = .enter (some name) ∨ e = .file name) ∧ ix.stack = [] ∧
          error = .outsideRoot root ∨
        e = .enter none ∧ ∃ inner dir outer, ix.stack = inner :: dir :: outer ∧
          error = .nestedRoot root inner.render := by
  constructor
  · intro h
    have hstep := stepped root ix e
    generalize ix.step root e = response at hstep h
    cases hstep with
    | nested hstack =>
      cases h
      exact .inr ⟨rfl, _, _, _, hstack, rfl⟩
    | outside hnamed hstack =>
      cases h
      exact .inl ⟨⟨_, hnamed⟩, hstack, rfl⟩
    | begin | enter | file | leave | stop => cases h
  · rintro (⟨⟨name, rfl | rfl⟩, hstack, rfl⟩ | ⟨rfl, inner, dir, outer, hstack, rfl⟩)
    · rw [step, hstack]
      rfl
    · rw [step, hstack]
      rfl
    · rw [step, hstack]
      rfl

/-- What events put whatever the answers to them are, each path with the event that put it. -/
def placed (root : String) (ix : Indexer) : List WalkEvent → List (WalkEvent × EntryPath)
  | [] => []
  | e :: rest =>
    ((ix.step root e).put?.toList.map fun path => (e, path)) ++
      (ix.step root e).after.placed root rest

structure Sound (placed : List (WalkEvent × EntryPath)) (ix : Indexer) : Prop where
  nested : Nested ix.stack
  counted : ix.folders + ix.files = placed.length
  entered : ∀ dir ∈ ix.stack, ∃ name, (.enter name, dir) ∈ placed
  behind : ∀ earlier put, earlier ++ [put] <+: placed → ∀ dir, put.2.parent? = some dir →
    ∃ name, (.enter name, dir) ∈ earlier

namespace Sound

variable {placed : List (WalkEvent × EntryPath)} {ix : Indexer}

theorem new : Sound [] {} where
  nested := trivial
  counted := rfl
  entered dir hdir := by cases hdir
  behind earlier put hput := by
    rw [List.prefix_nil] at hput
    exact absurd hput (List.append_ne_nil_of_right_ne_nil _ (List.cons_ne_nil put []))

/-- A path can be put if the directory it is in was entered. -/
theorem behind_concat (h : Sound placed ix) {e : WalkEvent} {path : EntryPath}
    (hpath : ∀ dir, path.parent? = some dir → dir ∈ ix.stack) :
    ∀ earlier put, earlier ++ [put] <+: placed ++ [(e, path)] → ∀ dir, put.2.parent? = some dir →
      ∃ name, (.enter name, dir) ∈ earlier := by
  intro earlier put hput dir hdir
  rcases List.prefix_concat_iff.1 hput with hlast | hbefore
  · obtain ⟨rfl, rfl⟩ := List.append_singleton_inj.1 hlast
    exact h.entered dir (hpath dir hdir)
  · exact h.behind earlier put hbefore dir hdir

theorem put (h : Sound placed ix) {e : WalkEvent} {path : EntryPath} {next : Indexer}
    (hnested : Nested next.stack) (hcount : next.folders + next.files = ix.folders + ix.files + 1)
    (hopen : ∀ dir ∈ next.stack, dir ∈ ix.stack ∨ dir = path ∧ ∃ name, e = .enter name)
    (hpath : ∀ dir, path.parent? = some dir → dir ∈ ix.stack) :
    Sound (placed ++ [(e, path)]) next where
  nested := hnested
  counted := by rw [hcount, h.counted, List.length_append, List.length_singleton]
  entered dir hdir := by
    rcases hopen dir hdir with hold | ⟨rfl, name, rfl⟩
    · obtain ⟨name, hname⟩ := h.entered dir hold
      exact ⟨name, List.mem_append_left _ hname⟩
    · exact ⟨name, List.mem_append_right _ List.mem_cons_self⟩
  behind := h.behind_concat hpath

theorem enter (h : Sound placed ix) {name : Option String} {path : EntryPath}
    (hnested : Nested (path :: ix.stack))
    (hpath : ∀ dir, path.parent? = some dir → dir ∈ ix.stack) :
    Sound (placed ++ [(.enter name, path)]) (ix.enter path).after := by
  refine h.put hnested (Nat.add_right_comm ..) (fun dir hdir => ?_) hpath
  exact (List.mem_cons.1 hdir).symm.imp_right fun heq => ⟨heq, name, rfl⟩

theorem step (h : Sound placed ix) (root : String) (e : WalkEvent) :
    Sound (placed ++ (ix.step root e).put?.toList.map fun path => (e, path))
      (ix.step root e).after := by
  have hin : ∀ {top : EntryPath} {outer : List EntryPath} {name : String}, ix.stack = top :: outer →
      ∀ dir, (top.child name).parent? = some dir → dir ∈ ix.stack := by
    intro top outer name hstack dir hdir
    obtain rfl := Option.some.inj hdir
    exact hstack ▸ List.mem_cons_self
  have hstep := stepped root ix e
  generalize ix.step root e = response at hstep ⊢
  cases hstep with
  | begin hstack => exact h.enter (by rw [hstack]; rfl) nofun
  | enter hstack =>
    refine h.enter ?_ (hin hstack)
    have hnested := h.nested
    rw [hstack] at hnested ⊢
    exact ⟨rfl, hnested⟩
  | file hstack => exact h.put h.nested rfl (fun dir hdir => .inl hdir) (hin hstack)
  | leave =>
    rw [Option.toList_none, List.map_nil, List.append_nil]
    exact ⟨h.nested.tail, h.counted, fun dir hdir => h.entered dir (List.mem_of_mem_tail hdir),
      h.behind⟩
  | stop hstack => exact (List.append_nil placed).symm ▸ h
  | nested hstack => exact (List.append_nil placed).symm ▸ h
  | outside hnamed hstack => exact (List.append_nil placed).symm ▸ h

theorem deliverAll {s : Indexing ω} (h : Sound placed s.indexer) (root : String)
    (events : List WalkEvent) :
    Sound (placed ++ s.indexer.placed root events)
      (s.deliverAll root events).value.2.indexer := by
  induction events generalizing placed s with
  | nil =>
    rw [Indexer.placed, List.append_nil]
    exact h
  | cons e rest ih =>
    rw [Indexer.placed, ← List.append_assoc]
    exact ih (s := (s.deliver root e).value.2) (h.step root e)

end Sound

end Indexer

namespace Indexing

variable {root : String} {s : Indexing ω} {e : WalkEvent}

theorem index_deliverAll (root : String) (s : Indexing ω) (events : List WalkEvent) :
    (s.deliverAll root events).value.2.index =
      (s.index.putAll ((s.indexer.placed root events).map fun p => ⟨p.2, s.origin⟩)).value := by
  induction events generalizing s with
  | nil => rfl
  | cons e rest ih =>
    have hindex : (s.deliver root e).value.2.index = (s.index.putAll
        ((s.indexer.step root e).put?.toList.map fun path => ⟨path, s.origin⟩)).value := by
      rw [← put?_eq]
      rfl
    have hrest := ih (s.deliver root e).value.2
    rw [hindex] at hrest
    rw [Indexer.placed, List.map_append, List.map_map, Index.putAll_append]
    exact hrest

/-- An event that is not answered by proceeding changes nothing. -/
theorem deliver_of_not_proceed (h : (s.deliver root e).value.1 ≠ .ok .proceed) :
    (s.deliver root e).value.2 = s := by
  obtain ⟨hput, hafter⟩ := Indexer.step_of_not_proceed h
  change { s with index := (s.put? (s.indexer.step root e).put?).value,
                  indexer := (s.indexer.step root e).after } = s
  rw [hput, hafter]
  rfl

/-- Whatever events are delivered, and whatever the answers to them were, the open directories are
nested in each other from the root down, what was put was counted and was put behind the directory
it is in. The next event stops the walk if it presents the root directory right inside the root
directory, is refused if it names something outside of the root directory or presents the root
directory deeper down, and has changed nothing then. -/
theorem deliverAll_any (root : String) (index : Index ω) (origin : ω) (events : List WalkEvent) :
    let s := (deliverAll root ⟨index, origin, {}⟩ events).value.2
    let placed := Indexer.placed root {} events
    Indexer.Nested s.indexer.stack ∧
    s.index = (index.putAll (placed.map fun p => ⟨p.2, origin⟩)).value ∧
    s.indexer.folders + s.indexer.files = placed.length ∧
    (∀ earlier put, earlier ++ [put] <+: placed → ∀ dir, put.2.parent? = some dir →
      ∃ name, (.enter name, dir) ∈ earlier) ∧
    ∀ e : WalkEvent,
      ((s.deliver root e).value.1 = .ok .stop ↔ e = .enter none ∧ s.indexer.stack = [.root]) ∧
      (∀ error, (s.deliver root e).value.1 = .error error ↔
        (∃ name, e = .enter (some name) ∨ e = .file name) ∧ s.indexer.stack = [] ∧
          error = .outsideRoot root ∨
        e = .enter none ∧ ∃ inner dir outer, s.indexer.stack = inner :: dir :: outer ∧
          error = .nestedRoot root inner.render) ∧
      ((s.deliver root e).value.1 ≠ .ok .proceed → (s.deliver root e).value.2 = s) := by
  intro s placed
  have hsound : Indexer.Sound placed s.indexer :=
    Indexer.Sound.new.deliverAll (s := ⟨index, origin, {}⟩) root events
  refine ⟨hsound.nested, index_deliverAll root ⟨index, origin, {}⟩ events, hsound.counted,
    hsound.behind, fun e => ⟨?_, fun error => Indexer.answer_eq_error_iff, deliver_of_not_proceed⟩⟩
  rw [← Indexer.nested_singleton hsound.nested]
  exact Indexer.answer_eq_stop_iff

end Indexing

end Overlay
