import Mathlib.Data.List.Nodup
import Overlay.Index.Node
import Overlay.Proofs.Path.Rendering

/-!
# Buckets as groupings of what was put

`Groups log entries` says that the entries are the locations of `log` grouped by their paths: one
entry for each path, with the locations of that path in the order of `log`. Putting a location
into a bucket keeps this with the location behind the others, and reporting an ambiguity keeps it
as it is. Looking a key up finds the entry whose path renders as the key; comparing segments and
comparing texts never differ.
-/

namespace Overlay

variable {ω : Type}

namespace Entry

def Proper : Entry ω → Prop
  | single _ => True
  | overlap _ others _ => others ≠ []

theorem Proper.extend (e : Entry ω) (l : Located ω) : (e.extend l).Proper := by
  cases e with
  | single first => simp [Entry.extend, Proper]
  | overlap first others warned => simp [Entry.extend, Proper]

theorem Proper.warn {e : Entry ω} (h : e.Proper) : e.warn.Proper := by
  cases e with
  | single first => trivial
  | overlap first others warned => exact h

@[simp] theorem path_single (l : Located ω) : (single l).path = l.path := rfl

theorem first_mem_locations (e : Entry ω) : e.first ∈ e.locations := by
  cases e <;> simp [first, locations]

theorem Proper.single_iff {e : Entry ω} (h : e.Proper) :
    (∃ l, e = .single l) ↔ e.locations.length = 1 := by
  cases e with
  | single first => simp [locations]
  | overlap first others warned =>
    have hne : others.length ≠ 0 := fun h0 => h (List.length_eq_zero_iff.1 h0)
    simp [locations, hne]

theorem Proper.overlap_iff {e : Entry ω} (h : e.Proper) :
    (∃ first others warned, e = .overlap first others warned) ↔ 2 ≤ e.locations.length := by
  cases e with
  | single first => simp [locations]
  | overlap first others warned =>
    have hpos : 0 < others.length := List.length_pos_of_ne_nil h
    simp [locations, Nat.succ_le_iff, hpos]

/-- Comparing segments is comparing texts, so the check of it never fails. -/
theorem answers_eq (check : Bool) (key : String) (e : Entry ω) :
    e.answers check key = .ok (e.path.render == key) := by
  have hhit : e.path.rendersAs key = (e.path.render == key) := by
    rw [Bool.eq_iff_iff, EntryPath.rendersAs_iff, beq_iff_eq]
  simp [answers, hhit]

theorem findIn_eq (check : Bool) (key : String) (es : List (Entry ω)) :
    findIn check key es = .ok (es.find? fun e => e.path.render == key) := by
  induction es with
  | nil => rfl
  | cons e rest ih =>
    rw [findIn, answers_eq, List.find?_cons]
    cases hk : e.path.render == key with
    | true => rfl
    | false => exact ih

theorem render_of_find? {key : String} {es : List (Entry ω)} {e : Entry ω}
    (h : (es.find? fun e => e.path.render == key) = some e) : e.path.render = key := by
  have hrender := List.find?_some h
  exact beq_iff_eq.1 hrender

theorem mem_putInto {l : Located ω} {es : List (Entry ω)} (hn : (es.map path).Nodup)
    {e : Entry ω} (he : e ∈ putInto l es) :
    (e ∈ es ∧ e.path ≠ l.path) ∨ (∃ e₀ ∈ es, e₀.path = l.path ∧ e = e₀.extend l) ∨
      (e = .single l ∧ l.path ∉ es.map path) := by
  induction es with
  | nil => exact .inr (.inr ⟨List.mem_singleton.1 he, by simp⟩)
  | cons x rest ih =>
    rw [List.map_cons, List.nodup_cons] at hn
    rw [putInto] at he
    by_cases hx : x.path = l.path
    · rw [if_pos (EntryPath.samePath_iff.2 hx)] at he
      rcases List.mem_cons.1 he with rfl | he
      · exact .inr (.inl ⟨x, List.mem_cons_self, hx, rfl⟩)
      · refine .inl ⟨List.mem_cons_of_mem _ he, fun heq => hn.1 ?_⟩
        rw [hx, ← heq]
        exact List.mem_map_of_mem he
    · rw [if_neg (fun h => hx (EntryPath.samePath_iff.1 h))] at he
      rcases List.mem_cons.1 he with rfl | he
      · exact .inl ⟨List.mem_cons_self, hx⟩
      · rcases ih hn.2 he with ⟨h, hp⟩ | ⟨e₀, h, hp⟩ | ⟨rfl, hp⟩
        · exact .inl ⟨List.mem_cons_of_mem _ h, hp⟩
        · exact .inr (.inl ⟨e₀, List.mem_cons_of_mem _ h, hp⟩)
        · refine .inr (.inr ⟨rfl, ?_⟩)
          rw [List.map_cons, List.mem_cons, not_or]
          exact ⟨fun h => hx h.symm, hp⟩

theorem map_path_putInto (l : Located ω) (es : List (Entry ω)) :
    (putInto l es).map path =
      if l.path ∈ es.map path then es.map path else es.map path ++ [l.path] := by
  induction es with
  | nil => rfl
  | cons x rest ih =>
    rw [putInto]
    by_cases hx : x.path = l.path
    · rw [if_pos (EntryPath.samePath_iff.2 hx), List.map_cons, path_extend, if_pos]
      · rfl
      · rw [List.map_cons, hx]
        exact List.mem_cons_self
    · have hx' : l.path ≠ x.path := fun h => hx h.symm
      rw [if_neg (fun h => hx (EntryPath.samePath_iff.1 h)), List.map_cons, ih, List.map_cons]
      by_cases hm : l.path ∈ rest.map path
      · rw [if_pos hm, if_pos (List.mem_cons_of_mem _ hm)]
      · rw [if_neg hm, if_neg (by simpa [hx'] using hm), List.cons_append]

theorem map_path_warnIn (key : String) (es : List (Entry ω)) :
    (warnIn key es).map path = es.map path := by
  induction es with
  | nil => rfl
  | cons x rest ih =>
    rw [warnIn]
    split
    · rw [List.map_cons, path_warn, List.map_cons]
    · rw [List.map_cons, ih, List.map_cons]

theorem mem_warnIn {key : String} {es : List (Entry ω)} {e : Entry ω} (he : e ∈ warnIn key es) :
    ∃ e₀ ∈ es, e = e₀ ∨ e = e₀.warn := by
  induction es with
  | nil => cases he
  | cons x rest ih =>
    rw [warnIn] at he
    split at he
    · rcases List.mem_cons.1 he with rfl | he
      · exact ⟨x, List.mem_cons_self, .inr rfl⟩
      · exact ⟨e, List.mem_cons_of_mem _ he, .inl rfl⟩
    · rcases List.mem_cons.1 he with rfl | he
      · exact ⟨e, List.mem_cons_self, .inl rfl⟩
      · obtain ⟨e₀, h, heq⟩ := ih he
        exact ⟨e₀, List.mem_cons_of_mem _ h, heq⟩

end Entry

/-- Locations of one path are left alone by a choice of paths that it belongs to. -/
theorem filter_path_filter {p : EntryPath → Bool} {path : EntryPath} (hp : p path)
    (log : List (Located ω)) :
    (log.filter fun l => p l.path).filter (fun l => l.path = path) =
      log.filter fun l => l.path = path := by
  rw [List.filter_filter]
  apply List.filter_congr
  intro l _
  by_cases hl : l.path = path
  · simp [hl, hp]
  · simp [hl]

/-- The entries hold the locations of `log`, those of each path in one entry and in order. -/
structure Groups (log : List (Located ω)) (es : List (Entry ω)) : Prop where
  nodup : (es.map Entry.path).Nodup
  locations : ∀ e ∈ es, e.locations = log.filter fun l => l.path = e.path
  covers : ∀ l ∈ log, l.path ∈ es.map Entry.path
  proper : ∀ e ∈ es, e.Proper

namespace Groups

variable {log : List (Located ω)} {es : List (Entry ω)}

theorem nil : Groups (ω := ω) [] [] := ⟨List.nodup_nil, by simp, by simp, by simp⟩

theorem first_mem (h : Groups log es) {e : Entry ω} (he : e ∈ es) : e.first ∈ log := by
  have hf := e.first_mem_locations
  rw [h.locations e he] at hf
  exact (List.mem_filter.1 hf).1

theorem putInto (h : Groups log es) (l : Located ω) :
    Groups (log ++ [l]) (Entry.putInto l es) where
  nodup := by
    rw [Entry.map_path_putInto]
    split
    · exact h.nodup
    next hl =>
      rw [List.nodup_append]
      refine ⟨h.nodup, List.nodup_singleton _, ?_⟩
      intro a ha b hb
      rw [List.mem_singleton.1 hb]
      exact fun heq => hl (heq ▸ ha)
  locations := by
    intro e he
    rw [List.filter_append]
    rcases Entry.mem_putInto h.nodup he with ⟨he, hp⟩ | ⟨e₀, he₀, hp, rfl⟩ | ⟨rfl, hl⟩
    · have hlast : [l].filter (fun l => l.path = e.path) = [] := by simp [Ne.symm hp]
      rw [h.locations e he, hlast, List.append_nil]
    · have hlast : [l].filter (fun l => l.path = e₀.path) = [l] := by simp [hp]
      rw [Entry.locations_extend, Entry.path_extend, h.locations e₀ he₀, hlast]
    · have hnone : log.filter (fun x => x.path = (Entry.single l).path) = [] := by
        rw [List.filter_eq_nil_iff]
        intro x hx heq
        have hpath : x.path = l.path := of_decide_eq_true heq
        exact hl (hpath ▸ h.covers x hx)
      rw [hnone]
      simp [Entry.locations]
  covers := by
    intro x hx
    rw [Entry.map_path_putInto]
    rcases List.mem_append.1 hx with hx | hx
    · split
      · exact h.covers x hx
      · exact List.mem_append_left _ (h.covers x hx)
    · rw [List.mem_singleton.1 hx]
      split
      · assumption
      · exact List.mem_append_right _ List.mem_cons_self
  proper := by
    intro e he
    rcases Entry.mem_putInto h.nodup he with ⟨he, -⟩ | ⟨e₀, -, -, rfl⟩ | ⟨rfl, -⟩
    · exact h.proper e he
    · exact Entry.Proper.extend e₀ l
    · trivial

theorem warnIn (h : Groups log es) (key : String) : Groups log (Entry.warnIn key es) where
  nodup := by rw [Entry.map_path_warnIn]; exact h.nodup
  locations := by
    intro e he
    obtain ⟨e₀, he₀, rfl | rfl⟩ := Entry.mem_warnIn he
    · exact h.locations e he₀
    · rw [Entry.locations_warn, Entry.path_warn]
      exact h.locations e₀ he₀
  covers := by rw [Entry.map_path_warnIn]; exact h.covers
  proper := by
    intro e he
    obtain ⟨e₀, he₀, rfl | rfl⟩ := Entry.mem_warnIn he
    · exact h.proper e he₀
    · exact (h.proper e₀ he₀).warn

theorem filter (h : Groups log es) (p : EntryPath → Bool) :
    Groups (log.filter fun l => p l.path) (es.filter fun e => p e.path) where
  nodup := h.nodup.sublist (List.filter_sublist.map Entry.path)
  locations := by
    intro e he
    obtain ⟨he, hp⟩ := List.mem_filter.1 he
    rw [h.locations e he, filter_path_filter hp]
  covers := by
    intro l hl
    obtain ⟨hl, hp⟩ := List.mem_filter.1 hl
    obtain ⟨e, he, heq⟩ := List.mem_map.1 (h.covers l hl)
    rw [← heq] at hp ⊢
    exact List.mem_map_of_mem (List.mem_filter.2 ⟨he, hp⟩)
  proper := fun e he => h.proper e (List.mem_filter.1 he).1

end Groups

/-- Paths without empty names or slashes in them are told apart by what they render as. -/
theorem filter_path_of_plain {log : List (Located ω)} (hplain : ∀ l ∈ log, l.path.Plain)
    {path : EntryPath} (hpath : path.Plain) :
    (log.filter fun l => l.path = path) = log.filter fun l => l.path.render = path.render := by
  apply List.filter_congr
  intro l hl
  rw [decide_eq_decide]
  exact ⟨fun heq => heq ▸ rfl, fun heq => (hplain l hl).render_inj hpath heq⟩

/-- What a key has to find when `log` was put: the locations of one path that renders as it. -/
structure Answers (log : List (Located ω)) (key : String) (found : Option (Entry ω)) : Prop where
  none_iff : found = none ↔ ∀ l ∈ log, l.path.render ≠ key
  renders : ∀ e, found = some e → e.path.render = key
  locations : ∀ e, found = some e → e.locations = log.filter fun l => l.path = e.path
  proper : ∀ e, found = some e → e.Proper

/-- A bucket answers for all that was put if the key's paths belong to it. -/
theorem Groups.answers {log : List (Located ω)} {es : List (Entry ω)} {p : EntryPath → Bool}
    {key : String} (h : Groups (log.filter fun l => p l.path) es)
    (hp : ∀ path : EntryPath, path.render = key → p path) :
    Answers log key (es.find? fun e => e.path.render == key) where
  none_iff := by
    rw [List.find?_eq_none]
    constructor
    · intro hn l hl heq
      obtain ⟨e, he, hpath⟩ := List.mem_map.1 (h.covers l (List.mem_filter.2 ⟨hl, hp _ heq⟩))
      exact hn e he (by rw [hpath, heq, beq_self_eq_true])
    · intro hn e he heq
      exact hn e.first (List.mem_filter.1 (h.first_mem he)).1 (beq_iff_eq.1 heq)
  renders := fun _ he => Entry.render_of_find? he
  locations := by
    intro e he
    have hkey : p e.path := hp _ (Entry.render_of_find? he)
    rw [h.locations e (List.mem_of_find?_eq_some he), filter_path_filter hkey]
  proper := by
    intro e he
    exact h.proper e (List.mem_of_find?_eq_some he)

namespace Answers

variable {log : List (Located ω)} {key : String} {e : Entry ω}

theorem mem_locations (h : Answers log key (some e)) {l : Located ω} :
    l ∈ e.locations ↔ l ∈ log ∧ l.path = e.path := by
  rw [h.locations e rfl, List.mem_filter, decide_eq_true_iff]

/-- Among paths without empty names or slashes in them, one path renders as the key. -/
theorem locations_of_plain (h : Answers log key (some e)) (hplain : ∀ l ∈ log, l.path.Plain) :
    e.locations = log.filter fun l => l.path.render = key := by
  have hfirst : e.path.Plain := hplain _ (h.mem_locations.1 e.first_mem_locations).1
  rw [h.locations e rfl, filter_path_of_plain hplain hfirst, h.renders e rfl]

end Answers

namespace Node

def contents : Option (Node ω) → List (Entry ω)
  | none => []
  | some node => node.entries

theorem entries_put (node : Option (Node ω)) (l : Located ω) :
    (put node l).entries = Entry.putInto l (contents node) := by
  cases node with
  | none => rfl
  | some node =>
    cases node with
    | entry e =>
      simp only [put, contents]
      by_cases hp : e.path.samePath l.path
      · simp only [if_pos hp, entries, Entry.putInto]
      · simp only [if_neg hp, entries, Entry.putInto]
    | collision es => rfl

theorem entries_append (node : Option (Node ω)) (e : Entry ω) :
    (append node e).entries = contents node ++ [e] := by
  cases node <;> rfl

theorem entries_warn (key : String) (node : Node ω) :
    (node.warn key).entries = Entry.warnIn key node.entries := by
  cases node with
  | entry e =>
    by_cases hp : e.path.rendersAs key
    · simp only [warn, if_pos hp, entries, Entry.warnIn]
    · simp only [warn, if_neg hp, entries, Entry.warnIn]
  | collision es => rfl

theorem contents_warn (key : String) (node : Option (Node ω)) :
    contents (node.map (warn key)) = Entry.warnIn key (contents node) := by
  cases node with
  | none => rfl
  | some node => exact entries_warn key node

end Node

end Overlay
