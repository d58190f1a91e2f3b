import Mathlib.Data.List.Induction
import Overlay.Proofs.Index.Representations

/-!
# When an ambiguity is to be reported

Two kinds of incidents bear on what a key finds, that a location is put and that a key is asked for,
and `Incident.react` says how. Puts and warnings do this to either representation of the index;
growth and room made up front do nothing, since they keep the mark of every entry they move.

`Unreported` says of a history of incidents that a location came behind another of its path and that
the key was not asked for since. What a key finds after a history has an ambiguity that was not
reported if and only if this holds of its path: `Incident.recalled`.
-/

namespace Overlay

variable {ω : Type}

namespace Entry

@[simp] theorem unwarned_extend (e : Entry ω) (l : Located ω) : (e.extend l).unwarned = true := by
  cases e <;> rfl

@[simp] theorem unwarned_warn (e : Entry ω) : e.warn.unwarned = false := by
  cases e <;> rfl

theorem warn_eq_self {e : Entry ω} (h : e.unwarned = false) : e.warn = e := by
  cases e with
  | single l => rfl
  | overlap first others warned =>
    cases warned with
    | true => rfl
    | false => cases h

end Entry

inductive Incident (ω : Type) where
  | put (location : Located ω)
  /-- A key is asked for, and its ambiguity reported. -/
  | ask (key : String)

namespace Incident

def key : Incident ω → String
  | put location => location.path.render
  | ask key => key

/-- What a key finds after an incident, by what it found before. -/
def react (key : String) (found : Option (Entry ω)) : Incident ω → Option (Entry ω)
  | put location => match found with
    | some e => some (if e.path = location.path then e.extend location else e)
    | none => if location.path.render = key then some (.single location) else none
  | ask asked => if asked = key then found.map Entry.warn else found

/-- An incident about another key, of the same hash or not, is of no effect. -/
theorem react_of_ne {key : String} {found : Option (Entry ω)}
    (hrender : ∀ e, found = some e → e.path.render = key) {i : Incident ω} (hne : i.key ≠ key) :
    react key found i = found := by
  cases i with
  | ask asked => exact if_neg hne
  | put l =>
    cases found with
    | none => exact if_neg hne
    | some e =>
      have hpath : e.path ≠ l.path := fun heq =>
        hne ((congrArg EntryPath.render heq).symm.trans (hrender e rfl))
      exact congrArg some (if_neg hpath)

theorem foldl_react_of_ne {key : String} {found : Option (Entry ω)}
    (hrender : ∀ e, found = some e → e.path.render = key) {past : List (Incident ω)}
    (hne : ∀ i ∈ past, i.key ≠ key) : past.foldl (react key) found = found := by
  induction past with
  | nil => rfl
  | cons i rest ih =>
    obtain ⟨hi, hrest⟩ := List.forall_mem_cons.1 hne
    rw [List.foldl_cons, react_of_ne hrender hi, ih hrest]

/-- What was reported is not reported again. -/
theorem react_ask_ask (key asked : String) (found : Option (Entry ω)) :
    react key (react key found (.ask asked)) (.ask asked) = react key found (.ask asked) := by
  by_cases hkey : asked = key
  · have hwarn : ∀ e : Entry ω, e.warn.warn = e.warn := fun e => Entry.warn_eq_self e.unwarned_warn
    simp only [react, if_pos hkey, Option.map_map, Function.comp_def, hwarn]
  · simp only [react, if_neg hkey]

end Incident

namespace Entry

theorem find?_putInto (key : String) (l : Located ω) (es : List (Entry ω)) :
    ((putInto l es).find? fun e => e.path.render == key) =
      Incident.react key (es.find? fun e => e.path.render == key) (.put l) := by
  induction es with
  | nil =>
    by_cases hl : l.path.render = key <;> simp [putInto, Incident.react, hl]
  | cons x rest ih =>
    rw [putInto, List.find?_cons]
    by_cases hpath : x.path = l.path
    · rw [if_pos (EntryPath.samePath_iff.2 hpath), List.find?_cons, path_extend]
      cases hx : x.path.render == key with
      | true => simp only [Incident.react, if_pos hpath]
      | false =>
        -- the entry that is found is another one, since the path does not render as the key
        have hl : l.path.render ≠ key := hpath ▸ ne_of_beq_false hx
        exact (Incident.react_of_ne (i := .put l) (fun _ he => render_of_find? he) hl).symm
    · rw [if_neg fun h => hpath (EntryPath.samePath_iff.1 h), List.find?_cons]
      cases hx : x.path.render == key with
      | true => simp only [Incident.react, if_neg hpath]
      | false => exact ih

theorem find?_warnIn (key asked : String) (es : List (Entry ω)) :
    ((warnIn asked es).find? fun e => e.path.render == key) =
      Incident.react key (es.find? fun e => e.path.render == key) (.ask asked) := by
  induction es with
  | nil => simp [warnIn, Incident.react]
  | cons x rest ih =>
    rw [warnIn, List.find?_cons]
    by_cases hasked : x.path.render = asked
    · rw [if_pos (EntryPath.rendersAs_iff.2 hasked), List.find?_cons, path_warn]
      cases hx : x.path.render == key with
      | true =>
        have heq : asked = key := hasked.symm.trans (beq_iff_eq.1 hx)
        simp only [Incident.react, if_pos heq, Option.map_some]
      | false =>
        have hne : asked ≠ key := hasked ▸ ne_of_beq_false hx
        simp only [Incident.react, if_neg hne]
    · rw [if_neg fun h => hasked (EntryPath.rendersAs_iff.1 h), List.find?_cons]
      cases hx : x.path.render == key with
      | true =>
        have hne : asked ≠ key := fun heq => hasked ((beq_iff_eq.1 hx).trans heq.symm)
        simp only [Incident.react, if_neg hne]
      | false => exact ih

end Entry

namespace Index

variable {index : Index ω} {log : List (Located ω)} {key : String} {found : Option (Entry ω)}

theorem render_of_find (h : index.find key = .ok found) :
    ∀ e, found = some e → e.path.render = key := by
  rintro e rfl
  rw [find_eq_hashed, Except.ok.injEq] at h
  exact Entry.render_of_find? h

theorem Holds.find_put (hholds : index.Holds log) (h : index.find key = .ok found)
    (l : Located ω) : (index.put l).value.find key = .ok (Incident.react key found (.put l)) := by
  have hrender := render_of_find h
  rw [find_eq_hashed, Except.ok.injEq] at h
  rw [find_eq_hashed, hholds.hashed_put]
  split
  · rw [Entry.find?_putInto, h]
  next hhash =>
    have hne : l.path.render ≠ key := fun heq => hhash (by rw [EntryPath.hash_eq, heq])
    rw [h, Incident.react_of_ne (i := .put l) hrender hne]

theorem Holds.find_reserve (hholds : index.Holds log) (count : Nat) (key : String) :
    (index.reserve count).value.find key = index.find key := by
  rw [find_eq_hashed, find_eq_hashed, hholds.hashed_reserve]

theorem find_warn (h : index.find key = .ok found) (asked : String) :
    (index.warn asked).find key = .ok (Incident.react key found (.ask asked)) := by
  have hrender := render_of_find h
  rw [find_eq_hashed, Except.ok.injEq] at h
  rw [find_eq_hashed, hashed_warn]
  split
  · rw [Entry.find?_warnIn, h]
  next hhash =>
    have hne : asked ≠ key := fun heq => hhash (by rw [heq])
    rw [h, Incident.react_of_ne (i := .ask asked) hrender hne]

end Index

/-- A location came behind another of its path, and the key was not asked for since. -/
def Unreported (key : String) (path : EntryPath) (past : List (Incident ω)) : Prop :=
  ∃ before l after, past = before ++ .put l :: after ∧ l.path = path ∧
    (∃ earlier, .put earlier ∈ before ∧ earlier.path = path) ∧ .ask key ∉ after

theorem unreported_concat {key : String} {path : EntryPath} {past : List (Incident ω)}
    {i : Incident ω} :
    Unreported key path (past ++ [i]) ↔
      (∃ l, i = .put l ∧ l.path = path ∧ ∃ earlier, .put earlier ∈ past ∧ earlier.path = path) ∨
        (i ≠ .ask key ∧ Unreported key path past) := by
  constructor
  · rintro ⟨before, l, after, heq, hpath, hearlier, hask⟩
    rcases after.eq_nil_or_concat' with rfl | ⟨after, last, rfl⟩
    · obtain ⟨rfl, hlast⟩ := List.append_inj' heq rfl
      obtain rfl := List.singleton_inj.1 hlast
      exact .inl ⟨l, rfl, hpath, hearlier⟩
    · rw [← List.cons_append, ← List.append_assoc] at heq
      obtain ⟨rfl, hlast⟩ := List.append_inj' heq rfl
      obtain rfl := List.singleton_inj.1 hlast
      rw [List.mem_append, List.mem_singleton, not_or] at hask
      exact .inr ⟨fun h => hask.2 h.symm, before, l, after, rfl, hpath, hearlier, hask.1⟩
  · rintro (⟨l, rfl, hpath, hearlier⟩ | ⟨hi, before, l, after, rfl, hpath, hearlier, hask⟩)
    · exact ⟨past, l, [], rfl, hpath, hearlier, List.not_mem_nil⟩
    · refine ⟨before, l, after ++ [i], ?_, hpath, hearlier, ?_⟩
      · rw [List.append_assoc, List.cons_append]
      · rw [List.mem_append, List.mem_singleton, not_or]
        exact ⟨hask, fun h => hi h.symm⟩

theorem unreported_put {key : String} {path : EntryPath} {past : List (Incident ω)}
    {l : Located ω} :
    Unreported key path (past ++ [.put l]) ↔
      (l.path = path ∧ ∃ earlier, .put earlier ∈ past ∧ earlier.path = path) ∨
        Unreported key path past := by
  simp [unreported_concat]

theorem unreported_ask {key asked : String} {path : EntryPath} {past : List (Incident ω)} :
    Unreported key path (past ++ [.ask asked]) ↔ asked ≠ key ∧ Unreported key path past := by
  simp [unreported_concat]

theorem Unreported.exists_put {key : String} {path : EntryPath} {past : List (Incident ω)}
    (h : Unreported key path past) : ∃ l, .put l ∈ past ∧ l.path = path := by
  obtain ⟨before, l, after, rfl, hpath, -⟩ := h
  exact ⟨l, List.mem_append_right _ List.mem_cons_self, hpath⟩

namespace Incident

structure Recalled (key : String) (past : List (Incident ω)) (found : Option (Entry ω)) : Prop where
  absent : found = none → ∀ l, .put l ∈ past → l.path.render ≠ key
  renders : ∀ e, found = some e → e.path.render = key
  put : ∀ e, found = some e → ∃ l, .put l ∈ past ∧ l.path = e.path
  unwarned : ∀ e, found = some e → (e.unwarned = true ↔ Unreported key e.path past)

namespace Recalled

variable {key : String} {past : List (Incident ω)} {found : Option (Entry ω)}

theorem put_none (h : Recalled key past none) (l : Located ω) :
    Recalled key (past ++ [.put l]) (react key none (.put l)) := by
  by_cases hl : l.path.render = key
  · rw [react, if_pos hl]
    refine ⟨nofun, ?_, ?_, ?_⟩
    · rintro _ ⟨⟩
      exact hl
    · rintro _ ⟨⟩
      exact ⟨l, List.mem_concat_self, rfl⟩
    · rintro _ ⟨⟩
      -- whatever came before of the path would have been found
      have hnew : ∀ x, .put x ∈ past → x.path ≠ l.path := fun x hx heq =>
        h.absent rfl x hx ((congrArg EntryPath.render heq).trans hl)
      rw [unreported_put]
      refine ⟨nofun, ?_⟩
      rintro (⟨-, x, hx, heq⟩ | hold)
      · exact absurd heq (hnew x hx)
      · obtain ⟨x, hx, heq⟩ := hold.exists_put
        exact absurd heq (hnew x hx)
  · rw [react, if_neg hl]
    refine ⟨fun _ x hx => ?_, nofun, nofun, nofun⟩
    rcases List.mem_append.1 hx with hold | hlast
    · exact h.absent rfl x hold
    · obtain rfl := Incident.put.inj (List.mem_singleton.1 hlast)
      exact hl

theorem put_some {e : Entry ω} (h : Recalled key past (some e)) (l : Located ω) :
    Recalled key (past ++ [.put l]) (react key (some e) (.put l)) := by
  obtain ⟨x, hx, hxe⟩ := h.put e rfl
  by_cases hpath : e.path = l.path
  · rw [react, if_pos hpath]
    refine ⟨nofun, ?_, ?_, ?_⟩
    · rintro _ ⟨⟩
      rw [Entry.path_extend]
      exact h.renders e rfl
    · rintro _ ⟨⟩
      rw [Entry.path_extend]
      exact ⟨l, List.mem_concat_self, hpath.symm⟩
    · rintro _ ⟨⟩
      rw [Entry.path_extend, unreported_put]
      exact ⟨fun _ => .inl ⟨hpath.symm, x, hx, hxe⟩, fun _ => e.unwarned_extend l⟩
  · rw [react, if_neg hpath]
    refine ⟨nofun, h.renders, ?_, ?_⟩
    · rintro _ ⟨⟩
      exact ⟨x, List.mem_append_left _ hx, hxe⟩
    · rintro _ ⟨⟩
      rw [h.unwarned e rfl, unreported_put]
      exact (or_iff_right fun hput => hpath hput.1.symm).symm

theorem ask (h : Recalled key past found) (asked : String) :
    Recalled key (past ++ [.ask asked]) (react key found (.ask asked)) := by
  have habsent : found = none → ∀ l, .put l ∈ past ++ [.ask asked] → l.path.render ≠ key :=
    fun hnone l hl => by
      rcases List.mem_append.1 hl with hold | hlast
      · exact h.absent hnone l hold
      · cases List.mem_singleton.1 hlast
  have hput : ∀ e, found = some e → ∃ l, .put l ∈ past ++ [.ask asked] ∧ l.path = e.path :=
    fun e he => by
      obtain ⟨l, hl, hle⟩ := h.put e he
      exact ⟨l, List.mem_append_left _ hl, hle⟩
  by_cases hkey : asked = key
  · rw [react, if_pos hkey]
    refine ⟨fun hnone => habsent (Option.map_eq_none_iff.1 hnone), ?_, ?_, ?_⟩
    · intro _ hwarned
      obtain ⟨e, he, rfl⟩ := Option.map_eq_some_iff.1 hwarned
      rw [Entry.path_warn]
      exact h.renders e he
    · intro _ hwarned
      obtain ⟨e, he, rfl⟩ := Option.map_eq_some_iff.1 hwarned
      rw [Entry.path_warn]
      exact hput e he
    · intro _ hwarned
      obtain ⟨e, he, rfl⟩ := Option.map_eq_some_iff.1 hwarned
      rw [Entry.unwarned_warn, unreported_ask]
      exact ⟨nofun, fun hask => absurd hkey hask.1⟩
  · rw [react, if_neg hkey]
    refine ⟨habsent, h.renders, hput, fun e he => ?_⟩
    rw [h.unwarned e he, unreported_ask]
    exact (and_iff_right hkey).symm

theorem react (h : Recalled key past found) (i : Incident ω) :
    Recalled key (past ++ [i]) (react key found i) := by
  cases i with
  | ask asked => exact h.ask asked
  | put l =>
    cases found with
    | none => exact h.put_none l
    | some e => exact h.put_some l

end Recalled

theorem recalled (key : String) (past : List (Incident ω)) :
    Recalled key past (past.foldl (react key) none) := by
  induction past using List.reverseRecOn with
  | nil => exact ⟨fun _ l hl => absurd hl List.not_mem_nil, nofun, nofun, nofun⟩
  | append_singleton past i ih =>
    rw [List.foldl_append]
    exact ih.react i

end Incident

end Overlay
