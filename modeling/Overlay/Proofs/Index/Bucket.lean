import Overlay.Proofs.Index.Shape

/-!
# Buckets filled location by location

A bucket that is filled from empty has one entry for each path, in the order in which the paths came
first, and in every entry the locations of its path in the order of the puts. It is a collision as
soon as there are two paths, and the entry itself before. All of this is carried by `Groups` and by
what a put does to the paths of the entries, so the history of a bucket is gone through only for
these: `ofLocations_exact` reads the rest off them.
-/

namespace Overlay

variable {ω : Type}

theorem eraseDups_concat {α : Type} [DecidableEq α] (xs : List α) (a : α) :
    (xs ++ [a]).eraseDups = if a ∈ xs then xs.eraseDups else xs.eraseDups ++ [a] := by
  rw [List.eraseDups_append]
  by_cases ha : a ∈ xs
  · simp [List.removeAll, ha]
  · simp [List.removeAll, ha, List.eraseDups_cons]

/-- Values that are told apart by their images occur again where these do. -/
theorem map_eraseDups {α β : Type} [DecidableEq α] [DecidableEq β] {f : α → β} {xs : List α}
    (hf : ∀ a ∈ xs, ∀ b ∈ xs, f a = f b → a = b) : xs.eraseDups.map f = (xs.map f).eraseDups := by
  induction xs using List.reverseRecOn with
  | nil => rfl
  | append_singleton xs a ih =>
    have hmem : f a ∈ xs.map f ↔ a ∈ xs := by
      refine ⟨fun h => ?_, List.mem_map_of_mem⟩
      obtain ⟨b, hb, heq⟩ := List.mem_map.1 h
      rwa [← hf b (List.mem_append_left _ hb) a (List.mem_append_right _ List.mem_cons_self) heq]
    have hrest := ih fun b hb c hc =>
      hf b (List.mem_append_left _ hb) c (List.mem_append_left _ hc)
    rw [List.map_append, List.map_singleton, eraseDups_concat, eraseDups_concat]
    by_cases ha : a ∈ xs
    · rw [if_pos ha, if_pos (hmem.2 ha), hrest]
    · rw [if_neg ha, if_neg (mt hmem.1 ha), List.map_append, hrest, List.map_singleton]

/-- The texts of the paths that were put, in the order in which they came first. -/
def keysOf (log : List (Located ω)) : List String :=
  (log.map fun l => l.path.render).eraseDups

namespace Groups

variable {log : List (Located ω)} {es : List (Entry ω)}

theorem locations_of_plain (h : Groups log es) (hplain : ∀ l ∈ log, l.path.Plain) {e : Entry ω}
    (he : e ∈ es) : e.locations = putUnder e.path.render log := by
  rw [h.locations e he]
  exact filter_path_of_plain hplain (hplain _ (h.first_mem he))

/-- A key is that of a single entry. -/
theorem find?_eq_some_iff (h : Groups log es) (hplain : ∀ l ∈ log, l.path.Plain) {key : String}
    {e : Entry ω} :
    (es.find? fun e => e.path.render == key) = some e ↔ e ∈ es ∧ e.path.render = key := by
  constructor
  · intro hfound
    exact ⟨List.mem_of_find?_eq_some hfound, Entry.render_of_find? hfound⟩
  · rintro ⟨he, rfl⟩
    cases hfound : es.find? fun x => x.path.render == e.path.render with
    | none => exact absurd (beq_self_eq_true _) (List.find?_eq_none.1 hfound e he)
    | some x =>
      have hx := List.mem_of_find?_eq_some hfound
      have hpath : x.path = e.path :=
        (hplain _ (h.first_mem hx)).render_inj (hplain _ (h.first_mem he))
          (Entry.render_of_find? hfound)
      rw [List.inj_on_of_nodup_map h.nodup hx he hpath]

end Groups

namespace Node

def ofLocations (log : List (Located ω)) : Option (Node ω) :=
  log.foldl (fun node l => some (put node l)) none

theorem ofLocations_concat (log : List (Located ω)) (l : Located ω) :
    ofLocations (log ++ [l]) = some (put (ofLocations log) l) := by
  rw [ofLocations, List.foldl_concat]
  rfl

theorem contents_ofLocations_concat (log : List (Located ω)) (l : Located ω) :
    contents (ofLocations (log ++ [l])) = Entry.putInto l (contents (ofLocations log)) := by
  rw [ofLocations_concat]
  exact entries_put _ l

theorem groups_ofLocations (log : List (Located ω)) : Groups log (contents (ofLocations log)) := by
  induction log using List.reverseRecOn with
  | nil => exact Groups.nil
  | append_singleton log l ih =>
    rw [contents_ofLocations_concat]
    exact ih.putInto l

theorem proper_ofLocations (log : List (Located ω)) : ∀ node ∈ ofLocations log, node.Proper := by
  induction log using List.reverseRecOn with
  | nil => exact fun _ h => by cases h
  | append_singleton log l ih =>
    rw [ofLocations_concat]
    rintro _ ⟨⟩
    exact .put ih l

theorem map_path_ofLocations (log : List (Located ω)) :
    (contents (ofLocations log)).map Entry.path = (log.map Located.path).eraseDups := by
  induction log using List.reverseRecOn with
  | nil => rfl
  | append_singleton log l ih =>
    rw [contents_ofLocations_concat, Entry.map_path_putInto, ih, List.map_append,
      List.map_singleton, eraseDups_concat]
    simp only [List.mem_eraseDups]

theorem map_render_ofLocations {log : List (Located ω)} (hplain : ∀ l ∈ log, l.path.Plain) :
    (contents (ofLocations log)).map (fun e => e.path.render) = keysOf log := by
  have hinj : ∀ p ∈ log.map Located.path, ∀ q ∈ log.map Located.path,
      p.render = q.render → p = q := by
    intro _ hp _ hq heq
    obtain ⟨l, hl, rfl⟩ := List.mem_map.1 hp
    obtain ⟨m, hm, rfl⟩ := List.mem_map.1 hq
    exact (hplain l hl).render_inj (hplain m hm) heq
  calc (contents (ofLocations log)).map (fun e => e.path.render)
      = ((contents (ofLocations log)).map Entry.path).map EntryPath.render := by
        rw [List.map_map]
        rfl
    _ = ((log.map Located.path).map EntryPath.render).eraseDups := by
        rw [map_path_ofLocations, map_eraseDups hinj]
    _ = keysOf log := by
        rw [List.map_map]
        rfl

section

variable {node : Option (Node ω)}

theorem exists_entry_iff (h : ∀ n ∈ node, n.Proper) :
    (∃ e, node = some (.entry e)) ↔ (contents node).length = 1 := by
  rcases node with _ | e | es
  · simp [contents]
  · simp [contents, entries]
  · have hes : 2 ≤ es.length := h _ rfl
    have hne : es.length ≠ 1 := by omega
    simp [contents, entries, hne]

theorem exists_collision_iff (h : ∀ n ∈ node, n.Proper) :
    (∃ es, node = some (.collision es)) ↔ 2 ≤ (contents node).length := by
  rcases node with _ | e | es
  · simp [contents]
  · simp [contents, entries]
  · have hes : 2 ≤ es.length := h _ rfl
    simp [contents, entries, hes]

end

theorem ofLocations_eq_none_iff {log : List (Located ω)} : ofLocations log = none ↔ log = [] := by
  rcases log.eq_nil_or_concat' with rfl | ⟨log, l, rfl⟩
  · exact iff_of_true rfl rfl
  · rw [ofLocations_concat]
    simp

/-- A bucket that is filled from empty groups what was put by the texts of the paths, these in the
order in which they came first and every group in the order of the puts. It is an entry if there is
one path, and a list of entries if there are several. A key finds the entry whose path renders as
it, whether or not the comparison is checked. -/
theorem ofLocations_exact (log : List (Located ω)) (hplain : ∀ l ∈ log, l.path.Plain) :
    (contents (ofLocations log)).map (fun e => (e.path.render, e.locations)) =
      (keysOf log).map (fun key => (key, putUnder key log)) ∧
    (ofLocations log = none ↔ log = []) ∧
    ((∃ e, ofLocations log = some (.entry e)) ↔ (keysOf log).length = 1) ∧
    ((∃ es, ofLocations log = some (.collision es)) ↔ 2 ≤ (keysOf log).length) ∧
    (∀ e ∈ contents (ofLocations log),
      (∃ l, e = .single l) ↔ (putUnder e.path.render log).length = 1) ∧
    ∀ node ∈ ofLocations log, ∀ (check : Bool) (key : String),
      ∃ found, node.find check key = .ok found ∧
        ∀ e, found = some e ↔ e ∈ node.entries ∧ e.path.render = key := by
  have hgroups := groups_ofLocations log
  have hkeys := map_render_ofLocations hplain
  have hlength : (contents (ofLocations log)).length = (keysOf log).length := by
    rw [← hkeys, List.length_map]
  refine ⟨?_, ofLocations_eq_none_iff, ?_, ?_, fun e he => ?_, fun node hnode check key => ?_⟩
  · rw [← hkeys, List.map_map]
    apply List.map_congr_left
    intro e he
    exact congrArg (e.path.render, ·) (hgroups.locations_of_plain hplain he)
  · rw [exists_entry_iff (proper_ofLocations log), hlength]
  · rw [exists_collision_iff (proper_ofLocations log), hlength]
  · rw [← hgroups.locations_of_plain hplain he]
    exact (hgroups.proper e he).single_iff
  · have hentries : contents (ofLocations log) = node.entries := by
      rw [Option.mem_def.1 hnode]
      rfl
    rw [hentries] at hgroups
    exact ⟨_, Entry.findIn_eq check key node.entries, fun e => hgroups.find?_eq_some_iff hplain⟩

/-- Two paths of one hash and one of another, the first of them put twice. -/
theorem ofLocations_exact_colliding :
    let log : List (Located Nat) :=
      [⟨.ofNames ["Aa"], 0⟩, ⟨.ofNames ["BB"], 1⟩, ⟨.ofNames ["c", "d"], 2⟩, ⟨.ofNames ["Aa"], 3⟩]
    (∀ l ∈ log, l.path.Plain) ∧ hashText "/Aa" = hashText "/BB" ∧
      keysOf log = ["/Aa", "/BB", "/c/d"] ∧
      (∃ es, ofLocations log = some (.collision es)) ∧
      (contents (ofLocations log)).map (fun e => (e.path.render, e.locations)) =
        (keysOf log).map fun key => (key, putUnder key log) := by
  intro log
  have hplain : ∀ l ∈ log, l.path.Plain := by decide
  have hkeys : keysOf log = ["/Aa", "/BB", "/c/d"] := by decide +kernel
  obtain ⟨hentries, -, -, hcollision, -⟩ := ofLocations_exact log hplain
  refine ⟨hplain, by decide +kernel, hkeys, hcollision.2 ?_, hentries⟩
  rw [hkeys]
  decide

end Node

end Overlay
