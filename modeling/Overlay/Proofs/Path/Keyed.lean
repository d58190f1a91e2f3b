import Std.Data.TreeMap
import Overlay.Proofs.Path.Rendering

/-!
# Maps from the texts of paths

Trees in memory and archives keep what they have in maps from absolute paths. Such a map is `Keyed`
if every entry stands under the text of its own path; then a path leads to the entry that has it,
and to no other.
-/

namespace Overlay

variable {α : Type}

def Keyed (path : α → EntryPath) (map : Std.TreeMap String α) : Prop :=
  ∀ (key : String) (entry : α), map[key]? = some entry →
    (path entry).render = key ∧ (path entry).Plain

theorem getElem?_insert (map : Std.TreeMap String α) (key other : String) (entry : α) :
    (map.insert key entry)[other]? = if key = other then some entry else map[other]? := by
  simp only [Std.TreeMap.getElem?_insert, Std.LawfulEqCmp.compare_eq_iff_eq]

namespace Keyed

variable {path : α → EntryPath} {map : Std.TreeMap String α}

theorem empty (path : α → EntryPath) : Keyed path ∅ := fun key entry hget => by simp at hget

theorem insert (h : Keyed path map) (entry : α) (hplain : (path entry).Plain) :
    Keyed path (map.insert (path entry).render entry) := by
  intro key other hget
  rw [getElem?_insert] at hget
  split at hget
  next hkey =>
    cases hget
    exact ⟨hkey, hplain⟩
  next => exact h key other hget

theorem path_eq (h : Keyed path map) {p : EntryPath} {entry : α} (hplain : p.Plain)
    (hget : map[p.render]? = some entry) : path entry = p :=
  (h _ _ hget).2.render_inj hplain (h _ _ hget).1

section Paths

theorem mem_paths {p : EntryPath} : p ∈ map.toList.map (fun e => path e.2) ↔
    ∃ (key : String) (entry : α), map[key]? = some entry ∧ path entry = p := by
  simp only [List.mem_map, Prod.exists, Std.TreeMap.mem_toList_iff_getElem?_eq_some]

theorem plain_of_mem (h : Keyed path map) {p : EntryPath}
    (hp : p ∈ map.toList.map fun e => path e.2) : p.Plain := by
  obtain ⟨key, entry, hget, rfl⟩ := mem_paths.1 hp
  exact (h key entry hget).2

/-- A key leads to the one path that has it as its text, if that path is there. -/
theorem resolves (h : Keyed path map) {key : String} {p : EntryPath} :
    map[key]?.map path = some p ↔ p ∈ map.toList.map (fun e => path e.2) ∧ p.render = key := by
  rw [Option.map_eq_some_iff, mem_paths]
  constructor
  · rintro ⟨entry, hget, rfl⟩
    exact ⟨⟨key, entry, hget, rfl⟩, (h key entry hget).1⟩
  · rintro ⟨⟨other, entry, hget, rfl⟩, hrender⟩
    obtain rfl : other = key := (h other entry hget).1.symm.trans hrender
    exact ⟨entry, hget, rfl⟩

end Paths

end Keyed

end Overlay
