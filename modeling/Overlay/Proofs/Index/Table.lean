import Mathlib.Data.List.Nodup
import Overlay.Index.Table
import Overlay.Proofs.Index.Grouping

/-!
# The path table as a multimap

`Holds t log` says that every bucket of the table groups those locations of `log` whose paths
belong to it. It is kept by puts, by reports of an ambiguity, and by growth, which moves whole
entries: an entry belongs to one bucket before and to one bucket after. What a key finds then
depends on `log` alone, however the paths collide and however often the table has grown.
-/

namespace Overlay.PathTable

variable {ω : Type}

def home (bits : Nat) (path : EntryPath) : Nat := slot bits path.hash

def entriesAt (t : PathTable ω) (i : Nat) : List (Entry ω) :=
  (t.buckets[i]?).elim [] Node.contents

theorem buckets_slot (t : PathTable ω) (hash : UInt32) :
    t.buckets[(slot t.bits hash).val]? = some (t.bucket hash) :=
  Vector.getElem?_eq_getElem (slot t.bits hash).isLt

theorem contents_bucket (t : PathTable ω) (hash : UInt32) :
    Node.contents (t.bucket hash) = t.entriesAt (slot t.bits hash) := by
  rw [entriesAt, buckets_slot]
  rfl

theorem buckets_update (t : PathTable ω) (hash : UInt32)
    (f : Option (Node ω) → Option (Node ω)) (i : Nat) :
    (t.update hash f).buckets[i]? =
      if slot t.bits hash = i then some (f (t.bucket hash)) else t.buckets[i]? := by
  have hlt := (slot t.bits hash).isLt
  change ((t.buckets.set (slot t.bits hash) none).set (slot t.bits hash)
    (f (t.bucket hash)))[i]? = _
  split
  next heq =>
    subst heq
    rw [Vector.getElem?_set_self]
  next hne => rw [Vector.getElem?_set_ne _ hne, Vector.getElem?_set_ne _ hne]

theorem entriesAt_update (t : PathTable ω) (hash : UInt32)
    (f : Option (Node ω) → Option (Node ω)) (i : Nat) :
    (t.update hash f).entriesAt i =
      if slot t.bits hash = i then Node.contents (f (t.bucket hash)) else t.entriesAt i := by
  rw [entriesAt, buckets_update]
  split
  · rfl
  · rfl

theorem find_eq (t : PathTable ω) (check : Bool) (key : String) :
    t.find check key = .ok ((t.entriesAt (slot t.bits (hashText key))).find? fun e =>
      e.path.render == key) := by
  rw [← contents_bucket, find]
  cases t.bucket (hashText key) with
  | none => rfl
  | some node => exact Entry.findIn_eq check key node.entries

theorem entriesAt_ofBits (bits i : Nat) : (ofBits (ω := ω) bits).entriesAt i = [] := by
  rw [entriesAt, ofBits, Vector.getElem?_replicate]
  split <;> rfl

theorem entries_eq_flatMap (t : PathTable ω) :
    t.entries = t.buckets.toList.flatMap Node.contents := rfl

theorem entriesAt_eq_contents {t : PathTable ω} {i : Nat} (hi : i < t.buckets.toList.length) :
    Node.contents t.buckets.toList[i] = t.entriesAt i := by
  rw [entriesAt, Vector.getElem?_eq_getElem (by simpa using hi), Vector.getElem_toList]
  rfl

theorem mem_entries {t : PathTable ω} {e : Entry ω} :
    e ∈ t.entries ↔ ∃ i, e ∈ t.entriesAt i := by
  rw [entries_eq_flatMap, List.mem_flatMap]
  constructor
  · rintro ⟨node, hnode, he⟩
    obtain ⟨i, hi, rfl⟩ := List.getElem_of_mem hnode
    exact ⟨i, entriesAt_eq_contents hi ▸ he⟩
  · rintro ⟨i, he⟩
    by_cases hi : i < t.buckets.toList.length
    · exact ⟨_, List.getElem_mem hi, (entriesAt_eq_contents hi).symm ▸ he⟩
    · rw [entriesAt, Vector.getElem?_eq_none (by simpa using hi)] at he
      cases he

theorem entriesAt_place (t : PathTable ω) (e : Entry ω) (i : Nat) :
    (t.place e).entriesAt i =
      t.entriesAt i ++ [e].filter fun e => home t.bits e.path = i := by
  rw [place, entriesAt_update]
  split
  next heq =>
    have hone : [e].filter (fun e => home t.bits e.path = i) = [e] := by simp [home, heq]
    rw [hone, ← heq, ← contents_bucket]
    exact Node.entries_append _ e
  next hne =>
    have hnone : [e].filter (fun e => home t.bits e.path = i) = [] := by simp [home, hne]
    rw [hnone, List.append_nil]

theorem entriesAt_foldl_place (es : List (Entry ω)) (t : PathTable ω) :
    (es.foldl place t).bits = t.bits ∧
      ∀ i, (es.foldl place t).entriesAt i =
        t.entriesAt i ++ es.filter fun e => home t.bits e.path = i := by
  induction es generalizing t with
  | nil => simp
  | cons e rest ih =>
    obtain ⟨hbits, hat⟩ := ih (t.place e)
    have hplace : (t.place e).bits = t.bits := rfl
    refine ⟨hbits, fun i => ?_⟩
    rw [List.foldl_cons, hat, hplace, entriesAt_place, List.append_assoc, ← List.filter_append,
      List.singleton_append]

structure Holds (t : PathTable ω) (log : List (Located ω)) : Prop where
  groups : ∀ i, Groups (log.filter fun l => home t.bits l.path = i) (t.entriesAt i)
  count : t.count = log.length

namespace Holds

variable {t : PathTable ω} {log : List (Located ω)}

theorem ofBits (bits : Nat) : Holds (ω := ω) (.ofBits bits) [] where
  groups i := by rw [entriesAt_ofBits]; exact Groups.nil
  count := rfl

theorem home_eq (h : t.Holds log) {i : Nat} {e : Entry ω} (he : e ∈ t.entriesAt i) :
    home t.bits e.path = i :=
  of_decide_eq_true (List.mem_filter.1 ((h.groups i).first_mem he)).2

theorem locations_eq (h : t.Holds log) {i : Nat} {e : Entry ω} (he : e ∈ t.entriesAt i) :
    e.locations = log.filter fun l => l.path = e.path := by
  rw [(h.groups i).locations e he,
    filter_path_filter (p := fun path => home t.bits path = i) (decide_eq_true (h.home_eq he))]

/-- Different buckets hold different paths, so the entries of all buckets group the whole log. -/
theorem groups_entries (h : t.Holds log) : Groups log t.entries where
  nodup := by
    rw [entries_eq_flatMap, List.map_flatMap, List.nodup_flatMap]
    constructor
    · intro node hnode
      obtain ⟨i, hi, rfl⟩ := List.getElem_of_mem hnode
      rw [entriesAt_eq_contents hi]
      exact (h.groups i).nodup
    · rw [List.pairwise_iff_getElem]
      intro i j hi hj hij p hpi hpj
      dsimp only at hpi hpj
      rw [entriesAt_eq_contents hi] at hpi
      rw [entriesAt_eq_contents hj] at hpj
      obtain ⟨a, ha, rfl⟩ := List.mem_map.1 hpi
      obtain ⟨b, hb, heq⟩ := List.mem_map.1 hpj
      have hia := h.home_eq ha
      have hjb := h.home_eq hb
      rw [heq] at hjb
      omega
  locations := by
    intro e he
    obtain ⟨i, he⟩ := mem_entries.1 he
    exact h.locations_eq he
  covers := by
    intro l hl
    have hmem : l ∈ log.filter fun x => home t.bits x.path = home t.bits l.path :=
      List.mem_filter.2 ⟨hl, decide_eq_true rfl⟩
    obtain ⟨e, he, heq⟩ := List.mem_map.1 ((h.groups _).covers l hmem)
    exact List.mem_map.2 ⟨e, mem_entries.2 ⟨_, he⟩, heq⟩
  proper := by
    intro e he
    obtain ⟨i, he⟩ := mem_entries.1 he
    exact (h.groups i).proper e he

theorem rehash (h : t.Holds log) (bits : Nat) : (t.rehash bits).Holds log where
  groups i := by
    obtain ⟨hbits, hat⟩ := entriesAt_foldl_place t.entries (.ofBits bits)
    change Groups (log.filter fun l => home (t.entries.foldl place (.ofBits bits)).bits l.path = i)
      ((t.entries.foldl place (.ofBits bits)).entriesAt i)
    rw [hat, hbits, entriesAt_ofBits, List.nil_append]
    exact h.groups_entries.filter fun path => home bits path = i
  count := h.count

theorem grow (h : t.Holds log) (needed : Nat) : (t.grow needed).value.Holds log := by
  unfold PathTable.grow
  dsimp only
  split
  · exact h
  · exact h.rehash _

theorem update_put (h : t.Holds log) (l : Located ω) (i : Nat) :
    Groups ((log ++ [l]).filter fun x => home t.bits x.path = i)
      ((t.update l.path.hash fun node => some (Node.put node l)).entriesAt i) := by
  rw [List.filter_append, entriesAt_update]
  split
  next heq =>
    have hone : [l].filter (fun x => home t.bits x.path = i) = [l] := by simp [home, heq]
    rw [hone, Node.contents, Node.entries_put, contents_bucket, heq]
    exact (h.groups i).putInto l
  next hne =>
    have hnone : [l].filter (fun x => home t.bits x.path = i) = [] := by simp [home, hne]
    rw [hnone, List.append_nil]
    exact h.groups i

theorem put (h : t.Holds log) (l : Located ω) : (t.put l).value.Holds (log ++ [l]) where
  groups := (h.grow _).update_put l
  count := by
    rw [List.length_append, List.length_singleton, ← (h.grow (t.count + 1)).count]
    rfl

theorem reserve (h : t.Holds log) (additional : Nat) : (t.reserve additional).value.Holds log :=
  h.grow _

theorem warn (h : t.Holds log) (key : String) : (t.warn key).Holds log where
  groups i := by
    unfold PathTable.warn
    rw [entriesAt_update]
    split
    next heq =>
      rw [Node.contents_warn, contents_bucket, heq]
      exact (h.groups i).warnIn key
    next => exact h.groups i
  count := h.count

theorem find (h : t.Holds log) (check : Bool) (key : String) :
    ∃ found, t.find check key = .ok found ∧ Answers log key found := by
  refine ⟨_, t.find_eq check key, ?_⟩
  apply (h.groups _).answers (p := fun path => home t.bits path = slot t.bits (hashText key))
  intro path hpath
  rw [home, EntryPath.hash_eq, hpath, decide_eq_true_iff]

end Holds

end Overlay.PathTable
