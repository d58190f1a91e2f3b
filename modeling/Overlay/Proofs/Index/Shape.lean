import Mathlib.Algebra.BigOperators.Group.List.Lemmas
import Mathlib.Data.List.Perm.Basic
import Overlay.Proofs.Index.Contents

/-!
# The shape of the path table

A bucket is a collision only if it holds several entries. This is kept wherever a bucket is
replaced, by puts, by reports of an ambiguity and by growth, which makes every bucket anew. Together
with what the buckets hold it is the shape that a table has at any time: `shape_run`. Every entry
stands in the bucket of its text, every path has one entry, and the entries account for all that was
put.
-/

namespace Overlay

variable {ω : Type}

theorem Groups.length_locations {log : List (Located ω)} {es : List (Entry ω)}
    (h : Groups log es) : (es.flatMap Entry.locations).length = log.length := by
  have hlength : ∀ e ∈ es,
      e.locations.length = (log.map Located.path).count e.path := fun e he => by
    rw [h.locations e he, List.count_eq_countP, List.countP_map, List.countP_eq_length_filter]
    congr 2
  have hpaths : (es.map Entry.path).Perm (log.map Located.path).dedup := by
    rw [List.perm_ext_iff_of_nodup h.nodup (List.nodup_dedup _)]
    intro path
    rw [List.mem_dedup]
    constructor
    · intro hpath
      obtain ⟨e, he, rfl⟩ := List.mem_map.1 hpath
      exact List.mem_map_of_mem (h.first_mem he)
    · intro hpath
      obtain ⟨l, hl, rfl⟩ := List.mem_map.1 hpath
      exact h.covers l hl
  calc (es.flatMap Entry.locations).length
      = (es.map fun e => (log.map Located.path).count e.path).sum := by
        rw [List.length_flatMap, List.map_congr_left hlength]
    _ = ((es.map Entry.path).map fun path => (log.map Located.path).count path).sum := by
        rw [List.map_map, Function.comp_def]
    _ = ((log.map Located.path).dedup.map fun path => (log.map Located.path).count path).sum :=
        (hpaths.map _).sum_nat
    _ = log.length := by rw [List.sum_map_count_dedup_eq_length, List.length_map]

theorem Entry.length_le_putInto (l : Located ω) (es : List (Entry ω)) :
    es.length ≤ (putInto l es).length := by
  induction es with
  | nil => exact Nat.zero_le _
  | cons e rest ih =>
    rw [putInto]
    split
    · exact Nat.le_refl _
    · exact Nat.succ_le_succ ih

theorem Entry.length_warnIn (key : String) (es : List (Entry ω)) :
    (warnIn key es).length = es.length := by
  rw [← List.length_map (f := path), map_path_warnIn, List.length_map]

namespace Node

def Proper : Node ω → Prop
  | entry _ => True
  | collision es => 2 ≤ es.length

theorem Proper.entries_ne_nil {node : Node ω} (h : node.Proper) : node.entries ≠ [] := by
  cases node with
  | entry e => exact List.cons_ne_nil e []
  | collision es =>
    intro hnil
    have hes : es = [] := hnil
    rw [hes] at h
    exact Nat.not_succ_le_zero 1 h

variable {node : Option (Node ω)}

theorem Proper.put (h : ∀ n ∈ node, n.Proper) (l : Located ω) : (Node.put node l).Proper := by
  rcases node with _ | e | es
  · trivial
  · rw [Node.put]
    split
    · trivial
    · exact Nat.le_refl 2
  · have hes : 2 ≤ es.length := h _ rfl
    exact hes.trans (Entry.length_le_putInto l es)

theorem Proper.append (h : ∀ n ∈ node, n.Proper) (e : Entry ω) : (Node.append node e).Proper := by
  cases node with
  | none => trivial
  | some node =>
    have hpos := List.length_pos_of_ne_nil (h node rfl).entries_ne_nil
    change 2 ≤ (node.entries ++ [e]).length
    rw [List.length_append, List.length_singleton]
    omega

theorem Proper.warn {node : Node ω} (h : node.Proper) (key : String) : (node.warn key).Proper := by
  cases node with
  | entry e =>
    rw [Node.warn]
    split <;> trivial
  | collision es =>
    change 2 ≤ (Entry.warnIn key es).length
    rw [Entry.length_warnIn]
    exact h

end Node

namespace PathTable

def Proper (t : PathTable ω) : Prop :=
  ∀ (i : Nat) (node : Node ω), t.buckets[i]? = some (some node) → node.Proper

namespace Proper

variable {t : PathTable ω}

theorem ofBits (bits : Nat) : Proper (ω := ω) (.ofBits bits) := by
  intro i node hnode
  rw [PathTable.ofBits, Vector.getElem?_replicate] at hnode
  split at hnode
  · cases Option.some.inj hnode
  · cases hnode

theorem update (h : t.Proper) (hash : UInt32) {f : Option (Node ω) → Option (Node ω)}
    (hf : ∀ node, (∀ n ∈ node, n.Proper) → ∀ n ∈ f node, n.Proper) : (t.update hash f).Proper := by
  intro i node hnode
  rw [buckets_update] at hnode
  split at hnode
  · refine hf (t.bucket hash) (fun n hn => ?_) node (Option.some.inj hnode)
    exact h _ n ((t.buckets_slot hash).trans (congrArg some hn))
  · exact h i node hnode

theorem place (h : t.Proper) (e : Entry ω) : (t.place e).Proper := by
  refine h.update e.path.hash fun node hnode n hn => ?_
  obtain rfl := Option.some.inj hn
  exact .append hnode e

theorem rehash (t : PathTable ω) (bits : Nat) : (t.rehash bits).Proper := by
  have hplaced : (t.entries.foldl PathTable.place (.ofBits bits)).Proper :=
    List.foldlRecOn t.entries PathTable.place (ofBits bits) fun _ ht e _ => ht.place e
  exact hplaced

theorem grow (h : t.Proper) (needed : Nat) : (t.grow needed).value.Proper := by
  unfold PathTable.grow
  dsimp only
  split
  · exact h
  · exact rehash t _

theorem edit (h : t.Proper) (e : IndexEdit ω) : (t.edit e).Proper := by
  cases e with
  | put l =>
    have hput : ((t.grow (t.count + 1)).value.update l.path.hash fun node =>
        some (Node.put node l)).Proper := by
      refine (h.grow (t.count + 1)).update l.path.hash fun node hnode n hn => ?_
      obtain rfl := Option.some.inj hn
      exact .put hnode l
    exact hput
  | reserve count => exact h.grow _
  | warn key =>
    refine h.update (hashText key) fun node hnode n hn => ?_
    obtain ⟨old, hold, rfl⟩ := Option.map_eq_some_iff.1 hn
    exact (hnode old hold).warn key

theorem run (edits : List (IndexEdit ω)) : (run edits).Proper :=
  List.foldlRecOn edits PathTable.edit (ofBits 7) fun _ ht e _ => ht.edit e

end Proper

/-- After any puts, reserves and reports every entry stands in the bucket of its text, every path
has one entry, and the entries account for all that was put. -/
theorem shape_run (edits : List (IndexEdit ω))
    (hplain : ∀ l ∈ IndexEdit.puts edits, l.path.Plain) :
    (∀ (i : Nat) (node : Node ω), (run edits).buckets[i]? = some (some node) →
      i < (run edits).capacity ∧
      (∀ e ∈ node.entries, slot (run edits).bits (hashText e.path.render) = i) ∧
      ∀ es, node = .collision es → 2 ≤ es.length) ∧
    (run edits).entries.Pairwise (fun a b => a.path.render ≠ b.path.render) ∧
    (∀ e ∈ (run edits).entries, (∀ l ∈ e.locations, l.path = e.path) ∧
      ∀ first others warned, e = .overlap first others warned → 2 ≤ e.locations.length) ∧
    ((run edits).entries.flatMap Entry.locations).length = (run edits).count := by
  have h := holds_run edits
  have hgroups := h.groups_entries
  have hplainEntry : ∀ e ∈ (run edits).entries, e.path.Plain := fun e he =>
    hplain _ (hgroups.first_mem he)
  have hat : ∀ {i : Nat} {node : Node ω}, (run edits).buckets[i]? = some (some node) →
      (run edits).entriesAt i = node.entries := fun hnode => by
    rw [entriesAt, hnode]
    rfl
  refine ⟨fun i node hnode => ⟨?_, fun e he => ?_, ?_⟩, ?_, fun e he => ⟨fun l hl => ?_, ?_⟩, ?_⟩
  · exact (Vector.getElem?_eq_some_iff.1 hnode).1
  · rw [← EntryPath.hash_eq]
    exact h.home_eq (hat hnode ▸ he)
  · rintro es rfl
    exact Proper.run edits i _ hnode
  · have hpaths : (run edits).entries.Pairwise fun a b => a.path ≠ b.path :=
      List.pairwise_map.1 hgroups.nodup
    refine hpaths.imp_of_mem fun {a b} ha hb hne hrender => ?_
    exact hne ((hplainEntry a ha).render_inj (hplainEntry b hb) hrender)
  · rw [hgroups.locations e he] at hl
    exact of_decide_eq_true (List.mem_filter.1 hl).2
  · exact fun first others warned heq => (hgroups.proper e he).overlap_iff.1 ⟨_, _, _, heq⟩
  · rw [hgroups.length_locations, h.count]

/-- Two paths of one hash share a bucket before and after the table has grown. -/
theorem shape_run_colliding :
    let edits : List (IndexEdit Nat) :=
      [.put ⟨.ofNames ["Aa"], 0⟩, .put ⟨.ofNames ["BB"], 1⟩, .reserve 200,
        .put ⟨.ofNames ["Aa"], 2⟩]
    (∀ l ∈ IndexEdit.puts edits, l.path.Plain) ∧
      (run edits).buckets[slot 9 (hashText "/Aa")]? = some (some (.collision
        [.overlap ⟨.ofNames ["Aa"], 0⟩ [⟨.ofNames ["Aa"], 2⟩] false,
          .single ⟨.ofNames ["BB"], 1⟩])) ∧
      (run edits).entries.Pairwise (fun a b => a.path.render ≠ b.path.render) ∧
      ((run edits).entries.flatMap Entry.locations).length = (run edits).count := by
  intro edits
  have hplain : ∀ l ∈ IndexEdit.puts edits, l.path.Plain := by decide
  obtain ⟨-, hpairwise, -, hlocations⟩ := shape_run edits hplain
  exact ⟨hplain, by decide +kernel, hpairwise, hlocations⟩

end PathTable

end Overlay
