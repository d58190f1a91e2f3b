import Overlay.Index.Basic
import Overlay.Proofs.Index.Table

/-!
# What an index holds

Both representations of the index hold what was put into them, in the sense of `Answers`: the
table by `PathTable.Holds`, the standard map bucket by bucket as well, with the full hash in place
of a slot. `Index.Holds` is the one or the other.

For the table alone this comes to a multimap: after any puts, reserves and reports a key finds
precisely the locations that were put under it.
-/

namespace Overlay

variable {ω : Type}

def putUnder (key : String) (log : List (Located ω)) : List (Located ω) :=
  log.filter fun l => l.path.render = key

namespace Answers

variable {key : String} {log : List (Located ω)} {found : Option (Entry ω)}

theorem eq_none (h : Answers log key found) (hnone : putUnder key log = []) : found = none := by
  refine h.none_iff.2 fun l hl hrender => ?_
  exact List.filter_eq_nil_iff.1 hnone l hl (decide_eq_true hrender)

theorem eq_single (h : Answers log key found) (hplain : ∀ l ∈ log, l.path.Plain) {l : Located ω}
    (hone : putUnder key log = [l]) : found = some (.single l) := by
  cases found with
  | none =>
    have hnil : putUnder key log = [] :=
      List.filter_eq_nil_iff.2 fun x hx => by simpa using h.none_iff.1 rfl x hx
    rw [hone] at hnil
    cases hnil
  | some e =>
    have hlocations : e.locations = [l] := (h.locations_of_plain hplain).trans hone
    obtain ⟨x, rfl⟩ := (h.proper e rfl).single_iff.2 (congrArg List.length hlocations)
    obtain ⟨rfl, -⟩ := List.cons.inj hlocations
    rfl

end Answers

inductive IndexEdit (ω : Type) where
  | put (location : Located ω)
  | reserve (count : Nat)
  | warn (key : String)

namespace IndexEdit

def put? : IndexEdit ω → Option (Located ω)
  | put location => some location
  | reserve _ | warn _ => none

def puts (edits : List (IndexEdit ω)) : List (Located ω) := edits.filterMap put?

end IndexEdit

namespace PathTable

def edit (t : PathTable ω) : IndexEdit ω → PathTable ω
  | .put location => (t.put location).value
  | .reserve count => (t.reserve count).value
  | .warn key => t.warn key

def run (edits : List (IndexEdit ω)) : PathTable ω := edits.foldl edit empty

theorem Holds.edit {t : PathTable ω} {log : List (Located ω)} (h : t.Holds log)
    (e : IndexEdit ω) : (t.edit e).Holds (log ++ e.put?.toList) := by
  cases e with
  | put location => exact h.put location
  | reserve count =>
    rw [show (IndexEdit.reserve (ω := ω) count).put?.toList = [] from rfl, List.append_nil]
    exact h.reserve count
  | warn key =>
    rw [show (IndexEdit.warn (ω := ω) key).put?.toList = [] from rfl, List.append_nil]
    exact h.warn key

theorem Holds.foldl_edit {t : PathTable ω} {log : List (Located ω)} (h : t.Holds log)
    (edits : List (IndexEdit ω)) :
    (edits.foldl PathTable.edit t).Holds (log ++ IndexEdit.puts edits) := by
  induction edits generalizing t log with
  | nil => simpa [IndexEdit.puts] using h
  | cons e rest ih =>
    have hputs : IndexEdit.puts (e :: rest) = e.put?.toList ++ IndexEdit.puts rest := by
      cases e <;> rfl
    rw [hputs, ← List.append_assoc]
    exact ih (h.edit e)

theorem holds_run (edits : List (IndexEdit ω)) : (run edits).Holds (IndexEdit.puts edits) :=
  (Holds.ofBits 7).foldl_edit edits

/-- The table is a multimap from texts to locations. -/
theorem find_run (edits : List (IndexEdit ω))
    (hplain : ∀ l ∈ IndexEdit.puts edits, l.path.Plain) (check : Bool) (key : String) :
    (∃ found, (run edits).find check key = .ok found ∧
      (found = none ↔ ∀ l ∈ IndexEdit.puts edits, l.path.render ≠ key) ∧
      ∀ e, found = some e →
        e.locations = putUnder key (IndexEdit.puts edits) ∧
        ((∃ l, e = .single l) ↔ (putUnder key (IndexEdit.puts edits)).length = 1) ∧
        ((∃ first others warned, e = .overlap first others warned) ↔
          2 ≤ (putUnder key (IndexEdit.puts edits)).length)) ∧
    (run edits).count = (IndexEdit.puts edits).length := by
  have h := holds_run edits
  obtain ⟨found, hfind, hans⟩ := h.find check key
  refine ⟨⟨found, hfind, hans.none_iff, ?_⟩, h.count⟩
  rintro e rfl
  have hloc := hans.locations_of_plain hplain
  have hproper := hans.proper e rfl
  refine ⟨hloc, ?_, ?_⟩
  · rw [putUnder, ← hloc]
    exact hproper.single_iff
  · rw [putUnder, ← hloc]
    exact hproper.overlap_iff

theorem find_run_colliding :
    let edits : List (IndexEdit Nat) :=
      [.put ⟨.ofNames ["Aa"], 0⟩, .put ⟨.ofNames ["BB"], 1⟩, .reserve 200, .warn "/BB",
        .put ⟨.ofNames ["Aa"], 2⟩]
    (EntryPath.ofNames ["Aa"]).hash = (EntryPath.ofNames ["BB"]).hash ∧
      (∀ l ∈ IndexEdit.puts edits, l.path.Plain) ∧
      ∃ e, (run edits).find true "/Aa" = .ok (some e) ∧
        e.locations = [⟨.ofNames ["Aa"], 0⟩, ⟨.ofNames ["Aa"], 2⟩] := by
  intro edits
  have hplain : ∀ l ∈ IndexEdit.puts edits, l.path.Plain := by decide
  refine ⟨by decide, hplain, ?_⟩
  obtain ⟨⟨found, hfind, hnone, hsome⟩, -⟩ := find_run edits hplain true "/Aa"
  have hput : putUnder "/Aa" (IndexEdit.puts edits) =
      [⟨.ofNames ["Aa"], 0⟩, ⟨.ofNames ["Aa"], 2⟩] := by decide
  cases found with
  | none => exact absurd rfl (hnone.1 rfl ⟨.ofNames ["Aa"], 0⟩ List.mem_cons_self)
  | some e => exact ⟨e, hfind, (hsome e rfl).1.trans hput⟩

end PathTable

namespace PathMap

theorem find_eq (m : PathMap ω) (check : Bool) (key : String) :
    m.find check key = .ok ((Node.contents (m.bucket (hashText key))).find? fun e =>
      e.path.render == key) := by
  rw [find]
  cases m.bucket (hashText key) with
  | none => rfl
  | some node => exact Entry.findIn_eq check key node.entries

theorem bucket_put (m : PathMap ω) (l : Located ω) (hash : UInt32) :
    (m.put l).bucket hash =
      if l.path.hash = hash then some (Node.put (m.bucket hash) l) else m.bucket hash := by
  rw [PathMap.put, bucket, Std.HashMap.getElem?_insert]
  by_cases heq : l.path.hash = hash
  · rw [if_pos (beq_iff_eq.2 heq), if_pos heq, heq]
  · rw [if_neg fun hb => heq (beq_iff_eq.1 hb), if_neg heq]
    rfl

theorem bucket_warn (m : PathMap ω) (key : String) (hash : UInt32) :
    (m.warn key).bucket hash =
      if hashText key = hash then (m.bucket hash).map (Node.warn key) else m.bucket hash := by
  unfold PathMap.warn
  split
  next hnone =>
    split
    next heq => rw [← heq, hnone, Option.map_none]
    next => rfl
  next node hnode =>
    rw [bucket, Std.HashMap.getElem?_insert]
    by_cases heq : hashText key = hash
    · rw [if_pos (beq_iff_eq.2 heq), if_pos heq, ← heq, hnode, Option.map_some]
    · rw [if_neg fun hb => heq (beq_iff_eq.1 hb), if_neg heq]
      rfl

theorem count_warn (m : PathMap ω) (key : String) : (m.warn key).count = m.count := by
  unfold PathMap.warn
  split <;> rfl

/-- Every bucket groups the locations of the paths that have its hash. -/
structure Holds (m : PathMap ω) (log : List (Located ω)) : Prop where
  groups : ∀ hash, Groups (log.filter fun l => l.path.hash = hash) (Node.contents (m.bucket hash))
  count : m.count = log.length

namespace Holds

variable {m : PathMap ω} {log : List (Located ω)}

theorem empty : Holds (ω := ω) .empty [] where
  groups hash := by
    simp only [PathMap.empty, bucket, Std.HashMap.getElem?_empty, Node.contents]
    exact Groups.nil
  count := rfl

theorem put (h : m.Holds log) (l : Located ω) : (m.put l).Holds (log ++ [l]) where
  groups hash := by
    rw [List.filter_append, bucket_put]
    by_cases heq : l.path.hash = hash
    · have hone : [l].filter (fun x => x.path.hash = hash) = [l] := by simp [heq]
      rw [if_pos heq, hone, Node.contents, Node.entries_put]
      exact (h.groups hash).putInto l
    · have hnone : [l].filter (fun x => x.path.hash = hash) = [] := by simp [heq]
      rw [if_neg heq, hnone, List.append_nil]
      exact h.groups hash
  count := by simp [PathMap.put, h.count]

theorem warn (h : m.Holds log) (key : String) : (m.warn key).Holds log where
  groups hash := by
    rw [bucket_warn]
    split
    · rw [Node.contents_warn]
      exact (h.groups hash).warnIn key
    · exact h.groups hash
  count := (m.count_warn key).trans h.count

theorem find (h : m.Holds log) (check : Bool) (key : String) :
    ∃ found, m.find check key = .ok found ∧ Answers log key found := by
  refine ⟨_, m.find_eq check key, ?_⟩
  apply (h.groups _).answers (p := fun path => path.hash = hashText key)
  intro path hpath
  rw [EntryPath.hash_eq, hpath, decide_eq_true_iff]

end Holds

end PathMap

namespace Index

def Holds (index : Index ω) (log : List (Located ω)) : Prop :=
  match index.store with
  | .table t => t.Holds log
  | .map m => m.Holds log

def entries (index : Index ω) : List (Entry ω) :=
  match index.store with
  | .table t => t.entries
  | .map m => m.nodes.toList.flatMap fun (_, node) => node.entries

theorem holds_new (customTable check : Bool) : Holds (ω := ω) (.new customTable check) [] := by
  cases customTable with
  | true => exact PathTable.Holds.ofBits 7
  | false => exact PathMap.Holds.empty

namespace Holds

variable {index : Index ω} {log : List (Located ω)}

theorem put (h : index.Holds log) (l : Located ω) : (index.put l).value.Holds (log ++ [l]) := by
  obtain ⟨store, check⟩ := index
  cases store with
  | table t => exact PathTable.Holds.put h l
  | map m => exact PathMap.Holds.put h l

theorem reserve (h : index.Holds log) (additional : Nat) :
    (index.reserve additional).value.Holds log := by
  obtain ⟨store, check⟩ := index
  cases store with
  | table t => exact PathTable.Holds.reserve h additional
  | map m => exact h

theorem warn (h : index.Holds log) (key : String) : (index.warn key).Holds log := by
  obtain ⟨store, check⟩ := index
  cases store with
  | table t => exact PathTable.Holds.warn h key
  | map m => exact PathMap.Holds.warn h key

theorem find (h : index.Holds log) (key : String) :
    ∃ found, index.find key = .ok found ∧ Answers log key found := by
  obtain ⟨store, check⟩ := index
  cases store with
  | table t => exact PathTable.Holds.find h check key
  | map m => exact PathMap.Holds.find h check key

theorem size (h : index.Holds log) : index.size = log.length := by
  obtain ⟨store, check⟩ := index
  cases store with
  | table t => exact PathTable.Holds.count h
  | map m => exact PathMap.Holds.count h

theorem mem_of_mem_entries (h : index.Holds log) {e : Entry ω} (he : e ∈ index.entries)
    {l : Located ω} (hl : l ∈ e.locations) : l ∈ log := by
  obtain ⟨store, check⟩ := index
  cases store with
  | table t =>
    rw [(PathTable.Holds.groups_entries h).locations e he] at hl
    exact (List.mem_filter.1 hl).1
  | map m =>
    obtain ⟨⟨hash, node⟩, hnode, he⟩ := List.mem_flatMap.1 he
    have hbucket : m.bucket hash = some node := Std.HashMap.mem_toList_iff_getElem?_eq_some.1 hnode
    have hgroups := PathMap.Holds.groups h hash
    rw [hbucket] at hgroups
    rw [hgroups.locations e he] at hl
    exact (List.mem_filter.1 (List.mem_filter.1 hl).1).1

end Holds

end Index

end Overlay
