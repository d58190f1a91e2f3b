import Overlay.Proofs.Index.Contents

/-!
# Two representations of one index

The path table keeps its entries in slots that depend on its size, the standard map keeps them by
their full hashes. What the two have in common is `Index.hashed`: the entries of the paths of one
hash, in the order in which they stand in their bucket. Every operation does the same to these in
either representation. Growth does nothing to them, since it moves whole entries, in order and with
the mark that an ambiguity was reported. A key is looked up among the entries of its own hash, so
whatever is asked of the two, they answer alike: `Index.answers_eq_answers`.
-/

namespace Overlay

variable {ω : Type}

namespace Entry

theorem filter_putInto (p : EntryPath → Bool) (l : Located ω) (es : List (Entry ω)) :
    (putInto l es).filter (fun e => p e.path) =
      if p l.path then putInto l (es.filter fun e => p e.path)
      else es.filter fun e => p e.path := by
  induction es with
  | nil => cases hp : p l.path <;> simp [putInto, hp]
  | cons x rest ih =>
    rw [putInto]
    by_cases hx : x.path = l.path
    · rw [if_pos (EntryPath.samePath_iff.2 hx)]
      cases hp : p l.path with
      | true =>
        simp [hp, hx, putInto, EntryPath.samePath_iff.2]
      | false => simp [hp, hx]
    · have hx' : ¬ (x.path.samePath l.path = true) := fun h => hx (EntryPath.samePath_iff.1 h)
      rw [if_neg hx']
      cases hp : p l.path <;> cases hpx : p x.path <;> simp [hp, hpx, ih, putInto, hx']

theorem filter_warnIn {p : EntryPath → Bool} {key : String}
    (hp : ∀ path : EntryPath, path.render = key → p path = true) (es : List (Entry ω)) :
    (warnIn key es).filter (fun e => p e.path) = warnIn key (es.filter fun e => p e.path) := by
  induction es with
  | nil => rfl
  | cons x rest ih =>
    rw [warnIn]
    by_cases hx : x.path.rendersAs key = true
    · have hpx : p x.path = true := hp _ (EntryPath.rendersAs_iff.1 hx)
      simp [hx, hpx, warnIn]
    · cases hpx : p x.path <;> simp [hx, hpx, ih, warnIn]

theorem filter_warnIn_of_not {p : EntryPath → Bool} {key : String}
    (hp : ∀ path : EntryPath, path.render = key → p path = false) (es : List (Entry ω)) :
    (warnIn key es).filter (fun e => p e.path) = es.filter fun e => p e.path := by
  induction es with
  | nil => rfl
  | cons x rest ih =>
    rw [warnIn]
    by_cases hx : x.path.rendersAs key = true
    · have hpx : p x.path = false := hp _ (EntryPath.rendersAs_iff.1 hx)
      simp [hx, hpx]
    · cases hpx : p x.path <;> simp [hx, hpx, ih]

end Entry

namespace PathTable

variable {t : PathTable ω} {log : List (Located ω)}

def hashed (t : PathTable ω) (hash : UInt32) : List (Entry ω) :=
  (t.entriesAt (slot t.bits hash)).filter fun e => e.path.hash = hash

/-- Where all but one member of a list contribute nothing, that one contributes everything. -/
theorem flatMap_eq_of_only {α β : Type} {f : α → List β} {l : List α} {i : Nat} (hi : i < l.length)
    (h : ∀ j (hj : j < l.length), j ≠ i → f l[j] = []) : l.flatMap f = f l[i] := by
  induction l generalizing i with
  | nil => cases hi
  | cons x rest ih =>
    rw [List.flatMap_cons]
    cases i with
    | zero =>
      have hrest : rest.flatMap f = [] := by
        rw [List.flatMap_eq_nil_iff]
        intro y hy
        obtain ⟨j, hj, rfl⟩ := List.getElem_of_mem hy
        exact h (j + 1) (Nat.succ_lt_succ hj) (Nat.succ_ne_zero j)
      rw [hrest, List.append_nil]
      rfl
    | succ i =>
      have hfirst : f x = [] := h 0 (Nat.zero_lt_succ _) (Nat.succ_ne_zero i).symm
      rw [hfirst, List.nil_append]
      exact ih (Nat.lt_of_succ_lt_succ hi) fun j hj hne =>
        h (j + 1) (Nat.succ_lt_succ hj) fun heq => hne (Nat.succ_inj.1 heq)

/-- All entries of a hash stand in the one slot of that hash. -/
theorem Holds.filter_entries (h : t.Holds log) (hash : UInt32) :
    t.entries.filter (fun e => e.path.hash = hash) = t.hashed hash := by
  have hlt : slot t.bits hash < t.buckets.toList.length := by simp
  rw [entries_eq_flatMap, List.filter_flatMap, flatMap_eq_of_only hlt, entriesAt_eq_contents]
  · rfl
  · intro j hj hne
    rw [entriesAt_eq_contents, List.filter_eq_nil_iff]
    intro e he heq
    have hhome := h.home_eq he
    rw [home, of_decide_eq_true heq] at hhome
    exact hne hhome.symm

theorem Holds.hashed_grow (h : t.Holds log) (needed : Nat) (hash : UInt32) :
    (t.grow needed).value.hashed hash = t.hashed hash := by
  unfold PathTable.grow
  dsimp only
  split
  · rfl
  · obtain ⟨hbits, hat⟩ := entriesAt_foldl_place t.entries (.ofBits (bitsFor needed t.bits))
    change ((t.entries.foldl place (.ofBits _)).entriesAt
      (slot (t.entries.foldl place (.ofBits _)).bits hash)).filter _ = _
    rw [hat, hbits, entriesAt_ofBits, List.nil_append, List.filter_filter, ← h.filter_entries]
    apply List.filter_congr
    intro e _
    by_cases heq : e.path.hash = hash <;> simp [heq, home]

theorem hashed_update_put (t : PathTable ω) (l : Located ω) (hash : UInt32) :
    (t.update l.path.hash fun node => some (Node.put node l)).hashed hash =
      if l.path.hash = hash then Entry.putInto l (t.hashed hash) else t.hashed hash := by
  have hput := Entry.filter_putInto (fun path => path.hash = hash) l
    (t.entriesAt (slot t.bits l.path.hash))
  simp only [decide_eq_true_eq] at hput
  change ((t.update _ _).entriesAt (slot t.bits hash)).filter _ = _
  rw [entriesAt_update]
  split
  next heq =>
    rw [Node.contents, Node.entries_put, contents_bucket, hput, hashed, heq]
  next hne =>
    rw [if_neg fun heq => hne (by rw [heq]), hashed]

theorem Holds.hashed_put (h : t.Holds log) (l : Located ω) (hash : UInt32) :
    (t.put l).value.hashed hash =
      if l.path.hash = hash then Entry.putInto l (t.hashed hash) else t.hashed hash := by
  rw [← h.hashed_grow (t.count + 1) hash]
  exact hashed_update_put _ l hash

theorem hashed_warn (t : PathTable ω) (key : String) (hash : UInt32) :
    (t.warn key).hashed hash =
      if hashText key = hash then Entry.warnIn key (t.hashed hash) else t.hashed hash := by
  change ((t.update _ _).entriesAt (slot t.bits hash)).filter _ = _
  rw [entriesAt_update, Node.contents_warn, contents_bucket]
  by_cases heq : hashText key = hash
  · rw [if_pos (by rw [heq]), if_pos heq, heq, hashed]
    exact Entry.filter_warnIn (p := fun path => path.hash = hash)
      (fun path hpath => by rw [EntryPath.hash_eq, hpath, heq]; exact decide_eq_true rfl) _
  · rw [if_neg heq]
    split
    next hslot =>
      rw [hslot]
      exact Entry.filter_warnIn_of_not (p := fun path => path.hash = hash)
        (fun path hpath => by rw [EntryPath.hash_eq, hpath]; exact decide_eq_false heq) _
    next => rfl

theorem find_eq_hashed (t : PathTable ω) (check : Bool) (key : String) :
    t.find check key =
      .ok ((t.hashed (hashText key)).find? fun e => e.path.render == key) := by
  have hall : ∀ es : List (Entry ω), (es.filter fun e => e.path.hash = hashText key).find?
      (fun e => e.path.render == key) = es.find? fun e => e.path.render == key := by
    intro es
    rw [List.find?_filter]
    congr 1
    funext e
    by_cases heq : e.path.render = key
    · simp [heq, EntryPath.hash_eq]
    · simp [heq]
  rw [hashed, hall, find_eq]

end PathTable

namespace PathMap

def hashed (m : PathMap ω) (hash : UInt32) : List (Entry ω) := Node.contents (m.bucket hash)

theorem hashed_put (m : PathMap ω) (l : Located ω) (hash : UInt32) :
    (m.put l).hashed hash =
      if l.path.hash = hash then Entry.putInto l (m.hashed hash) else m.hashed hash := by
  rw [hashed, bucket_put]
  split
  · rw [Node.contents, Node.entries_put, hashed]
  · rfl

theorem hashed_warn (m : PathMap ω) (key : String) (hash : UInt32) :
    (m.warn key).hashed hash =
      if hashText key = hash then Entry.warnIn key (m.hashed hash) else m.hashed hash := by
  rw [hashed, bucket_warn]
  split
  · rw [Node.contents_warn, hashed]
  · rfl

theorem find_eq_hashed (m : PathMap ω) (check : Bool) (key : String) :
    m.find check key =
      .ok ((m.hashed (hashText key)).find? fun e => e.path.render == key) :=
  m.find_eq check key

end PathMap

namespace Index

def hashed (index : Index ω) (hash : UInt32) : List (Entry ω) :=
  match index.store with
  | .table t => t.hashed hash
  | .map m => m.hashed hash

theorem find_eq_hashed (index : Index ω) (key : String) :
    index.find key =
      .ok ((index.hashed (hashText key)).find? fun e => e.path.render == key) := by
  obtain ⟨store, check⟩ := index
  cases store with
  | table t => exact t.find_eq_hashed check key
  | map m => exact m.find_eq_hashed check key

theorem hashed_warn (index : Index ω) (key : String) (hash : UInt32) :
    (index.warn key).hashed hash =
      if hashText key = hash then Entry.warnIn key (index.hashed hash)
      else index.hashed hash := by
  obtain ⟨store, check⟩ := index
  cases store with
  | table t => exact t.hashed_warn key hash
  | map m => exact m.hashed_warn key hash

namespace Holds

variable {index : Index ω} {log : List (Located ω)}

theorem hashed_put (h : index.Holds log) (l : Located ω) (hash : UInt32) :
    (index.put l).value.hashed hash =
      if l.path.hash = hash then Entry.putInto l (index.hashed hash)
      else index.hashed hash := by
  obtain ⟨store, check⟩ := index
  cases store with
  | table t => exact PathTable.Holds.hashed_put h l hash
  | map m => exact m.hashed_put l hash

theorem hashed_reserve (h : index.Holds log) (count : Nat) (hash : UInt32) :
    (index.reserve count).value.hashed hash = index.hashed hash := by
  obtain ⟨store, check⟩ := index
  cases store with
  | table t => exact PathTable.Holds.hashed_grow h _ hash
  | map m => rfl

end Holds

inductive Request (ω : Type) where
  | put (location : Located ω)
  | reserve (count : Nat)
  | find (key : String)
  /-- Takes the warning of the entry that is found. -/
  | takeWarning (key : String)
  | size

inductive Answer (ω : Type) where
  | done
  | found (entry : Option (Entry ω))
  | warning (warning : Warning)
  | size (count : Nat)
deriving DecidableEq

def serve (index : Index ω) : Request ω → Except SegmentMismatch (Answer ω × Index ω)
  | .put location => .ok (.done, (index.put location).value)
  | .reserve count => .ok (.done, (index.reserve count).value)
  | .find key => (index.find key).map fun entry => (.found entry, index)
  | .takeWarning key =>
    (index.takeWarning key).map fun (warning, after) => (.warning warning, after)
  | .size => .ok (.size index.size, index)

def answers (index : Index ω) : List (Request ω) → Except SegmentMismatch (List (Answer ω))
  | [] => .ok []
  | request :: rest => do
    let (answer, index) ← index.serve request
    pure (answer :: (← index.answers rest))

/-- What was put into both was put into them in the same order, and has the same marks. -/
structure Alike (a b : Index ω) (log : List (Located ω)) : Prop where
  left : a.Holds log
  right : b.Holds log
  hashed : ∀ hash, a.hashed hash = b.hashed hash

namespace Alike

variable {a b : Index ω} {log : List (Located ω)}

theorem new (check check' : Bool) :
    Alike (ω := ω) (.new true check) (.new false check') [] where
  left := holds_new true check
  right := holds_new false check'
  hashed hash := by
    change ((PathTable.ofBits 7).entriesAt _).filter _ = Node.contents (PathMap.empty.bucket hash)
    rw [PathTable.entriesAt_ofBits, PathMap.bucket, PathMap.empty, Std.HashMap.getElem?_empty]
    rfl

theorem find_eq (h : Alike a b log) (key : String) : a.find key = b.find key := by
  rw [find_eq_hashed, find_eq_hashed, h.hashed]

theorem put (h : Alike a b log) (l : Located ω) :
    Alike (a.put l).value (b.put l).value (log ++ [l]) where
  left := h.left.put l
  right := h.right.put l
  hashed hash := by rw [h.left.hashed_put, h.right.hashed_put, h.hashed]

theorem reserve (h : Alike a b log) (count : Nat) :
    Alike (a.reserve count).value (b.reserve count).value log where
  left := h.left.reserve count
  right := h.right.reserve count
  hashed hash := by rw [h.left.hashed_reserve, h.right.hashed_reserve, h.hashed]

theorem warn (h : Alike a b log) (key : String) : Alike (a.warn key) (b.warn key) log where
  left := h.left.warn key
  right := h.right.warn key
  hashed hash := by rw [hashed_warn, hashed_warn, h.hashed]

theorem serve (h : Alike a b log) (request : Request ω) :
    ∃ answer a' b' log', a.serve request = .ok (answer, a') ∧ b.serve request = .ok (answer, b') ∧
      Alike a' b' log' := by
  cases request with
  | put l => exact ⟨_, _, _, _, rfl, rfl, h.put l⟩
  | reserve count => exact ⟨_, _, _, _, rfl, rfl, h.reserve count⟩
  | find key =>
    obtain ⟨entry, hfind, -⟩ := h.left.find key
    refine ⟨.found entry, a, b, log, ?_, ?_, h⟩
    · rw [Index.serve, hfind]
      rfl
    · rw [Index.serve, ← h.find_eq, hfind]
      rfl
  | takeWarning key =>
    obtain ⟨entry, hfind, -⟩ := h.left.find key
    have hfind' : b.find key = .ok entry := h.find_eq key ▸ hfind
    simp only [Index.serve, takeWarning, hfind, hfind']
    cases entry with
    | none => exact ⟨_, _, _, _, rfl, rfl, h⟩
    | some e =>
      cases e with
      | single location => exact ⟨_, _, _, _, rfl, rfl, h⟩
      | overlap first others warned => exact ⟨_, _, _, _, rfl, rfl, h.warn key⟩
  | size =>
    refine ⟨.size a.size, a, b, log, rfl, ?_, h⟩
    rw [Index.serve, h.left.size, h.right.size]

theorem answers (h : Alike a b log) (requests : List (Request ω)) :
    ∃ all, a.answers requests = .ok all ∧ b.answers requests = .ok all := by
  induction requests generalizing a b log with
  | nil => exact ⟨[], rfl, rfl⟩
  | cons request rest ih =>
    obtain ⟨answer, a', b', log', hleft, hright, halike⟩ := h.serve request
    obtain ⟨later, hleft', hright'⟩ := ih halike
    refine ⟨answer :: later, ?_, ?_⟩
    · rw [Index.answers, hleft]
      exact congrArg (Except.map (answer :: ·)) hleft'
    · rw [Index.answers, hright]
      exact congrArg (Except.map (answer :: ·)) hright'

end Alike

/-- Whatever is asked of the two representations, with or without the check of the segments, they
give the same answers. -/
theorem answers_eq_answers (requests : List (Request ω)) (check check' : Bool) :
    ∃ all, (new true check).answers requests = .ok all ∧
      (new false check').answers requests = .ok all :=
  (Alike.new check check').answers requests

/-- A warning that was taken stays so through growth, until another location is put. -/
example : (new (ω := Nat) true true).answers
    [.put ⟨.ofNames ["Aa"], 0⟩, .put ⟨.ofNames ["BB"], 1⟩, .put ⟨.ofNames ["Aa"], 2⟩,
      .takeWarning "/Aa", .reserve 200, .takeWarning "/Aa", .put ⟨.ofNames ["Aa"], 3⟩,
      .takeWarning "/Aa", .takeWarning "/BB", .size] =
    .ok [.done, .done, .done, .warning (.overlap true), .done, .warning (.overlap false), .done,
      .warning (.overlap true), .warning .single, .size 4] := by
  decide +kernel

end Index

end Overlay
