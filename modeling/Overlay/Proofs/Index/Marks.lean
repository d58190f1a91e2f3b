import Overlay.Proofs.Index.Contents

/-!
# Marks of reported ambiguities

An entry of the index bears a mark that its ambiguity was reported. `unmarked` takes the marks off.
The operations of the index do not look at them: what they make of an index without marks is what
they make of the index, but for the marks. So two indexes that are the same without their marks,
`Index.Matches`, go on to be so, and they answer alike but for the marks.
-/

namespace Overlay

variable {ω : Type}

namespace Entry

def unmarked : Entry ω → Entry ω
  | single location => single location
  | overlap first others _ => overlap first others false

@[simp] theorem path_unmarked (e : Entry ω) : e.unmarked.path = e.path := by
  cases e <;> rfl

@[simp] theorem locations_unmarked (e : Entry ω) : e.unmarked.locations = e.locations := by
  cases e <;> rfl

@[simp] theorem first_unmarked (e : Entry ω) : e.unmarked.first = e.first := by
  cases e <;> rfl

@[simp] theorem unmarked_warn (e : Entry ω) : e.warn.unmarked = e.unmarked := by
  cases e <;> rfl

theorem extend_unmarked (e : Entry ω) (l : Located ω) :
    e.unmarked.extend l = (e.extend l).unmarked := by
  cases e <;> rfl

theorem putInto_unmarked (l : Located ω) (es : List (Entry ω)) :
    putInto l (es.map unmarked) = (putInto l es).map unmarked := by
  induction es with
  | nil => rfl
  | cons e rest ih =>
    rw [List.map_cons, putInto, putInto, path_unmarked, ih, extend_unmarked]
    split <;> rfl

theorem unmarked_warnIn (key : String) (es : List (Entry ω)) :
    (warnIn key es).map unmarked = es.map unmarked := by
  induction es with
  | nil => rfl
  | cons e rest ih =>
    rw [warnIn]
    split
    · rw [List.map_cons, List.map_cons, unmarked_warn]
    · rw [List.map_cons, List.map_cons, ih]

theorem findIn_unmarked (check : Bool) (key : String) (es : List (Entry ω)) :
    findIn check key (es.map unmarked) = (findIn check key es).map (Option.map unmarked) := by
  induction es with
  | nil => rfl
  | cons e rest ih =>
    have hanswers : e.unmarked.answers check key = e.answers check key := by
      rw [answers, answers, path_unmarked]
    rw [List.map_cons, findIn, findIn, hanswers, ih]
    cases e.answers check key with
    | error mismatch => rfl
    | ok hit => cases hit <;> rfl

theorem shown_unmarked [ToString ω] (e : Entry ω) : e.unmarked.shown = e.shown := by
  cases e <;> rfl

end Entry

namespace Node

def unmarked : Node ω → Node ω
  | entry e => entry e.unmarked
  | collision es => collision (es.map Entry.unmarked)

theorem entries_unmarked (node : Node ω) :
    node.unmarked.entries = node.entries.map Entry.unmarked := by
  cases node <;> rfl

theorem unmarked_warn (key : String) (node : Node ω) :
    (node.warn key).unmarked = node.unmarked := by
  cases node with
  | entry e =>
    rw [warn]
    split
    · rw [unmarked, unmarked, Entry.unmarked_warn]
    · rfl
  | collision es => rw [warn, unmarked, unmarked, Entry.unmarked_warnIn]

theorem put_unmarked (node : Option (Node ω)) (l : Located ω) :
    put (node.map unmarked) l = (put node l).unmarked := by
  rcases node with _ | e | es
  · rfl
  · simp only [Option.map_some, unmarked, put, Entry.path_unmarked, Entry.extend_unmarked]
    split <;> rfl
  · simp only [Option.map_some, unmarked, put, Entry.putInto_unmarked]

theorem append_unmarked (node : Option (Node ω)) (e : Entry ω) :
    append (node.map unmarked) e.unmarked = (append node e).unmarked := by
  cases node with
  | none => rfl
  | some node =>
    rw [Option.map_some, append, append, entries_unmarked, unmarked, List.map_append]
    rfl

theorem find_unmarked (check : Bool) (key : String) (node : Node ω) :
    node.unmarked.find check key = (node.find check key).map (Option.map Entry.unmarked) := by
  rw [find, find, entries_unmarked, Entry.findIn_unmarked]

theorem describe_unmarked [ToString ω] (key : String) (bucket : Option Nat)
    (node : Option (Node ω)) :
    describe key bucket (node.map unmarked) = describe key bucket node := by
  have hshown : ∀ node : Node ω, node.unmarked.shown = node.shown := by
    rintro (e | es)
    · exact e.shown_unmarked
    · simp only [unmarked, shown, List.map_map, Function.comp_def, Entry.shown_unmarked]
  cases node with
  | none => rfl
  | some node => simp only [describe, Option.map_some, hshown]

end Node

namespace PathTable

def unmarked (t : PathTable ω) : PathTable ω :=
  ⟨t.bits, t.buckets.map (Option.map Node.unmarked), t.count⟩

theorem bucket_unmarked (t : PathTable ω) (hash : UInt32) :
    t.unmarked.bucket hash = (t.bucket hash).map Node.unmarked :=
  Vector.getElem_map _ _

/-- What can be done to a bucket without its marks can be done to the table without them. -/
theorem update_unmarked (t : PathTable ω) (hash : UInt32)
    {f g : Option (Node ω) → Option (Node ω)}
    (h : ∀ node, g (node.map Node.unmarked) = (f node).map Node.unmarked) :
    t.unmarked.update hash g = (t.update hash f).unmarked := by
  have hbucket := t.bucket_unmarked hash
  obtain ⟨bits, buckets, count⟩ := t
  simp only [bucket, unmarked] at hbucket
  simp only [unmarked, update, Vector.map_set, hbucket, h, Option.map_none]

theorem entries_unmarked (t : PathTable ω) :
    t.unmarked.entries = t.entries.map Entry.unmarked := by
  simp only [entries_eq_flatMap, unmarked, Vector.toList_map, List.flatMap_map, List.map_flatMap]
  congr 1
  funext node
  cases node with
  | none => rfl
  | some node => exact node.entries_unmarked

theorem place_unmarked (t : PathTable ω) (e : Entry ω) :
    t.unmarked.place e.unmarked = (t.place e).unmarked := by
  rw [place, Entry.path_unmarked]
  exact t.update_unmarked e.path.hash fun node => congrArg some (Node.append_unmarked node e)

theorem rehash_unmarked (t : PathTable ω) (bits : Nat) :
    t.unmarked.rehash bits = (t.rehash bits).unmarked := by
  have hplace : ∀ (es : List (Entry ω)) (t : PathTable ω),
      (es.map Entry.unmarked).foldl place t.unmarked = (es.foldl place t).unmarked := by
    intro es
    induction es with
    | nil => exact fun _ => rfl
    | cons e rest ih =>
      intro t
      rw [List.map_cons, List.foldl_cons, place_unmarked, ih, List.foldl_cons]
  have hempty : (ofBits (ω := ω) bits).unmarked = ofBits bits := by
    simp only [unmarked, ofBits, Vector.map_replicate, Option.map_none]
  rw [rehash, entries_unmarked, ← hempty, hplace]
  rfl

theorem grow_unmarked (t : PathTable ω) (needed : Nat) :
    (t.unmarked.grow needed).value = (t.grow needed).value.unmarked := by
  have hbits : t.unmarked.bits = t.bits := rfl
  simp only [grow, hbits, rehash_unmarked]
  split <;> rfl

theorem put_unmarked (t : PathTable ω) (l : Located ω) :
    (t.unmarked.put l).value = (t.put l).value.unmarked := by
  have hupdate := update_unmarked (t.grow (t.count + 1)).value l.path.hash
    (f := fun node => some (Node.put node l)) (g := fun node => some (Node.put node l))
    fun node => congrArg some (Node.put_unmarked node l)
  rw [← grow_unmarked] at hupdate
  exact congrArg (fun t : PathTable ω => { t with count := t.count + 1 }) hupdate

theorem reserve_unmarked (t : PathTable ω) (additional : Nat) :
    (t.unmarked.reserve additional).value = (t.reserve additional).value.unmarked :=
  t.grow_unmarked _

theorem unmarked_warn (t : PathTable ω) (key : String) : (t.warn key).unmarked = t.unmarked := by
  obtain ⟨bits, buckets, count⟩ := t
  have hwarn : ∀ node : Option (Node ω),
      (node.map (Node.warn key)).map Node.unmarked = node.map Node.unmarked := fun node => by
    rw [Option.map_map]
    exact congrArg (Option.map · node) (funext (Node.unmarked_warn key))
  have hlt := (slot bits (hashText key)).isLt
  have hsame : buckets.get (slot bits (hashText key)) = buckets[slot bits (hashText key)] := rfl
  simp only [warn, update, unmarked, Vector.map_set, Vector.set_set, hwarn, hsame]
  rw [Fin.getElem_fin, ← Vector.getElem_map (Option.map Node.unmarked) hlt,
    Vector.set_getElem_self]

theorem find_unmarked (t : PathTable ω) (check : Bool) (key : String) :
    t.unmarked.find check key = (t.find check key).map (Option.map Entry.unmarked) := by
  rw [find, find, bucket_unmarked]
  cases t.bucket (hashText key) with
  | none => rfl
  | some node => exact node.find_unmarked check key

theorem describe_unmarked [ToString ω] (t : PathTable ω) (key : String) :
    t.unmarked.describe key = t.describe key := by
  rw [describe, describe, bucket_unmarked, Node.describe_unmarked]
  rfl

end PathTable

namespace PathMap

def unmarked (m : PathMap ω) (hash : UInt32) : Option (Node ω) :=
  (m.bucket hash).map Node.unmarked

theorem unmarked_put (m : PathMap ω) (l : Located ω) (hash : UInt32) :
    (m.put l).unmarked hash =
      if l.path.hash = hash then some (Node.put (m.unmarked hash) l) else m.unmarked hash := by
  rw [unmarked, bucket_put]
  split
  · rw [Option.map_some, ← Node.put_unmarked, unmarked]
  · rfl

theorem unmarked_warn (m : PathMap ω) (key : String) (hash : UInt32) :
    (m.warn key).unmarked hash = m.unmarked hash := by
  rw [unmarked, bucket_warn]
  split
  · rw [Option.map_map, unmarked]
    exact congrArg (Option.map · (m.bucket hash)) (funext (Node.unmarked_warn key))
  · rfl

theorem map_find (m : PathMap ω) (check : Bool) (key : String) :
    (m.find check key).map (Option.map Entry.unmarked) =
      match m.unmarked (hashText key) with
      | none => .ok none
      | some node => node.find check key := by
  rw [PathMap.find, unmarked]
  cases m.bucket (hashText key) with
  | none => rfl
  | some node => exact (node.find_unmarked check key).symm

end PathMap

def IndexStore.unmarked : IndexStore ω → PathTable ω ⊕ Nat × (UInt32 → Option (Node ω))
  | table t => .inl t.unmarked
  | map m => .inr (m.count, m.unmarked)

namespace Index

structure Matches (a b : Index ω) : Prop where
  store : a.store.unmarked = b.store.unmarked
  check : a.check = b.check

namespace Matches

variable {a b c : Index ω}

theorem refl (a : Index ω) : a.Matches a := ⟨rfl, rfl⟩

theorem symm (h : a.Matches b) : b.Matches a := ⟨h.store.symm, h.check.symm⟩

theorem trans (h : a.Matches b) (h' : b.Matches c) : a.Matches c :=
  ⟨h.store.trans h'.store, h.check.trans h'.check⟩

theorem on_stores {p : Index ω → Index ω → Prop} (h : a.Matches b)
    (htable : ∀ t t' check, t.unmarked = t'.unmarked → p ⟨.table t, check⟩ ⟨.table t', check⟩)
    (hmap : ∀ m m' check, m.count = m'.count → m.unmarked = m'.unmarked →
      p ⟨.map m, check⟩ ⟨.map m', check⟩) : p a b := by
  obtain ⟨store, check⟩ := a
  obtain ⟨store', check'⟩ := b
  obtain ⟨hstore, hcheck⟩ := h
  obtain rfl : check = check' := hcheck
  cases store with
  | table t =>
    cases store' with
    | table t' => exact htable t t' check (Sum.inl.inj hstore)
    | map m' => cases hstore
  | map m =>
    cases store' with
    | table t' => cases hstore
    | map m' =>
      obtain ⟨hcount, hunmarked⟩ := Prod.mk.inj (Sum.inr.inj hstore)
      exact hmap m m' check hcount hunmarked

theorem put (h : a.Matches b) (l : Located ω) : (a.put l).value.Matches (b.put l).value := by
  refine h.on_stores (p := fun a b => (a.put l).value.Matches (b.put l).value) ?_ ?_
  · intro t t' check ht
    refine ⟨congrArg Sum.inl ?_, rfl⟩
    rw [← t.put_unmarked, ← t'.put_unmarked, ht]
  · intro m m' check hcount hm
    refine ⟨congrArg Sum.inr (Prod.ext (congrArg Nat.succ hcount) (funext fun hash => ?_)), rfl⟩
    change (m.put l).unmarked hash = (m'.put l).unmarked hash
    rw [m.unmarked_put, m'.unmarked_put, hm]

theorem reserve (h : a.Matches b) (count : Nat) :
    (a.reserve count).value.Matches (b.reserve count).value := by
  refine h.on_stores (p := fun a b => (a.reserve count).value.Matches (b.reserve count).value) ?_ ?_
  · intro t t' check ht
    refine ⟨congrArg Sum.inl ?_, rfl⟩
    rw [← t.reserve_unmarked, ← t'.reserve_unmarked, ht]
  · intro m m' check hcount hm
    exact ⟨congrArg Sum.inr (Prod.ext hcount hm), rfl⟩

theorem warn (a : Index ω) (key : String) : a.Matches (a.warn key) := by
  obtain ⟨store, check⟩ := a
  cases store with
  | table t => exact ⟨congrArg Sum.inl (t.unmarked_warn key).symm, rfl⟩
  | map m =>
    have hmarks := funext fun hash => (m.unmarked_warn key hash).symm
    exact ⟨congrArg Sum.inr (Prod.ext (m.count_warn key).symm hmarks), rfl⟩

theorem find (h : a.Matches b) (key : String) :
    (a.find key).map (Option.map Entry.unmarked) =
      (b.find key).map (Option.map Entry.unmarked) := by
  refine h.on_stores (p := fun a b => (a.find key).map _ = (b.find key).map _) ?_ ?_
  · intro t t' check ht
    change (t.find check key).map _ = (t'.find check key).map _
    rw [← t.find_unmarked, ← t'.find_unmarked, ht]
  · intro m m' check hcount hm
    change (m.find check key).map _ = (m'.find check key).map _
    rw [m.map_find, m'.map_find, hm]

theorem find_locations (h : a.Matches b) (key : String) :
    (a.find key).map (Option.map Entry.locations) =
      (b.find key).map (Option.map Entry.locations) := by
  have hlocations : ∀ found : Except SegmentMismatch (Option (Entry ω)),
      (found.map (Option.map Entry.unmarked)).map (Option.map Entry.locations) =
        found.map (Option.map Entry.locations) := by
    rintro (mismatch | _ | e)
    · rfl
    · rfl
    · simp only [Except.map, Option.map_some, Entry.locations_unmarked]
  rw [← hlocations, h.find, hlocations]

theorem size (h : a.Matches b) : a.size = b.size := by
  refine h.on_stores (p := fun a b => a.size = b.size) ?_ ?_
  · intro t t' check ht
    have hcount : t.unmarked.count = t'.unmarked.count := by rw [ht]
    exact hcount
  · exact fun m m' check hcount _ => hcount

theorem describe [ToString ω] (h : a.Matches b) (key : String) :
    a.describe key = b.describe key := by
  refine h.on_stores (p := fun a b => a.describe key = b.describe key) ?_ ?_
  · intro t t' check ht
    change t.describe key = t'.describe key
    rw [← t.describe_unmarked, ← t'.describe_unmarked, ht]
  · intro m m' check hcount hm
    change Node.describe key none (m.bucket (hashText key)) =
      Node.describe key none (m'.bucket (hashText key))
    rw [← Node.describe_unmarked, ← Node.describe_unmarked key none (m'.bucket (hashText key))]
    exact congrArg (Node.describe key none) (congrFun hm (hashText key))

end Matches

end Index

end Overlay
