import Overlay.Event
import Overlay.Index.Node

/-!
# The path table

A hash table of buckets whose capacity is a power of two. It grows once more than three quarters
of its capacity have been put, moving whole entries, so that nothing merges and nothing is split.
-/

namespace Overlay

/-- A table of `2 ^ bits` buckets; `count` is the number of locations put. -/
structure PathTable (ω : Type) where
  bits : Nat
  buckets : Vector (Option (Node ω)) (Nat.pow 2 bits)
  count : Nat

namespace PathTable

variable {ω : Type}

def capacity (t : PathTable ω) : Nat := Nat.pow 2 t.bits

def ofBits (bits : Nat) : PathTable ω := ⟨bits, Vector.replicate _ none, 0⟩

/-- The table that everything starts from. -/
def empty : PathTable ω := ofBits 7

/-- How many locations a capacity is good for. -/
def threshold (capacity : Nat) : Nat := capacity / 4 * 3

/-- The most paths that room is made for up front. -/
def maxReserve : Nat := 0x10000

/-- The bits of the smallest table, of at least `2 ^ bits` buckets, that is good for `needed`
locations. Capacities stay below 2^64. -/
def bitsFor (needed bits : Nat) : Nat :=
  if threshold (Nat.pow 2 bits) < needed ∧ bits < 63 then bitsFor needed (bits + 1) else bits
termination_by 63 - bits

/-- The high half of a hash takes part in the choice of the bucket. -/
def spread (hash : UInt32) : UInt32 := hash ^^^ (hash >>> 16)

def slot (bits : Nat) (hash : UInt32) : Fin (Nat.pow 2 bits) :=
  ⟨(spread hash).toNat % Nat.pow 2 bits, Nat.mod_lt _ (Nat.two_pow_pos bits)⟩

def bucket (t : PathTable ω) (hash : UInt32) : Option (Node ω) :=
  t.buckets.get (slot t.bits hash)

def update (t : PathTable ω) (hash : UInt32) (f : Option (Node ω) → Option (Node ω)) :
    PathTable ω :=
  let ⟨bits, buckets, count⟩ := t
  let i := slot bits hash
  let node := buckets.get i
  -- the bucket is emptied first, so that its node is free to be changed in place
  ⟨bits, (buckets.set i none).set i (f node), count⟩

def entries (t : PathTable ω) : List (Entry ω) :=
  t.buckets.toList.flatMap fun
    | none => []
    | some node => node.entries

def place (t : PathTable ω) (e : Entry ω) : PathTable ω :=
  t.update e.path.hash fun node => some (Node.append node e)

/-- The same entries in a table of `2 ^ bits` buckets. -/
def rehash (t : PathTable ω) (bits : Nat) : PathTable ω :=
  { t.entries.foldl place (ofBits bits) with count := t.count }

/-- Makes the table good for `needed` locations. -/
def grow (t : PathTable ω) (needed : Nat) : Logged (PathTable ω) :=
  let bits := bitsFor needed t.bits
  if bits = t.bits then pure t
  else ⟨t.rehash bits, [.grown t.capacity (Nat.pow 2 bits)]⟩

def put (t : PathTable ω) (location : Located ω) : Logged (PathTable ω) := do
  let t ← t.grow (t.count + 1)
  let t := t.update location.path.hash fun node => some (Node.put node location)
  pure { t with count := t.count + 1 }

/-- Makes room for more locations, up to a limit. -/
def reserve (t : PathTable ω) (additional : Nat) : Logged (PathTable ω) :=
  t.grow (min (t.count + min additional maxReserve) (UInt64.size - 1))

def find (t : PathTable ω) (check : Bool) (key : String) :
    Except SegmentMismatch (Option (Entry ω)) :=
  match t.bucket (hashText key) with
  | none => .ok none
  | some node => node.find check key

def warn (t : PathTable ω) (key : String) : PathTable ω :=
  t.update (hashText key) fun node => node.map (Node.warn key)

def describe [ToString ω] (t : PathTable ω) (key : String) : String :=
  Node.describe key (some (slot t.bits (hashText key)).val) (t.bucket (hashText key)) ++
    " (capacity " ++ Nat.repr t.capacity ++ ", " ++ Nat.repr t.count ++ " paths)"

end PathTable

end Overlay
