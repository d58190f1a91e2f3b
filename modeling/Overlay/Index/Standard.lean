import Std.Data.HashMap
import Overlay.Index.Node

/-!
# The standard path map

The path index as a standard map from full hashes to buckets. It needs no growth of its own.
-/

namespace Overlay

structure PathMap (ω : Type) where
  nodes : Std.HashMap UInt32 (Node ω)
  count : Nat

namespace PathMap

variable {ω : Type}

def empty : PathMap ω := ⟨∅, 0⟩

def bucket (m : PathMap ω) (hash : UInt32) : Option (Node ω) := m.nodes[hash]?

def put (m : PathMap ω) (location : Located ω) : PathMap ω :=
  let hash := location.path.hash
  ⟨m.nodes.insert hash (Node.put (m.bucket hash) location), m.count + 1⟩

def find (m : PathMap ω) (check : Bool) (key : String) :
    Except SegmentMismatch (Option (Entry ω)) :=
  match m.bucket (hashText key) with
  | none => .ok none
  | some node => node.find check key

def warn (m : PathMap ω) (key : String) : PathMap ω :=
  match m.bucket (hashText key) with
  | none => m
  | some node => { m with nodes := m.nodes.insert (hashText key) (node.warn key) }

def describe [ToString ω] (m : PathMap ω) (key : String) : String :=
  Node.describe key none (m.bucket (hashText key))

end PathMap

end Overlay
