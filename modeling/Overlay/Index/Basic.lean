import Overlay.Index.Table
import Overlay.Index.Standard

/-!
# The path index

From paths in normal form to the locations at which they were put, in one of two
representations that give the same answers.
-/

namespace Overlay

inductive IndexStore (ω : Type) where
  | table (table : PathTable ω)
  | map (map : PathMap ω)

structure Index (ω : Type) where
  store : IndexStore ω
  /-- Whether every comparison of segments is repeated as text. -/
  check : Bool

namespace Index

variable {ω : Type}

def new (customTable check : Bool) : Index ω :=
  ⟨if customTable then .table .empty else .map .empty, check⟩

/-- Records that a path exists at its origin. -/
def put (index : Index ω) (location : Located ω) : Logged (Index ω) :=
  match index with
  | ⟨.table t, check⟩ => (fun t => ⟨.table t, check⟩) <$> t.put location
  | ⟨.map m, check⟩ => pure ⟨.map (m.put location), check⟩

def reserve (index : Index ω) (additional : Nat) : Logged (Index ω) :=
  match index with
  | ⟨.table t, check⟩ => (fun t => ⟨.table t, check⟩) <$> t.reserve additional
  | ⟨.map m, check⟩ => pure ⟨.map m, check⟩

def find (index : Index ω) (key : String) : Except SegmentMismatch (Option (Entry ω)) :=
  match index.store with
  | .table t => t.find index.check key
  | .map m => m.find index.check key

def warn (index : Index ω) (key : String) : Index ω :=
  match index with
  | ⟨.table t, check⟩ => ⟨.table (t.warn key), check⟩
  | ⟨.map m, check⟩ => ⟨.map (m.warn key), check⟩

def size (index : Index ω) : Nat :=
  match index.store with
  | .table t => t.count
  | .map m => m.count

def describe [ToString ω] (index : Index ω) (key : String) : String :=
  match index.store with
  | .table t => t.describe key
  | .map m => m.describe key

inductive Warning where
  | absent
  | single
  /-- Several locations, and whether that was not warned about before. -/
  | overlap (fresh : Bool)
deriving DecidableEq

/-- Takes the warning about a key's ambiguity: it is fresh once, and again after every
extension. -/
def takeWarning (index : Index ω) (key : String) :
    Except SegmentMismatch (Warning × Index ω) := do
  match ← index.find key with
  | none => pure (.absent, index)
  | some (.single _) => pure (.single, index)
  | some (.overlap _ _ warned) => pure (.overlap (!warned), index.warn key)

end Index

end Overlay
