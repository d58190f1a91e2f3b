import Overlay.Config
import Overlay.Registration
import Overlay.Scan.Indexing
import Overlay.Scan.Pool

/-!
# Class paths

A class path is made of roots overlaid into one namespace. What can be indexed is put into the
path index, archives by scans in the background; every other root, and an archive until its scan
is through, stands in the fallback registry and is asked itself.
-/

namespace Overlay

/-- A root as a member of a class path. -/
abbrev Member (σ δ : Type) := RootEntry (Root σ) δ

abbrev Found (σ δ : Type) := Located (Member σ δ)

/-- A scan under way: what its walk still has to report, and how many calls its visitor has
answered. -/
structure Scan (σ δ : Type) where
  entry : Member σ δ
  indexer : Indexer := {}
  rest : List WalkEvent
  calls : Nat := 0

namespace Scan

variable {σ δ : Type}

def new (entry : Member σ δ) : Scan σ δ := { entry := entry, rest := entry.root.walk.events }

/-- Whether the walk has to wait before its next event. -/
def held (w : σ) (scan : Scan σ δ) : Bool :=
  !scan.rest.isEmpty && scan.entry.root.stalls w scan.calls

end Scan

structure ClassPath (σ δ : Type) where
  config : Config
  index : Index (Member σ δ)
  fallback : Registry (Root σ) δ := []
  pool : Pool (Scan σ δ)
  nextOrdinal : Nat := 0
  /-- With validation, every member there is, in the order of their ordinals. -/
  known : Option (List (Member σ δ))
  /-- Whether every lookup is logged in full. -/
  fullDetail : Bool := false

namespace ClassPath

variable {σ δ : Type}

def new (config : Config) : ClassPath σ δ where
  config := config
  index := .new config.customTable config.validate
  pool := .new config.maxScanners
  known := if config.validate then some [] else none

/-- The number of members that lookups ask themselves. -/
def pending (cp : ClassPath σ δ) : Nat := cp.fallback.length

def indexed (cp : ClassPath σ δ) : Nat := cp.index.size

def shown (cp : ClassPath σ δ) : String :=
  Text.record "ClassPath"
    [("config", cp.config.shown), ("indexed", Nat.repr cp.indexed),
      ("fallback", Nat.repr cp.pending), ("scanner", cp.pool.shown)]

end ClassPath

end Overlay
