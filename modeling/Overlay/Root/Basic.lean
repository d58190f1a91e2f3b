import Overlay.Path.Entry
import Overlay.Walk

/-!
# Roots

A root is a tree of entries that contributes paths to a class path. It is known by the answers it
gives. Those that may change over time depend on `σ`, the state of everything outside the class
path.
-/

namespace Overlay

inductive RootKind where
  /-- Kept in memory. A read-only tree is indexed at once, a writable one is always asked. -/
  | memory (writable : Bool)
  /-- Read-only and indexed by a scan in the background. -/
  | archive
  /-- Anything else, always asked. -/
  | external
deriving DecidableEq

structure Root (σ : Type) where
  name : String
  kind : RootKind
  /-- Every entry, directories before what is in them. -/
  listing : σ → List EntryPath := fun _ => []
  size : σ → Nat := fun s => (listing s).length
  /-- The entry under a key in normal form. -/
  resolve : σ → String → Option EntryPath
  walk : Walk := .unsupported name
  read : σ → EntryPath → Except IoError ByteArray
  afterRead : σ → EntryPath → σ := fun s _ => s
  /-- Whether the walk has to wait before its visitor's call of the given number. -/
  stalls : σ → Nat → Bool := fun _ _ => false
  shown : σ → String

/-- A root, or several presented as one; of those the first that knows a path has it. -/
inductive RootTree (σ : Type) where
  | leaf (root : Root σ)
  | joined (name : String) (members : List (RootTree σ))

end Overlay
