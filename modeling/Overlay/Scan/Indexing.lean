import Overlay.Index.Basic
import Overlay.Scan.Indexer

/-!
# Putting a walk into the index

An indexer at work: every path it asks for is put into the index as coming from the one origin
whose walk is under way.
-/

namespace Overlay

structure Indexing (ω : Type) where
  index : Index ω
  origin : ω
  indexer : Indexer := {}

namespace Indexing

variable {ω : Type}

def put? (s : Indexing ω) : Option EntryPath → Logged (Index ω)
  | none => pure s.index
  | some path => s.index.put ⟨path, s.origin⟩

/-- Delivers one event of the walk of the root called `root`. -/
def deliver (root : String) (s : Indexing ω) (e : WalkEvent) :
    Logged (Except IoError Control × Indexing ω) :=
  let response := s.indexer.step root e
  let index := s.put? response.put?
  ⟨(response.answer, { s with index := index.value, indexer := response.after }),
    index.events ++ response.events root⟩

def visitor (root : String) : Visitor (Indexing ω) := fun s e => (s.deliver root e).value

end Indexing

end Overlay
