import Overlay.IoError

/-!
# Walks over a tree

A walk reports a tree in pre-order: a directory is entered before its children are named and left
after them. A visitor answers every event, and the walk stops at the first answer that does not
let it proceed.
-/

namespace Overlay

inductive WalkEvent where
  /-- A directory begins; the root directory has no name. -/
  | enter (name : Option String)
  | file (name : String)
  /-- The current directory has no more children. -/
  | leave
deriving DecidableEq

inductive Control where
  | proceed
  | stop
deriving DecidableEq

inductive Ending where
  | done
  | failed (error : IoError)
  | crashed
deriving DecidableEq

/-- Answers an event from what it has seen so far, and remembers it. -/
abbrev Visitor (ω : Type) := ω → WalkEvent → Except IoError Control × ω

/-- The events a root has to report, and how its walk ends if no visitor stops it. -/
structure Walk where
  events : List WalkEvent
  ending : Ending
deriving DecidableEq

namespace Walk

variable {ω : Type}

def playFrom (visit : Visitor ω) (ending : Ending) : List WalkEvent → ω → Ending × ω
  | [], s => (ending, s)
  | e :: rest, s =>
    match visit s e with
    | (.error error, s) => (.failed error, s)
    | (.ok .stop, s) => (.done, s)
    | (.ok .proceed, s) => playFrom visit ending rest s

def play (walk : Walk) (visit : Visitor ω) (s : ω) : Ending × ω :=
  playFrom visit walk.ending walk.events s

/-- The walk of a root that has no tree to show. -/
def unsupported (root : String) : Walk := ⟨[], .failed (.unwalkable root)⟩

end Walk

end Overlay
