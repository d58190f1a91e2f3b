import Overlay.Event
import Overlay.Path.Entry
import Overlay.Walk

/-!
# Indexing an archive from its walk

The indexer turns the names that a walk reports into paths. It keeps the directories that are
open, and counts what it has put; an event it refuses changes nothing.
-/

namespace Overlay

/-- The open directories, the innermost first, and how much was put. -/
structure Indexer where
  stack : List EntryPath := []
  folders : Nat := 0
  files : Nat := 0
deriving DecidableEq, Inhabited

namespace Indexer

structure Response where
  answer : Except IoError Control
  put? : Option EntryPath
  after : Indexer

def refuse (ix : Indexer) (error : IoError) : Response := ⟨.error error, none, ix⟩

def enter (ix : Indexer) (path : EntryPath) : Response :=
  ⟨.ok .proceed, some path,
    { ix with stack := path :: ix.stack, folders := ix.folders + 1 }⟩

/-- Answers one event of the walk of the root called `root`. -/
def step (root : String) (ix : Indexer) : WalkEvent → Response
  | .enter none =>
    match ix.stack with
    | [] => ix.enter .root
    | [_] => ⟨.ok .stop, none, ix⟩
    | inside :: _ :: _ => ix.refuse (.nestedRoot root inside.render)
  | .enter (some name) =>
    match ix.stack with
    | [] => ix.refuse (.outsideRoot root)
    | inside :: _ => ix.enter (inside.child name)
  | .file name =>
    match ix.stack with
    | [] => ix.refuse (.outsideRoot root)
    | inside :: _ =>
      ⟨.ok .proceed, some (inside.child name), { ix with files := ix.files + 1 }⟩
  | .leave => ⟨.ok .proceed, none, { ix with stack := ix.stack.tail }⟩

def Response.events (root : String) (r : Response) : List Event :=
  match r.answer with
  | .ok .stop => [.rootRepeated root r.after.folders r.after.files]
  | _ => []

end Indexer

end Overlay
