import Overlay.Path.Entry
import Overlay.Text.Quoted

/-!
# Buckets of the path index

A bucket holds one entry per path, and an entry the locations at which its path was put, in that
order. `Node.put` adds a location to a bucket; `Node.find` looks a key up in it.
-/

namespace Overlay

/-- A path and where it comes from. -/
structure Located (ω : Type) where
  path : EntryPath
  origin : ω
deriving DecidableEq

/-- Every location of one path. -/
inductive Entry (ω : Type) where
  | single (location : Located ω)
  /-- Put more than once; `warned` tells whether its ambiguity has been reported. -/
  | overlap (first : Located ω) (others : List (Located ω)) (warned : Bool)
deriving DecidableEq

namespace Entry

variable {ω : Type}

def locations : Entry ω → List (Located ω)
  | single location => [location]
  | overlap first others _ => first :: others

def first : Entry ω → Located ω
  | single location => location
  | overlap first _ _ => first

def path (entry : Entry ω) : EntryPath := entry.first.path

def extend : Entry ω → Located ω → Entry ω
  | single first, location => overlap first [location] false
  | overlap first others _, location => overlap first (others ++ [location]) false

/-- Whether the entry has an ambiguity that was not reported yet. -/
def unwarned : Entry ω → Bool
  | single _ => false
  | overlap _ _ warned => !warned

def warn : Entry ω → Entry ω
  | single location => single location
  | overlap first others _ => overlap first others true

@[simp] theorem locations_extend (entry : Entry ω) (location : Located ω) :
    (entry.extend location).locations = entry.locations ++ [location] := by
  cases entry <;> rfl

@[simp] theorem path_extend (entry : Entry ω) (location : Located ω) :
    (entry.extend location).path = entry.path := by
  cases entry <;> rfl

@[simp] theorem locations_warn (entry : Entry ω) : entry.warn.locations = entry.locations := by
  cases entry <;> rfl

@[simp] theorem path_warn (entry : Entry ω) : entry.warn.path = entry.path := by
  cases entry <;> rfl

end Entry

inductive Node (ω : Type) where
  | entry (entry : Entry ω)
  /-- Different paths that fall into the same bucket. -/
  | collision (entries : List (Entry ω))
deriving DecidableEq

/-- Comparing segments and comparing texts came to different results. -/
structure SegmentMismatch where
  rendered : String
  key : String
  bySegments : Bool
deriving DecidableEq

namespace SegmentMismatch

def message (m : SegmentMismatch) : String :=
  "Segment comparison of '" ++ m.rendered ++ "' against '" ++ m.key ++ "' returned " ++
    toString m.bySegments ++ ", but string comparison returned " ++ toString (!m.bySegments)

end SegmentMismatch

/-- Adds a location to the entry of its path, behind the others if there is none. -/
def Entry.putInto {ω : Type} (location : Located ω) : List (Entry ω) → List (Entry ω)
  | [] => [.single location]
  | e :: rest =>
    if e.path.samePath location.path then e.extend location :: rest
    else e :: putInto location rest

/-- Whether an entry is the one a key asks for. With `check`, the segments are compared as text
as well. -/
def Entry.answers {ω : Type} (check : Bool) (key : String) (e : Entry ω) :
    Except SegmentMismatch Bool :=
  let hit := e.path.rendersAs key
  if check && hit != (e.path.render == key) then .error ⟨e.path.render, key, hit⟩ else .ok hit

def Entry.findIn {ω : Type} (check : Bool) (key : String) :
    List (Entry ω) → Except SegmentMismatch (Option (Entry ω))
  | [] => .ok none
  | e :: rest => do
    if ← e.answers check key then pure (some e) else findIn check key rest

/-- Marks the entry a key asks for as reported. -/
def Entry.warnIn {ω : Type} (key : String) : List (Entry ω) → List (Entry ω)
  | [] => []
  | e :: rest => if e.path.rendersAs key then e.warn :: rest else e :: warnIn key rest

namespace Node

variable {ω : Type}

def entries : Node ω → List (Entry ω)
  | entry e => [e]
  | collision es => es

def append : Option (Node ω) → Entry ω → Node ω
  | none, e => entry e
  | some node, e => collision (node.entries ++ [e])

def put : Option (Node ω) → Located ω → Node ω
  | none, location => entry (.single location)
  | some (entry e), location =>
    if e.path.samePath location.path then entry (e.extend location)
    else collision [e, .single location]
  | some (collision es), location => collision (Entry.putInto location es)

def find (check : Bool) (key : String) (node : Node ω) :
    Except SegmentMismatch (Option (Entry ω)) :=
  Entry.findIn check key node.entries

def warn (key : String) : Node ω → Node ω
  | entry e => if e.path.rendersAs key then entry e.warn else entry e
  | collision es => collision (Entry.warnIn key es)

end Node

section Shown

variable {ω : Type} [ToString ω]

def Located.shown (l : Located ω) : String := l.path.render ++ " in " ++ toString l.origin

def Entry.shown : Entry ω → String
  | .single location => "single " ++ location.shown
  | .overlap first others _ => Text.bracketed ((first :: others).map Located.shown)

def Node.shown : Node ω → String
  | .entry e => e.shown
  | .collision es => "collision " ++ Text.bracketed (es.map Entry.shown)

def Node.describe (key : String) (bucket : Option Nat) (node : Option (Node ω)) : String :=
  "key '" ++ key ++ "' hash 0x" ++ Text.hexPadded 8 (hashText key).toNat ++
    (match bucket with
      | some b => " bucket " ++ Nat.repr b
      | none => "") ++
    (match node with
      | none => ": empty"
      | some node => ": " ++ node.shown)

end Shown

end Overlay
