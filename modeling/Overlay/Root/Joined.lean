import Overlay.Root.Basic
import Overlay.Text.Quoted

/-!
# Joined roots

A joined root answers with the first member that knows a path. `RootTree.leaves` are the roots it
is made of, in the order in which they take part.
-/

namespace Overlay.RootTree

variable {σ : Type}

def name : RootTree σ → String
  | leaf root => root.name
  | joined name _ => name

def members : RootTree σ → List (RootTree σ)
  | leaf _ => []
  | joined _ members => members

mutual

def leaves : RootTree σ → List (Root σ)
  | leaf root => [root]
  | joined _ members => leavesOf members

def leavesOf : List (RootTree σ) → List (Root σ)
  | [] => []
  | member :: rest => member.leaves ++ leavesOf rest

end

mutual

def resolve (s : σ) (key : String) : RootTree σ → Option EntryPath
  | leaf root => root.resolve s key
  | joined _ members => resolveFirst s key members

def resolveFirst (s : σ) (key : String) : List (RootTree σ) → Option EntryPath
  | [] => none
  | member :: rest =>
    match member.resolve s key with
    | some path => some path
    | none => resolveFirst s key rest

end

mutual

def read (s : σ) (path : EntryPath) : RootTree σ → Except IoError ByteArray
  | leaf root => root.read s path
  | joined name members => readFirst s path name members

/-- Reads from the first member that knows the path. -/
def readFirst (s : σ) (path : EntryPath) (name : String) :
    List (RootTree σ) → Except IoError ByteArray
  | [] => .error (.missing path.render name)
  | member :: rest =>
    if (member.resolve s path.render).isSome then member.read s path
    else readFirst s path name rest

end

mutual

def afterRead (s : σ) (path : EntryPath) : RootTree σ → σ
  | leaf root => root.afterRead s path
  | joined _ members => afterReadFirst s path members

def afterReadFirst (s : σ) (path : EntryPath) : List (RootTree σ) → σ
  | [] => s
  | member :: rest =>
    if (member.resolve s path.render).isSome then member.afterRead s path
    else afterReadFirst s path rest

end

/-- A joined root lists nothing of its own. -/
def listing (s : σ) : RootTree σ → List EntryPath
  | leaf root => root.listing s
  | joined .. => []

def size (s : σ) : RootTree σ → Nat
  | leaf root => root.size s
  | joined .. => 0

def walk : RootTree σ → Walk
  | leaf root => root.walk
  | joined name _ => .unsupported name

mutual

def shown (s : σ) : RootTree σ → String
  | leaf root => root.shown s
  | joined name members =>
    Text.record "JoinedRoot"
      [("name", Text.quoted name), ("members", Text.bracketed (shownEach s members))]

def shownEach (s : σ) : List (RootTree σ) → List String
  | [] => []
  | member :: rest => member.shown s :: shownEach s rest

end

end Overlay.RootTree
