import Overlay.Path.Normal
import Overlay.Path.Hash

/-!
# Paths inside a root

An entry path is the root directory or a name inside another entry path. Its hash, length and
depth follow the chain of parents, without writing the path out; `EntryPath.rendersAs` and
`EntryPath.samePath` compare name by name from the last one backwards.
-/

namespace Overlay

inductive EntryPath where
  | root
  | child (parent : EntryPath) (name : String)
deriving DecidableEq, Inhabited

namespace EntryPath

def isRoot : EntryPath → Bool
  | root => true
  | child .. => false

def parent? : EntryPath → Option EntryPath
  | root => none
  | child parent _ => some parent

/-- The directory that `..` leads to. -/
def up : EntryPath → EntryPath
  | root => root
  | child parent _ => parent

/-- The last name, empty for the root. -/
def name : EntryPath → String
  | root => ""
  | child _ name => name

def names : EntryPath → List String
  | root => []
  | child parent name => parent.names ++ [name]

def ofNames (names : List String) : EntryPath := names.foldl child root

/-- What the path contributes in front of a further name. -/
def lead : EntryPath → String
  | root => ""
  | child parent name => parent.lead ++ "/" ++ name

def render : EntryPath → String
  | root => "/"
  | child parent name => (child parent name).lead

def shown (path : EntryPath) : String := "EntryPath(" ++ path.render ++ ")"

def step (path : EntryPath) (segment : String) : EntryPath :=
  if segment = ".." then path.up else path.child segment

def parse (path : String) : EntryPath := (segments path).foldl step root

/-- The length in bytes of what the path contributes in front of a further name. -/
def leadLength : EntryPath → Nat
  | root => 0
  | child parent name => parent.leadLength + 1 + name.utf8ByteSize

/-- The length in bytes of the rendered path. -/
def length : EntryPath → Nat
  | root => 1
  | path@(child ..) => path.leadLength

def depth : EntryPath → Nat
  | root => 0
  | child parent _ => parent.depth + 1

def slash : UInt8 := 47

/-- The hash of what the path contributes in front of a further name. -/
def leadHash : EntryPath → UInt32
  | root => 0
  | child parent name => hashFrom (hashFrom parent.leadHash [slash]) (utf8 name)

def hash : EntryPath → UInt32
  | root => hashText "/"
  | path@(child ..) => path.leadHash

/-- The path itself, its parent, and so on up to the root. -/
def ancestors : EntryPath → List EntryPath
  | root => []
  | child parent _ => parent :: parent.ancestors

/-- Compares the names of a path, the last one first, with the bytes of `key` before `stop`;
returns how many bytes are left in front of them. -/
def matchBack (key : Array UInt8) :
    EntryPath → { n // n ≤ key.size } → Option { n // n ≤ key.size }
  | root, stop => some stop
  | child parent name, ⟨stop, _⟩ =>
    let bytes := utf8 name
    if h : bytes.length < stop then
      let start := stop - bytes.length
      have : start - 1 < key.size := by omega
      if (key.extract start stop).toList = bytes ∧ key[start - 1] = slash then
        parent.matchBack key ⟨start - 1, by omega⟩
      else none
    else none

def rendersAs (path : EntryPath) (key : String) : Bool :=
  if key.utf8ByteSize ≠ path.length then false
  else match path with
    | root => key == "/"
    | child .. =>
      match path.matchBack key.toByteArray.data ⟨_, Nat.le_refl _⟩ with
      | some left => left.val == 0
      | none => false

/-- Name by name, the last one first. -/
def sameNames : EntryPath → EntryPath → Bool
  | root, root => true
  | child p a, child q b => a == b && p.sameNames q
  | _, _ => false

/-- Whether two paths name the same place. The hash, length and depth settle most cases. -/
def samePath (a b : EntryPath) : Bool :=
  a.hash == b.hash && a.length == b.length && a.depth == b.depth && a.sameNames b

end EntryPath

end Overlay
