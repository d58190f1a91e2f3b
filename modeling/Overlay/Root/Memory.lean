import Std.Data.TreeMap
import Overlay.Root.Basic
import Overlay.Text.Quoted

/-!
# Trees in memory

A memory tree keeps every entry under its absolute path. Writing a file makes the directories
above it; it fails where a file stands in the way of a directory or the other way round.
-/

namespace Overlay

inductive MemoryNode where
  | directory (path : EntryPath)
  | file (path : EntryPath) (contents : ByteArray)

namespace MemoryNode

def path : MemoryNode → EntryPath
  | directory path => path
  | file path _ => path

end MemoryNode

/-- Entries by their absolute paths, in the order of these. -/
structure MemoryTree where
  nodes : Std.TreeMap String MemoryNode

namespace MemoryTree

def empty : MemoryTree := ⟨(∅ : Std.TreeMap String MemoryNode).insert "/" (.directory .root)⟩

instance : Inhabited MemoryTree := ⟨empty⟩

def get? (tree : MemoryTree) (key : String) : Option MemoryNode := tree.nodes[key]?

def insert (tree : MemoryTree) (key : String) (node : MemoryNode) : MemoryTree :=
  ⟨tree.nodes.insert key node⟩

def size (tree : MemoryTree) : Nat := tree.nodes.size

def listing (tree : MemoryTree) : List EntryPath := tree.nodes.toList.map fun e => e.2.path

def resolve (tree : MemoryTree) (key : String) : Option EntryPath :=
  (tree.get? key).map MemoryNode.path

/-- Makes the directories `names` below the directory at `lead`, which is known as `path`, and
returns the text and the path of the last one. What was made before a failure stays. -/
def descend (tree : MemoryTree) (lead : String) (path : EntryPath) :
    List String → MemoryTree × Except IoError (String × EntryPath)
  | [] => (tree, .ok (lead, path))
  | name :: rest =>
    let key := lead ++ "/" ++ name
    match tree.get? key with
    | some (.directory path) => tree.descend key path rest
    | some (.file ..) => (tree, .error (.fileInTheWay key))
    | none =>
      let path := path.child name
      (tree.insert key (.directory path)).descend key path rest

def makeDirectories (tree : MemoryTree) (path : String) : MemoryTree × Except IoError Unit :=
  let (tree, made) := tree.descend "" .root (segments path)
  (tree, made.map fun _ => ())

/-- Puts a file named `name` into the directory at `lead`, which is known as `parent`. -/
def place (tree : MemoryTree) (lead : String) (parent : EntryPath) (name : String)
    (contents : ByteArray) : MemoryTree × Except IoError Unit :=
  let key := lead ++ "/" ++ name
  match tree.get? key with
  | some (.directory _) => (tree, .error (.directoryInTheWay key))
  | some (.file path _) => (tree.insert key (.file path contents), .ok ())
  | none => (tree.insert key (.file (parent.child name) contents), .ok ())

def writeFile (tree : MemoryTree) (path : String) (contents : ByteArray) :
    MemoryTree × Except IoError Unit :=
  match (segments path).getLast? with
  | none => (tree, .error .rootIsDirectory)
  | some name =>
    match tree.descend "" .root (segments path).dropLast with
    | (tree, .error e) => (tree, .error e)
    | (tree, .ok (lead, parent)) => tree.place lead parent name contents

def read (tree : MemoryTree) (root : String) (path : EntryPath) : Except IoError ByteArray :=
  match tree.get? path.render with
  | some (.file _ contents) => .ok contents
  | some (.directory _) => .error (.isDirectory path.render root)
  | none => .error (.missing path.render root)

inductive Edit where
  | file (path : String) (contents : ByteArray)
  | directory (path : String)

def edit (tree : MemoryTree) : Edit → MemoryTree × Except IoError Unit
  | .file path contents => tree.writeFile path contents
  | .directory path => tree.makeDirectories path

/-- Fills a tree; the first failure is the answer. -/
def build : List Edit → MemoryTree → Except IoError MemoryTree
  | [], tree => .ok tree
  | e :: rest, tree =>
    match tree.edit e with
    | (_, .error error) => .error error
    | (tree, .ok ()) => build rest tree

def editRoot (tree : MemoryTree) (root : String) (writable : Bool) (e : Edit) :
    MemoryTree × Except IoError Unit :=
  if writable then tree.edit e else (tree, .error (.readOnly root))

end MemoryTree

def Root.memory {σ : Type} (name : String) (writable : Bool) (tree : σ → MemoryTree) : Root σ where
  name := name
  kind := .memory writable
  listing s := (tree s).listing
  size s := (tree s).size
  resolve s key := (tree s).resolve key
  read s path := (tree s).read name path
  shown s := Text.record "MemoryRoot"
    [("name", Text.quoted name), ("writable", toString writable),
      ("entries", Nat.repr (tree s).size)]

end Overlay
