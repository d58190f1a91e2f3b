import Overlay.Disk.Lexical
import Overlay.IoError

/-!
# A file system

Directories, files and symbolic links. Paths are followed as a POSIX system does: step by step,
links being replaced by their targets, at most forty of them.
-/

namespace Overlay

inductive DiskNode where
  /-- A file by its number. Its contents are kept apart, for whoever has it open. -/
  | file (id : Nat)
  | link (target : String)
  | directory (entries : List (String × DiskNode))

namespace DiskNode

/-- The node under the given names, links not followed. -/
def get? : List String → DiskNode → Option DiskNode
  | [], node => some node
  | name :: rest, directory entries =>
    match entries.lookup name with
    | some node => get? rest node
    | none => none
  | _ :: _, _ => none

/-- Changes or removes the node under the given names. -/
def alter (f : Option DiskNode → Option DiskNode) : List String → Option DiskNode →
    Option DiskNode
  | [], node => f node
  | name :: rest, some (directory entries) =>
    let others := entries.filter fun e => e.1 != name
    match alter f rest (entries.lookup name) with
    | some node => some (directory ((name, node) :: others))
    | none => some (directory others)
  | _ :: _, node => node

end DiskNode

structure Disk where
  tree : DiskNode
  contents : Array ByteArray
  /-- Where paths that are not absolute begin. -/
  workingDirectory : List String

namespace Disk

def empty : Disk := ⟨.directory [], #[], []⟩

instance : Inhabited Disk := ⟨empty⟩

/-- The most links that are followed on one way. -/
def maxLinks : Nat := 40

def maxName : Nat := 255

/-- The length in bytes that no path may reach. -/
def maxPath : Nat := 4096

/-- The steps that a path asks for. A slash at its end asks for a directory. -/
def steps (path : String) : List String :=
  DiskPath.parts path ++ if path.toList.getLast? == some '/' then ["."] else []

/-- Follows steps from a directory; returns the names of where they lead, from the root on. -/
def follow (tree : DiskNode) (links : Nat) (here : List String) :
    List String → Except IoKind (List String)
  | [] => .ok here
  | s :: rest =>
    match tree.get? here with
    | some (.directory entries) =>
      if s = "." then follow tree links here rest
      else if s = ".." then follow tree links here.dropLast rest
      else if maxName < s.utf8ByteSize then .error .invalidFilename
      else match entries.lookup s with
        | none => .error .notFound
        | some (.link target) =>
          match links with
          | 0 => .error .filesystemLoop
          | links + 1 =>
            if target = "" then .error .notFound
            else follow tree links (if DiskPath.isRooted target then [] else here)
              (steps target ++ rest)
        | some _ => follow tree links (here ++ [s]) rest
    | some _ => .error .notADirectory
    | none => .error .notFound
termination_by todo => (links, todo.length)

def locate (disk : Disk) (path : String) : Except IoKind (List String) :=
  if path.toList.contains '\x00' then .error .invalidInput
  else if path = "" then .error .notFound
  else if maxPath ≤ path.utf8ByteSize then .error .invalidFilename
  else follow disk.tree maxLinks (if DiskPath.isRooted path then [] else disk.workingDirectory)
    (steps path)

def node? (disk : Disk) (path : String) : Option DiskNode :=
  match disk.locate path with
  | .ok names => disk.tree.get? names
  | .error _ => none

def exists? (disk : Disk) (path : String) : Bool := (disk.node? path).isSome

def isDirectory (disk : Disk) (path : String) : Bool :=
  match disk.node? path with
  | some (.directory _) => true
  | _ => false

def openFile (disk : Disk) (path : String) : Except IoKind (Option Nat) := do
  match disk.tree.get? (← disk.locate path) with
  | some (.file id) => pure (some id)
  | _ => pure none

/-- The contents of an open file, empty for what is not one. -/
def contentsOf (disk : Disk) (id : Option Nat) : ByteArray :=
  match id with
  | some id => disk.contents.getD id ByteArray.empty
  | none => ByteArray.empty

def readFile (disk : Disk) (path : String) : Except IoKind ByteArray := do
  match ← disk.openFile path with
  | some id => pure (disk.contentsOf (some id))
  | none => throw .isADirectory

/-- The absolute path of where a path leads, without links. -/
def canonicalize (disk : Disk) (path : String) : Except IoError String :=
  match disk.locate path with
  | .ok names => .ok (DiskPath.text ⟨true, names⟩)
  | .error _ => .error (.noSuchPlace path)

def set (disk : Disk) (names : List String) (node : DiskNode) : Disk :=
  { disk with tree := (DiskNode.alter (fun _ => some node) names (some disk.tree)).getD disk.tree }

/-- Makes the directories that are missing on the way along some steps. -/
def makeDirectories (disk : Disk) (here : List String) :
    List String → Except IoKind (Disk × List String)
  | [] => .ok (disk, here)
  | s :: rest =>
    match follow disk.tree maxLinks here [s] with
    | .ok there => disk.makeDirectories there rest
    | .error .notFound =>
      if (disk.tree.get? (here ++ [s])).isSome then .error .alreadyExists
      else (disk.set (here ++ [s]) (.directory [])).makeDirectories (here ++ [s]) rest
    | .error kind => .error kind

inductive Edit where
  | file (path : String) (contents : ByteArray)
  | directory (path : String)
  | link (path target : String)
  | remove (path : String)

/-- The place of a file that is written under a name in a directory. A link under that name is
followed, and what it leads to need not be there yet. -/
def destination (tree : DiskNode) (links : Nat) (parent : List String) (name : String) :
    Except IoKind (List String) :=
  match tree.get? parent with
  | some (.directory entries) =>
    if name = "." ∨ name = ".." then .error .isADirectory
    else if maxName < name.utf8ByteSize then .error .invalidFilename
    else match links, entries.lookup name with
      | 0, some (.link _) => .error .filesystemLoop
      | links + 1, some (.link target) => do
        let way := steps target
        let start := if DiskPath.isRooted target then [] else parent
        destination tree links (← follow tree links start way.dropLast) (way.getLast?.getD ".")
      | _, _ => .ok (parent ++ [name])
  | _ => .error .notADirectory

/-- Writes a file, in place if there is one. -/
def writeFile (disk : Disk) (path : String) (contents : ByteArray) : Except IoKind Disk := do
  let way := steps path
  let (disk, parent) ← disk.makeDirectories [] way.dropLast
  let place ← destination disk.tree maxLinks parent (way.getLast?.getD ".")
  match disk.tree.get? place with
  | some (.file id) => pure { disk with contents := disk.contents.setIfInBounds id contents }
  | some _ => throw .isADirectory
  | none =>
    let disk := disk.set place (.file disk.contents.size)
    pure { disk with contents := disk.contents.push contents }

def edit (disk : Disk) : Edit → Except IoKind Disk
  | .file path contents => disk.writeFile path contents
  | .directory path => do
    let (disk, _) ← disk.makeDirectories [] (steps path)
    pure disk
  | .link path target => do
    let way := steps path
    let parent ← follow disk.tree maxLinks [] way.dropLast
    pure (disk.set (parent ++ [way.getLast?.getD "."]) (.link target))
  | .remove path => do
    let way := steps path
    let parent ← follow disk.tree maxLinks [] way.dropLast
    let tree := DiskNode.alter (fun _ => none) (parent ++ [way.getLast?.getD "."]) (some disk.tree)
    pure { disk with tree := tree.getD disk.tree }

end Disk

end Overlay
