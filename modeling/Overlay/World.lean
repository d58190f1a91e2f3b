import Overlay.Root.Archive
import Overlay.Root.Directory
import Overlay.Root.Joined
import Overlay.Root.Memory
import Overlay.Root.Tables

/-!
# The world around a class path

What roots look at besides what they were made from: the file system, the memory trees that are
kept, and which walks that wait may go on.
-/

namespace Overlay

structure OpenArchive where
  file : Option Nat
  /-- Where the data of the files that were read begins. -/
  known : List (String × Nat) := []

structure World where
  disk : Disk := .empty
  trees : Array MemoryTree := #[]
  archives : Array OpenArchive := #[]
  opened : List String := []
deriving Inhabited

namespace World

def tree (w : World) (place : Nat) : MemoryTree := w.trees.getD place .empty

/-- Keeps a memory tree, and says at which place. -/
def keep (w : World) (tree : MemoryTree) : Nat × World :=
  (w.trees.size, { w with trees := w.trees.push tree })

def editTree (w : World) (place : Nat) (root : String) (writable : Bool) (e : MemoryTree.Edit) :
    World × Except IoError Unit :=
  let (tree, result) := (w.tree place).editRoot root writable e
  ({ w with trees := w.trees.setIfInBounds place tree }, result)

/-- Keeps an archive open, and says at which place. -/
def keepOpen (w : World) (file : Option Nat) : Nat × World :=
  (w.archives.size, { w with archives := w.archives.push ⟨file, []⟩ })

def source (w : World) (place : Nat) : Archive.Source :=
  match w.archives[place]? with
  | some a => ⟨w.disk.contentsOf a.file, a.known⟩
  | none => ⟨ByteArray.empty, []⟩

/-- Remembers what is known of the files of the open archive at a place. -/
def learn (w : World) (place : Nat) (known : List (String × Nat)) : World :=
  { w with archives := w.archives.modify place fun a => { a with known } }

/-- Edits the file system; an edit that fails leaves it as it is. -/
def editDisk (w : World) (e : Disk.Edit) : World :=
  match w.disk.edit e with
  | .ok disk => { w with disk := disk }
  | .error _ => w

def openGate (w : World) (gate : String) : World := { w with opened := gate :: w.opened }

end World

namespace Root

def kept (name : String) (writable : Bool) (place : Nat) : Root World :=
  .memory name writable fun w => w.tree place

def opened (archive : ArchiveRoot) (place : Nat) : Root World :=
  archive.toRoot (fun w => w.source place) fun w known => w.learn place known

/-- An archive whose bytes do not change. -/
def fixed (archive : ArchiveRoot) (bytes : ByteArray) : Root World :=
  archive.toRoot (fun _ => ⟨bytes, []⟩) fun w _ => w

/-- The same root, whose walk waits at a gate before its visitor's call of number `first`. -/
def gated (root : Root World) (gate : String) (first : Nat) : Root World :=
  { root with stalls := fun w call => first ≤ call && !w.opened.contains gate }

end Root

end Overlay
