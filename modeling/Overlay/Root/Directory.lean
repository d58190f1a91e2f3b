import Overlay.Disk.Basic
import Overlay.Root.Basic
import Overlay.Text.Quoted

/-!
# Directories of the file system as roots

Such a root asks the file system on every lookup. A key leads to the path of the directory and its
own segments behind it, so it cannot lead out of the directory by its text.

That holds of the paths of unix, which are what `DiskPath` reads: a segment has no slash in it, so
it is the name of something in a directory. Where paths can have prefixes, a segment such as `C:`
would be one, and replace the path onto which it is pushed.
-/

namespace Overlay

structure DirectoryRoot where
  path : DiskPath
deriving DecidableEq

namespace DirectoryRoot

def new (disk : Disk) (path : String) : Except IoError DirectoryRoot := do
  let canonical ← disk.canonicalize (normalizeDiskPath path)
  if disk.isDirectory canonical then pure ⟨.ofText canonical⟩
  else throw (.notADirectory canonical)

def name (root : DirectoryRoot) : String := root.path.text

/-- The segments of a key that lead downwards. -/
def downward (key : String) : List String := (segments key).filter (· != "..")

def hostPath (root : DirectoryRoot) (key : String) : DiskPath :=
  (downward key).foldl .push root.path

def resolve (root : DirectoryRoot) (disk : Disk) (key : String) : Option EntryPath :=
  if disk.exists? (root.hostPath key).text then some (.parse key) else none

def read (root : DirectoryRoot) (disk : Disk) (path : EntryPath) : Except IoError ByteArray :=
  (disk.readFile (root.hostPath path.render).text).mapError .system

def toRoot {σ : Type} (root : DirectoryRoot) (disk : σ → Disk) : Root σ where
  name := root.name
  kind := .external
  resolve s key := root.resolve (disk s) key
  read s path := root.read (disk s) path
  shown _ := Text.record "HostRoot"
    [("name", Text.quoted root.name), ("root", Text.quoted root.name)]

end DirectoryRoot

end Overlay
