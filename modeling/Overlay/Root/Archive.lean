import Overlay.Text.Quoted
import Overlay.Archive.Contents
import Overlay.Archive.Tree
import Overlay.Root.Basic

/-!
# Archives as roots

The directory of an archive is read when it is opened, the contents of its files when they are
asked for.
-/

namespace Overlay

structure ArchiveRoot where
  name : String
  headers : List Archive.FileHeader
  tree : ArchiveTree

namespace ArchiveRoot

def open? (name : String) (bytes : ByteArray) : Option (Logged ArchiveRoot) :=
  (Archive.directory? bytes).map fun headers =>
    (fun tree => ⟨name, headers, tree⟩) <$> ArchiveTree.ofNames name (headers.map (·.name))

def header? (root : ArchiveRoot) (path : EntryPath) : Except IoError Archive.FileHeader :=
  match root.tree.entries[path.render]? with
  | none => .error (.missing path.render root.name)
  | some ⟨_, none⟩ => .error (.isDirectory path.render root.name)
  | some ⟨_, some name⟩ =>
    match root.headers.find? (·.name == name) with
    | none => .error (.system .invalidData)
    | some header => .ok header

def read (root : ArchiveRoot) (source : Archive.Source) (path : EntryPath) :
    Except IoError ByteArray := do
  (Archive.contents source (← root.header? path)).mapError .system

/-- What is known of the files after reading at a path. -/
def knownAfter (root : ArchiveRoot) (source : Archive.Source) (path : EntryPath) :
    List (String × Nat) :=
  match root.header? path with
  | .ok header => source.knownAfter header
  | .error _ => source.known

/-- The root that shows an archive. Its bytes and what is known of its files are kept outside. -/
def toRoot {σ : Type} (root : ArchiveRoot) (source : σ → Archive.Source)
    (learn : σ → List (String × Nat) → σ) : Root σ where
  name := root.name
  kind := .archive
  listing _ := root.tree.listing
  size _ := root.tree.size
  resolve _ key := root.tree.resolve key
  walk := root.tree.walk
  read s path := root.read (source s) path
  afterRead s path := learn s (root.knownAfter (source s) path)
  shown _ := Text.record "ZipRoot"
    [("name", Text.quoted root.name), ("entries", Nat.repr root.tree.size)]

end ArchiveRoot

end Overlay
