import Std.Data.TreeMap
import Overlay.Event
import Overlay.Path.Entry
import Overlay.Walk

/-!
# The tree of an archive

An archive names its entries in any order, and directories may be left out or named only by what
is in them. Every name is entered into two structures at once: a map from absolute paths, which
answers lookups, and a tree of names, which is walked. Where two names disagree about what is a
file and what a directory, the one that came first stays.
-/

namespace Overlay

/-- Names in increasing order, the directories with what is in them. -/
inductive Forest where
  | nil
  | file (name : String) (rest : Forest)
  | directory (name : String) (inside rest : Forest)
deriving DecidableEq, Inhabited

namespace Forest

inductive Item where
  | file
  | directory (inside : Forest)
deriving DecidableEq

def find? (name : String) : Forest → Option Item
  | nil => none
  | file n rest => if n = name then some .file else rest.find? name
  | directory n inside rest => if n = name then some (.directory inside) else rest.find? name

def cons (name : String) : Item → Forest → Forest
  | .file, rest => file name rest
  | .directory inside, rest => directory name inside rest

def set (name : String) (item : Item) : Forest → Forest
  | nil => cons name item nil
  | file n rest =>
    if n = name then cons name item rest
    else if name < n then cons name item (file n rest)
    else file n (rest.set name item)
  | directory n inside rest =>
    if n = name then cons name item rest
    else if name < n then cons name item (directory n inside rest)
    else directory n inside (rest.set name item)

/-- The events of walking what is in a directory. -/
def events : Forest → List WalkEvent
  | nil => []
  | file name rest => .file name :: rest.events
  | directory name inside rest =>
    .enter (some name) :: (inside.events ++ .leave :: rest.events)

/-- Goes on with a visit if its last answer lets it proceed. -/
def andThen {ω : Type} (r : Except IoError Control × ω)
    (next : ω → Except IoError Control × ω) : Except IoError Control × ω :=
  match r.1 with
  | .ok .proceed => next r.2
  | _ => r

/-- Visits what is in a directory, until the visitor stops. -/
def visit {ω : Type} (visitor : Visitor ω) : Forest → ω → Except IoError Control × ω
  | nil, s => (.ok .proceed, s)
  | file name rest, s => andThen (visitor s (.file name)) (rest.visit visitor)
  | directory name inside rest, s =>
    andThen (visitor s (.enter (some name))) fun s =>
      andThen (inside.visit visitor s) fun s =>
        andThen (visitor s .leave) (rest.visit visitor)

end Forest

/-- An entry of an archive; a file has the name that the archive knows it by. -/
structure ArchiveEntry where
  path : EntryPath
  backing : Option String
deriving DecidableEq

structure ArchiveTree where
  entries : Std.TreeMap String ArchiveEntry
  forest : Forest

namespace ArchiveTree

def empty : ArchiveTree :=
  ⟨(∅ : Std.TreeMap String ArchiveEntry).insert "/" ⟨.root, none⟩, .nil⟩

instance : Inhabited ArchiveTree := ⟨empty⟩

/-- Enters the segments of the name `backing` below the directory whose path is `path` and whose
key, without a slash at its end, is `lead`. -/
def place (backing : String) (isDirectory : Bool) :
    List String → (lead : String) → (path : EntryPath) → ArchiveTree → ArchiveTree
  | [], _, _, tree => tree
  | segment :: rest, lead, path, ⟨entries, forest⟩ =>
    let inner := !rest.isEmpty || isDirectory
    let key := lead ++ "/" ++ segment
    let go (path : EntryPath) (entries : Std.TreeMap String ArchiveEntry) : ArchiveTree :=
      match forest.find? segment with
      | some (.directory inside) =>
        let below := place backing isDirectory rest key path ⟨entries, inside⟩
        ⟨below.entries, forest.set segment (.directory below.forest)⟩
      | some .file => ⟨entries, forest⟩
      | none =>
        if inner then
          let below := place backing isDirectory rest key path ⟨entries, .nil⟩
          ⟨below.entries, forest.set segment (.directory below.forest)⟩
        else ⟨entries, forest.set segment .file⟩
    match entries[key]? with
    | some existing =>
      if existing.backing.isSome && inner then ⟨entries, forest⟩ else go existing.path entries
    | none =>
      let path := path.child segment
      go path (entries.insert key ⟨path, if inner then none else some backing⟩)

/-- Whether a name leads out of the archive. -/
def escapes (name : String) : Bool := (segments name).any (· == "..")

def namesDirectory (name : String) : Bool :=
  match name.toList.getLast? with
  | some c => isSeparator c
  | none => false

def insert (tree : ArchiveTree) (name : String) : ArchiveTree :=
  place name (namesDirectory name) (segments name) "" .root tree

/-- The tree of an archive's names. Names that lead out of the archive are skipped. -/
def ofNames (archive : String) (names : List String) : Logged ArchiveTree :=
  ⟨(names.filter fun name => !escapes name).foldl insert empty,
    (names.filter escapes).map (.escapingEntry archive)⟩

def size (tree : ArchiveTree) : Nat := tree.entries.size

def listing (tree : ArchiveTree) : List EntryPath := tree.entries.toList.map fun e => e.2.path

def resolve (tree : ArchiveTree) (key : String) : Option EntryPath :=
  tree.entries[key]?.map ArchiveEntry.path

def events (tree : ArchiveTree) : List WalkEvent :=
  .enter none :: (tree.forest.events ++ [.leave])

def walk (tree : ArchiveTree) : Walk := ⟨tree.events, .done⟩

def visit {ω : Type} (tree : ArchiveTree) (visitor : Visitor ω) (s : ω) : Ending × ω :=
  let r := Forest.andThen (visitor s (.enter none)) fun s =>
    Forest.andThen (tree.forest.visit visitor s) fun s => visitor s .leave
  match r.1 with
  | .error error => (.failed error, r.2)
  | .ok _ => (.done, r.2)

end ArchiveTree

end Overlay
