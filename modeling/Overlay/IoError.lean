/-!
# Failures of reading, writing and walking

A failure is its cause. `IoError.kind` is the class a caller tells causes apart by, and
`IoError.message?` the text of those causes that this library words itself; a failure of the file
system or of an archive's contents has a kind only.
-/

namespace Overlay

inductive IoKind where
  | notFound
  | permissionDenied
  | alreadyExists
  | notADirectory
  | isADirectory
  | directoryNotEmpty
  | filesystemLoop
  | invalidInput
  | invalidData
  | invalidFilename
  | unsupported
  | unexpectedEof
  | other
deriving DecidableEq

inductive IoError where
  /-- A file stands where a directory is needed. -/
  | fileInTheWay (key : String)
  /-- A directory stands where a file is to be written. -/
  | directoryInTheWay (key : String)
  | rootIsDirectory
  | readOnly (root : String)
  | missing (path root : String)
  | isDirectory (path root : String)
  | unwalkable (root : String)
  /-- A walk came to the root directory below its top. -/
  | nestedRoot (root inside : String)
  /-- A walk named an entry before its root directory. -/
  | outsideRoot (root : String)
  | noSuchPlace (path : String)
  | notADirectory (path : String)
  | system (kind : IoKind)
  | failure (message : String)
deriving DecidableEq

namespace IoError

def kind : IoError → IoKind
  | fileInTheWay _ | directoryInTheWay _ => .alreadyExists
  | rootIsDirectory | isDirectory .. | notADirectory _ => .invalidInput
  | readOnly _ => .permissionDenied
  | missing .. | noSuchPlace _ => .notFound
  | unwalkable _ => .unsupported
  | nestedRoot .. | outsideRoot _ => .invalidData
  | system kind => kind
  | failure _ => .other

def message? : IoError → Option String
  | fileInTheWay key => some (key ++ " is a file, not a directory")
  | directoryInTheWay key => some (key ++ " is a directory")
  | rootIsDirectory => some "cannot replace the root directory with a file"
  | readOnly root => some (root ++ " is read-only")
  | missing path root => some (path ++ " does not exist in " ++ root)
  | isDirectory path root => some (path ++ " is a directory in " ++ root)
  | unwalkable root => some (root ++ " cannot be walked")
  | nestedRoot root inside =>
    some (root ++ " has multiple roots, found another one inside " ++ inside)
  | outsideRoot root => some (root ++ " yielded an entry outside of its root directory")
  | noSuchPlace path => some (path ++ " does not exist")
  | notADirectory path => some (path ++ " is not a directory")
  | system _ => none
  | failure message => some message

end IoError

end Overlay
