import Overlay.Path.Normal

/-!
# Paths of the file system

A path of the file system is read component by component; its lexical normal form takes back a
name for every `..` without asking the file system what the names stand for.

Paths are those of unix. The slash is the one character that separates, a slash at the beginning
makes a path absolute, and nothing can stand in front of that: there are no prefixes, so `C:` is a
name like any other, which leads one directory down.
-/

namespace Overlay

inductive Component where
  | root
  | current
  | parent
  | name (s : String)
deriving DecidableEq

structure DiskPath where
  isAbsolute : Bool := false
  names : List String := []
deriving DecidableEq, Inhabited

namespace DiskPath

/-- The texts between slashes, without the empty ones. -/
def parts (path : String) : List String :=
  ((pieces (· == '/') path.toList).map String.ofList).filter (· != "")

def isRooted (path : String) : Bool := path.toList.head? == some '/'

/-- The components of a path: empty ones do not count, nor does a `.` that is not at the
beginning. -/
def components (path : String) : List Component :=
  let special : String → Component
    | "." => .current
    | ".." => .parent
    | s => .name s
  let parts := (parts path).map special
  if isRooted path then .root :: parts.filter (· != .current)
  else match parts with
    | [] => []
    | first :: rest => first :: rest.filter (· != .current)

def push (path : DiskPath) (name : String) : DiskPath :=
  { path with names := path.names ++ [name] }

/-- Takes the last name off, if there is one. -/
def pop (path : DiskPath) : DiskPath := { path with names := path.names.dropLast }

def text (path : DiskPath) : String :=
  (if path.isAbsolute then "/" else "") ++ "/".intercalate path.names

def step (path : DiskPath) : Component → DiskPath
  | .root => ⟨true, []⟩
  | .current => path
  | .parent => path.pop
  | .name s => path.push s

def ofText (path : String) : DiskPath := (components path).foldl step {}

/-- The text of a path that is taken from another one, unless it is absolute. -/
def join (base path : String) : String :=
  if isRooted path || base == "" then path
  else if base.toList.getLast? == some '/' then base ++ path
  else base ++ "/" ++ path

end DiskPath

def normalizeDiskPath (path : String) : String := (DiskPath.ofText path).text

end Overlay
