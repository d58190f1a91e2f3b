/-!
# Segments and the normal form of a path

A path is a text whose segments are separated by slashes of either kind. Its normal form is
absolute and names every remaining segment once: empty and `.` segments are dropped and `..`
takes back the segment before it, never leaving the root.
-/

namespace Overlay

def isSeparator (c : Char) : Bool := c == '/' || c == '\\'

/-- The pieces of a text between the characters chosen by `sep`: one more than there are of
those. -/
def pieces (sep : Char → Bool) : List Char → List (List Char)
  | [] => [[]]
  | c :: cs =>
    if sep c then [] :: pieces sep cs
    else match pieces sep cs with
      | [] => [[c]]
      | p :: ps => (c :: p) :: ps

/-- The segments of a path that count, `..` among them. -/
def segments (path : String) : List String :=
  ((pieces isSeparator path.toList).map String.ofList).filter fun s => s != "" && s != "."

/-- Takes one segment onto a stack of names, the last name first. -/
def climb (stack : List String) (segment : String) : List String :=
  if segment = ".." then stack.tail else segment :: stack

@[simp] theorem climb_parent (stack : List String) : climb stack ".." = stack.tail := rfl

theorem climb_name (stack : List String) {s : String} (h : s ≠ "..") :
    climb stack s = s :: stack := if_neg h

/-- The names that are left once every `..` has taken back its predecessor. -/
def collapse (segments : List String) : List String := (segments.foldl climb []).reverse

@[simp] theorem collapse_nil : collapse [] = [] := rfl

/-- Each name behind a slash of its own. -/
def slashed : List String → String
  | [] => ""
  | s :: rest => "/" ++ s ++ slashed rest

@[simp] theorem slashed_nil : slashed [] = "" := rfl

@[simp] theorem slashed_cons (s : String) (rest : List String) :
    slashed (s :: rest) = "/" ++ s ++ slashed rest := rfl

theorem slashed_append (a b : List String) : slashed (a ++ b) = slashed a ++ slashed b := by
  induction a with
  | nil => simp
  | cons s rest ih => simp [ih, String.append_assoc]

/-- A name that may stand in a normal form. -/
def isPlain (name : List Char) : Bool := name != [] && name != ['.'] && name != ['.', '.']

def isNormal (path : String) : Bool :=
  path == "/" || match path.toList with
    | '/' :: rest => !rest.contains '\\' && (pieces (· == '/') rest).all isPlain
    | _ => false

/-- How a normal form comes about: the text already was one, nothing is left of it, or it has to
be built from the names that are left. -/
inductive Normalized where
  | kept (path : String)
  | root
  | built (names : List String)
deriving DecidableEq, Inhabited

namespace Normalized

def text : Normalized → String
  | kept path => path
  | root => "/"
  | built names => slashed names

/-- Whether the normal form needs no text of its own. -/
def isShared : Normalized → Bool
  | built _ => false
  | _ => true

def ofNames : List String → Normalized
  | [] => root
  | names => built names

def ofPath (path : String) : Normalized :=
  if isNormal path then kept path else ofNames (collapse (segments path))

end Normalized

/-- The normal form of a path, the key under which lookups ask for it. -/
def normalize (path : String) : String := (Normalized.ofPath path).text

end Overlay
