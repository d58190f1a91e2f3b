import Overlay.ClassPath.Validation

/-!
# Resources

The lookups of a class path as its users know them: any path goes, and what is found can be read.
-/

namespace Overlay

namespace Located

variable {σ δ : Type}

def read (w : σ) (found : Found σ δ) : Except IoError ByteArray :=
  found.origin.root.read w found.path

def afterRead (w : σ) (found : Found σ δ) : σ := found.origin.root.afterRead w found.path

def shownResult (found : Found σ δ) : String :=
  Text.record "PathResult"
    [("path", found.path.render), ("root", Text.quoted found.origin.root.name)]

end Located

namespace ClassPath

variable {σ δ : Type}

def findResource (w : σ) (cp : ClassPath σ δ) (path : String) : Reply σ δ (Option (Found σ δ)) :=
  match cp.known with
  | none => cp.find w (normalize path)
  | some known => cp.checkedFind w known (normalize path)

def allResources (w : σ) (cp : ClassPath σ δ) (path : String) : Reply σ δ (List (Found σ δ)) :=
  match cp.known with
  | none => cp.findAll w (normalize path)
  | some known => cp.checkedFindAll w known (normalize path)

def findPath (w : σ) (cp : ClassPath σ δ) (path : String) : Reply σ δ (Option EntryPath) :=
  (cp.findResource w path).map fun found => found.map Located.path

def allPaths (w : σ) (cp : ClassPath σ δ) (path : String) : Reply σ δ (List EntryPath) :=
  (cp.allResources w path).map fun found => found.map Located.path

def readResource (w : σ) (cp : ClassPath σ δ) (path : String) :
    Reply σ δ (Option (Except IoError ByteArray)) :=
  (cp.findResource w path).map fun found => found.map (Located.read w)

/-- The state after the resource that wins for a path was read. -/
def afterReadResource (w : σ) (cp : ClassPath σ δ) (path : String) : σ :=
  match (cp.findResource w path).answer with
  | .ok (some found) => Located.afterRead w found
  | _ => w

def readAllResources (w : σ) (cp : ClassPath σ δ) (path : String) :
    Reply σ δ (List (Except IoError ByteArray)) :=
  (cp.allResources w path).map fun all => all.map (Located.read w)

/-- The state after the resources of every member that has a path were read. -/
def afterReadAllResources (w : σ) (cp : ClassPath σ δ) (path : String) : σ :=
  match (cp.allResources w path).answer with
  | .ok all => all.foldl Located.afterRead w
  | .error _ => w

/-- Whether the winners of two paths are the same path of the same member. -/
def sameResource (w : σ) (cp : ClassPath σ δ) (a b : String) : Reply σ δ Bool :=
  (cp.findResource w a).andThen fun x cp => (cp.findResource w b).map fun y => agree? x y

end ClassPath

end Overlay
