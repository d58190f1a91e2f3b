import Overlay.ClassPath.Basic
import Overlay.Root.Joined

/-!
# Adding roots

Adding a root is a list of actions, so that other work can come between any two of them. A joined
root takes part as its leaves, one after the other.
-/

namespace Overlay

/-- One thing that happens to a class path when a root is added. -/
inductive Action (σ δ : Type) where
  | report (event : Event)
  | reserve (count : Nat)
  | put (location : Found σ δ)
  /-- Enters a member into the fallback registry. -/
  | fallBack (entry : Member σ δ)
  | scan (entry : Member σ δ)
  /-- Makes a member known to the validation. -/
  | remember (entry : Member σ δ)

namespace ClassPath

variable {σ δ : Type}

def apply (cp : ClassPath σ δ) : Action σ δ → Logged (ClassPath σ δ)
  | .report event => do
    Logged.log event
    pure cp
  | .reserve count => (fun index => { cp with index := index }) <$> cp.index.reserve count
  | .put location => (fun index => { cp with index := index }) <$> cp.index.put location
  | .fallBack entry => pure { cp with fallback := cp.fallback.insert entry }
  | .scan entry => pure { cp with pool := cp.pool.submit (.new entry) }
  | .remember entry => pure { cp with known := cp.known.map (· ++ [entry]) }

def applyAll (cp : ClassPath σ δ) : List (Action σ δ) → Logged (ClassPath σ δ)
  | [] => pure cp
  | a :: rest => do
    let cp ← cp.apply a
    cp.applyAll rest

/-- The actions by which a member is published. -/
def publish (w : σ) (config : Config) (entry : Member σ δ) : List (Action σ δ) :=
  match entry.root.kind with
  | .memory false =>
    match entry.root.listing w with
    | [] => [.report (.unlistedRoot entry.root.name), .fallBack entry]
    | paths => .reserve paths.length :: paths.map fun path => .put ⟨path, entry⟩
  | .memory true => [.report (.writableRoot entry.root.name), .fallBack entry]
  | .archive => [.fallBack entry, .scan entry]
  | .external =>
    if config.development then [.fallBack entry]
    else [.report (.unindexedRoot entry.root.name), .fallBack entry]

/-- A root on its way to become a member, and the class path that has its ordinal taken. -/
def enroll (cp : ClassPath σ δ) (root : Root σ) (data : Option δ) : Member σ δ × ClassPath σ δ :=
  (⟨cp.nextOrdinal, root, data⟩, { cp with nextOrdinal := cp.nextOrdinal + 1 })

def addLeaf (w : σ) (data : Option δ) (cp : ClassPath σ δ) (root : Root σ) :
    Logged (ClassPath σ δ) :=
  let (entry, cp) := cp.enroll root data
  cp.applyAll (publish w cp.config entry ++ [.remember entry])

def addLeaves (w : σ) (data : Option δ) (cp : ClassPath σ δ) :
    List (Root σ) → Logged (ClassPath σ δ)
  | [] => pure cp
  | root :: rest => do
    let cp ← cp.addLeaf w data root
    cp.addLeaves w data rest

mutual

/-- Adds a root; of a joined root, one member after the other. -/
def add (w : σ) (data : Option δ) (cp : ClassPath σ δ) : RootTree σ → Logged (ClassPath σ δ)
  | .leaf root => cp.addLeaf w data root
  | .joined _ members => cp.addEach w data members

def addEach (w : σ) (data : Option δ) (cp : ClassPath σ δ) :
    List (RootTree σ) → Logged (ClassPath σ δ)
  | [] => pure cp
  | member :: rest => do
    let cp ← cp.add w data member
    cp.addEach w data rest

end

end ClassPath

end Overlay
