import Overlay.ClassPath.Lookup

/-!
# Checking lookups

With validation on, every lookup is repeated by asking each known member in turn. A difference is
reported with all that led to it, and from then on lookups are logged in full.
-/

namespace Overlay

section Compare

variable {σ δ : Type}

def lastOrdinal (known : List (Member σ δ)) : Option Nat := known.getLast?.map RootEntry.ordinal

/-- Whether a location comes from a member that was known when the lookup began. -/
def Located.isVisible (known : List (Member σ δ)) (location : Found σ δ) : Bool :=
  match lastOrdinal known with
  | none => false
  | some last => location.origin.ordinal ≤ last

def Located.sameAs (a b : Found σ δ) : Bool :=
  a.origin.ordinal == b.origin.ordinal && a.path.samePath b.path

def agree? : Option (Found σ δ) → Option (Found σ δ) → Bool
  | none, none => true
  | some a, some b => a.sameAs b
  | _, _ => false

def agreeAll : List (Found σ δ) → List (Found σ δ) → Bool
  | [], [] => true
  | a :: as, b :: bs => a.sameAs b && agreeAll as bs
  | _, _ => false

/-- The first answer of asking each member in turn. -/
def firstAnswer (w : σ) (key : String) (known : List (Member σ δ)) : Option (Found σ δ) :=
  known.findSome? (RootEntry.ask w key)

/-- Every answer of asking each member in turn. -/
def allAnswers (w : σ) (key : String) (known : List (Member σ δ)) : List (Found σ δ) :=
  known.filterMap (RootEntry.ask w key)

end Compare

namespace ClassPath

variable {σ δ α : Type}

/-- What is written down about two answers that differ: both of them, a second attempt, and where
the answers come from. -/
def report (cp : ClassPath σ δ) (key : String) (known : List (Member σ δ))
    (quick slow again : String) : String :=
  "quick1: " ++ quick ++ "\nslow: " ++ slow ++ "\nquick2: " ++ again ++
    "\nfallback roots: " ++ Text.bracketed (cp.fallback.map toString) ++
    "\nall roots: " ++ Text.bracketed (known.map toString) ++
    "\nindex: " ++ cp.index.describe key

/-- Gives up a lookup whose answers differ, after a second attempt. -/
def giveUp (operation key : String) (known : List (Member σ δ)) (shown : α → String)
    (quick slow : α) (again : Reply σ δ α) : Reply σ δ α :=
  again.andThen fun second cp =>
    let cp := { cp with fullDetail := true }
    let text := cp.report key known (shown quick) (shown slow) (shown second)
    ⟨.error (.inconsistent operation key text), cp, [.mismatch operation key text]⟩

def checkedFind (w : σ) (cp : ClassPath σ δ) (known : List (Member σ δ)) (key : String) :
    Reply σ δ (Option (Found σ δ)) :=
  (cp.find w key).andThen fun found cp =>
    let quick := found.filter (Located.isVisible known)
    let slow := firstAnswer w key known
    if agree? quick slow then ⟨.ok quick, cp, []⟩
    else giveUp "find_resource" key known Located.shown? quick slow (cp.find w key)

def checkedFindAll (w : σ) (cp : ClassPath σ δ) (known : List (Member σ δ)) (key : String) :
    Reply σ δ (List (Found σ δ)) :=
  (cp.findAll w key).andThen fun found cp =>
    let quick := found.filter (Located.isVisible known)
    let slow := allAnswers w key known
    if agreeAll quick slow then ⟨.ok quick, cp, []⟩
    else giveUp "get_all_resources" key known Located.shownAll quick slow (cp.findAll w key)

end ClassPath

end Overlay
