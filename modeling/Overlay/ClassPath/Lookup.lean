import Overlay.ClassPath.Basic

/-!
# Lookups

A lookup takes the fallback registry as it stands, reads the index and merges the two. The member
of the lowest ordinal wins; asking for every location sorts them by ordinal. What is merged how is
said by `choose` and `collect`, which know nothing of the rest of the class path.
-/

namespace Overlay

inductive LookupFault where
  | segments (mismatch : SegmentMismatch)
  /-- The answer differs from that of asking every member in turn. -/
  | inconsistent (operation path report : String)
deriving DecidableEq

namespace LookupFault

def message : LookupFault → String
  | segments mismatch => mismatch.message
  | inconsistent operation path report =>
    operation ++ "( " ++ path ++ " ) returned a different answer to the slow lookup!\n" ++ report

end LookupFault

/-- What a lookup comes to: its answer, the class path after it and the events it logged. -/
structure Reply (σ δ α : Type) where
  answer : Except LookupFault α
  after : ClassPath σ δ
  events : List Event := []

namespace Reply

variable {σ δ α β : Type}

def map (f : α → β) (reply : Reply σ δ α) : Reply σ δ β :=
  ⟨reply.answer.map f, reply.after, reply.events⟩

/-- Goes on from an answer, in the class path after it. -/
def andThen (reply : Reply σ δ α) (f : α → ClassPath σ δ → Reply σ δ β) : Reply σ δ β :=
  match reply.answer with
  | .error fault => ⟨.error fault, reply.after, reply.events⟩
  | .ok a =>
    let next := f a reply.after
    { next with events := reply.events ++ next.events }

end Reply

section Merge

variable {σ δ : Type}

/-- The lower ordinal of two, the first if they are equal. -/
def Located.prefer (a b : Found σ δ) : Found σ δ :=
  if b.origin.ordinal < a.origin.ordinal then b else a

/-- The location of an entry that wins. -/
def Entry.winner (entry : Entry (Member σ δ)) : Found σ δ :=
  entry.locations.foldl Located.prefer entry.first

def RootEntry.ask (w : σ) (key : String) (member : Member σ δ) : Option (Found σ δ) :=
  (member.root.resolve w key).map fun path => ⟨path, member⟩

/-- Whether a member comes before a location, or there is none. -/
def RootEntry.precedes (member : Member σ δ) : Option (Found σ δ) → Bool
  | none => true
  | some location => member.ordinal < location.origin.ordinal

/-- The winner among the index's winner and the members that are asked: only those before the
index's winner matter. -/
def choose (w : σ) (key : String) (fallback : Registry (Root σ) δ) (indexed : Option (Found σ δ)) :
    Option (Found σ δ) :=
  match (fallback.takeWhile fun member => member.precedes indexed).findSome? (RootEntry.ask w key)
  with
  | some location => some location
  | none => indexed

/-- Asks those members that have no location yet. -/
def complete (w : σ) (key : String) : Registry (Root σ) δ → List (Found σ δ) → List (Found σ δ)
  | [], found => found
  | member :: rest, found =>
    if found.any fun location => location.origin.ordinal == member.ordinal then
      complete w key rest found
    else match member.ask w key with
      | some location => complete w key rest (found ++ [location])
      | none => complete w key rest found

/-- Leaves out a location whose ordinal is that of the one before it. -/
def dropRepeats : Option Nat → List (Found σ δ) → List (Found σ δ)
  | _, [] => []
  | last, location :: rest =>
    if last = some location.origin.ordinal then dropRepeats last rest
    else location :: dropRepeats (some location.origin.ordinal) rest

/-- Every location, one for each member, in the order of the ordinals. -/
def collect (w : σ) (key : String) (fallback : Registry (Root σ) δ)
    (entry : Option (Entry (Member σ δ))) : List (Found σ δ) :=
  let found := complete w key fallback ((entry.map Entry.locations).getD [])
  dropRepeats none (found.mergeSort fun a b => a.origin.ordinal ≤ b.origin.ordinal)

def Located.shown? (location : Option (Found σ δ)) : String :=
  Text.optional (location.map Located.shown)

def Located.shownAll (locations : List (Found σ δ)) : String :=
  Text.bracketed (locations.map Located.shown)

end Merge

namespace ClassPath

variable {σ δ : Type}

def details (cp : ClassPath σ δ) (operation key found : String) : List Event :=
  if cp.fullDetail then
    [.detail ⟨operation, key, Text.bracketed (cp.fallback.map toString), cp.index.describe key,
      found⟩]
  else []

/-- Reports the ambiguity of an entry, once. -/
def reportAmbiguity (cp : ClassPath σ δ) (key : String) :
    Option (Entry (Member σ δ)) → Logged (ClassPath σ δ)
  | none => pure cp
  | some entry =>
    if entry.unwarned then
      ⟨{ cp with index := cp.index.warn key },
        [.ambiguous key (entry.locations.map fun location => location.origin.root.name)]⟩
    else pure cp

/-- The winner for a key in normal form. -/
def find (w : σ) (cp : ClassPath σ δ) (key : String) : Reply σ δ (Option (Found σ δ)) :=
  match cp.index.find key with
  | .error mismatch => ⟨.error (.segments mismatch), cp, []⟩
  | .ok entry =>
    let reported := cp.reportAmbiguity key entry
    let found := choose w key cp.fallback (entry.map Entry.winner)
    ⟨.ok found, reported.value,
      reported.events ++ reported.value.details "find_resource" key (Located.shown? found)⟩

/-- Every location of a key in normal form. -/
def findAll (w : σ) (cp : ClassPath σ δ) (key : String) : Reply σ δ (List (Found σ δ)) :=
  match cp.index.find key with
  | .error mismatch => ⟨.error (.segments mismatch), cp, []⟩
  | .ok entry =>
    let found := collect w key cp.fallback entry
    ⟨.ok found, cp, cp.details "get_all_resources" key (Located.shownAll found)⟩

end ClassPath

end Overlay
