import Overlay.ClassPath.Register

/-!
# Metadata of unknown type

Metadata can be handed in as a datum that names its own type. It is taken if the class path
declares metadata of that very type.
-/

namespace Overlay

inductive Datum where
  | unit
  | text (s : String)
  | word64 (n : Nat)
  | word32 (n : Nat)
deriving DecidableEq

class Metadata (δ : Type) where
  /-- The name by which a mismatch is reported. -/
  typeName : String
  /-- Whether declaring this type means declaring none. -/
  isTrivial : Bool := false
  ofDatum? : Datum → Option δ

instance : Metadata Unit where
  typeName := "()"
  isTrivial := true
  ofDatum?
    | .unit => some ()
    | _ => none

instance : Metadata String where
  typeName := "alloc::string::String"
  ofDatum?
    | .text s => some s
    | _ => none

instance : Metadata Nat where
  typeName := "u64"
  ofDatum?
    | .word64 n => some n
    | _ => none

inductive MetadataFault where
  | notDeclared
  | typeMismatch (expected : String)
deriving DecidableEq

namespace MetadataFault

def message : MetadataFault → String
  | notDeclared =>
    "cannot attach metadata to a root, this class path doesn't declare a metadata type"
  | typeMismatch expected => "metadata type mismatch: expected " ++ expected

end MetadataFault

namespace ClassPath

variable {σ δ : Type} [Metadata δ]

def accept : Option Datum → Except MetadataFault (Option δ)
  | none => .ok none
  | some datum =>
    if Metadata.isTrivial δ then .error .notDeclared
    else match Metadata.ofDatum? datum with
      | some data => .ok (some data)
      | none => .error (.typeMismatch (Metadata.typeName δ))

/-- Adds a root with metadata whose type is checked first. -/
def addDatum (w : σ) (datum : Option Datum) (cp : ClassPath σ δ) (tree : RootTree σ) :
    Except MetadataFault (Logged (ClassPath σ δ)) :=
  (accept datum).map fun data => cp.add w data tree

end ClassPath

end Overlay
