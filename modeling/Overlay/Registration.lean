import Overlay.Root.Basic

/-!
# Registered roots and the fallback registry

A root is registered under an ordinal; the lower ordinal wins. The registry lists the roots that
lookups have to ask themselves, in the order of their ordinals.
-/

namespace Overlay

/-- A root of type `ρ` with metadata of type `δ`. -/
structure RootEntry (ρ δ : Type) where
  ordinal : Nat
  root : ρ
  data : Option δ := none

class Named (ρ : Type) where
  nameOf : ρ → String

instance : Named String := ⟨id⟩

instance {σ : Type} : Named (Root σ) := ⟨Root.name⟩

namespace RootEntry

variable {ρ δ : Type} [Named ρ]

def name (e : RootEntry ρ δ) : String := Named.nameOf e.root

instance : ToString (RootEntry ρ δ) := ⟨fun e => "#" ++ Nat.repr e.ordinal ++ " " ++ e.name⟩

end RootEntry

/-- Entries by their ordinals, the lowest first. -/
abbrev Registry (ρ δ : Type) := List (RootEntry ρ δ)

namespace Registry

variable {ρ δ : Type}

/-- Puts an entry before the first of an ordinal that is not lower. -/
def insert (e : RootEntry ρ δ) : Registry ρ δ → Registry ρ δ
  | [] => [e]
  | r :: rest => if r.ordinal < e.ordinal then r :: insert e rest else e :: r :: rest

def remove (ordinal : Nat) (registry : Registry ρ δ) : Registry ρ δ :=
  registry.filter fun r => r.ordinal != ordinal

def holds (ordinal : Nat) (registry : Registry ρ δ) : Bool :=
  registry.any fun r => r.ordinal == ordinal

end Registry

end Overlay
