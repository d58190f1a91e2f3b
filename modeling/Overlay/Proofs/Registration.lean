import Mathlib.Data.List.Nodup
import Overlay.Index.Node
import Overlay.Registration

/-!
# The order of registration

Roots and their locations are ordered by the ordinals. The fallback registry stays in this order
as entries come and go.
-/

namespace Overlay

variable {ρ δ : Type}

def RootEntry.Before (a b : RootEntry ρ δ) : Prop := a.ordinal < b.ordinal

def Located.Before (a b : Located (RootEntry ρ δ)) : Prop := a.origin.Before b.origin

instance : Std.Irrefl (RootEntry.Before (ρ := ρ) (δ := δ)) := ⟨fun a => Nat.lt_irrefl a.ordinal⟩

instance : Std.Antisymm (RootEntry.Before (ρ := ρ) (δ := δ)) :=
  ⟨fun _ _ hab hba => absurd hab (Nat.lt_asymm hba)⟩

instance : Std.Irrefl (Located.Before (ρ := ρ) (δ := δ)) :=
  ⟨fun a => Nat.lt_irrefl a.origin.ordinal⟩

instance : Std.Antisymm (Located.Before (ρ := ρ) (δ := δ)) :=
  ⟨fun _ _ hab hba => absurd hab (Nat.lt_asymm hba)⟩

theorem RootEntry.eq_of_ordinal_eq {l : List (RootEntry ρ δ)} (h : l.Pairwise RootEntry.Before)
    {a b : RootEntry ρ δ} (ha : a ∈ l) (hb : b ∈ l) (hab : a.ordinal = b.ordinal) : a = b :=
  List.inj_on_of_nodup_map (List.pairwise_map.2 (h.imp Nat.ne_of_lt)) ha hb hab

theorem Located.eq_of_ordinal_eq {l : List (Located (RootEntry ρ δ))}
    (h : l.Pairwise Located.Before) {a b : Located (RootEntry ρ δ)} (ha : a ∈ l) (hb : b ∈ l)
    (hab : a.origin.ordinal = b.origin.ordinal) : a = b :=
  List.inj_on_of_nodup_map (f := fun l => l.origin.ordinal)
    (List.pairwise_map.2 (h.imp Nat.ne_of_lt)) ha hb hab

namespace Registry

variable {registry : Registry ρ δ} {e r : RootEntry ρ δ}

theorem mem_insert : r ∈ registry.insert e ↔ r = e ∨ r ∈ registry := by
  induction registry with
  | nil => simp [insert]
  | cons x rest ih =>
    rw [insert]
    split
    · rw [List.mem_cons, ih, List.mem_cons, or_left_comm]
    · rw [List.mem_cons]

theorem pairwise_insert (h : registry.Pairwise RootEntry.Before)
    (hne : ∀ r ∈ registry, r.ordinal ≠ e.ordinal) :
    (registry.insert e).Pairwise RootEntry.Before := by
  induction registry with
  | nil => exact List.pairwise_singleton _ _
  | cons x rest ih =>
    obtain ⟨hx, hrest⟩ := List.pairwise_cons.1 h
    rw [insert]
    split
    next hlt =>
      refine List.pairwise_cons.2
        ⟨fun r hr => ?_, ih hrest fun r hr => hne r (List.mem_cons_of_mem _ hr)⟩
      rcases mem_insert.1 hr with rfl | hr
      · exact hlt
      · exact hx r hr
    next hle =>
      have hfirst : e.Before x :=
        Nat.lt_of_le_of_ne (Nat.le_of_not_lt hle) (hne x List.mem_cons_self).symm
      refine List.pairwise_cons.2 ⟨fun r hr => ?_, h⟩
      rcases List.mem_cons.1 hr with rfl | hr
      · exact hfirst
      · exact Nat.lt_trans hfirst (hx r hr)

theorem mem_remove {ordinal : Nat} :
    r ∈ registry.remove ordinal ↔ r ∈ registry ∧ r.ordinal ≠ ordinal := by
  rw [remove, List.mem_filter, bne_iff_ne]

theorem pairwise_remove (h : registry.Pairwise RootEntry.Before) (ordinal : Nat) :
    (registry.remove ordinal).Pairwise RootEntry.Before :=
  h.filter _

end Registry

end Overlay
