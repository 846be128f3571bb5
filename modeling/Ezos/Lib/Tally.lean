import Mathlib.Algebra.BigOperators.Fin
import Mathlib.Algebra.Order.BigOperators.Group.Finset

/-!
# Weights over a finite family

`total w f` adds a weight over the members of a family. Replacing one member changes the total by
the difference of the two weights.
-/

namespace Ezos.Lib.Tally

set_option autoImplicit false

universe u v
variable {ι : Type u} [Fintype ι] {α : Type v}

def total (w : α → Nat) (f : ι → α) : Nat := ∑ i, w (f i)

variable {w : α → Nat} {f : ι → α} {i : ι} {a : α} {c : Nat}

theorem total_update [DecidableEq ι] : total w (Function.update f i a) + w (f i) = total w f + w a := by
  have hf : total w f = w (f i) + ∑ j ∈ Finset.univ.erase i, w (f j) :=
    (Finset.add_sum_erase Finset.univ (fun j => w (f j)) (Finset.mem_univ i)).symm
  have hu : total w (Function.update f i a) =
      w a + ∑ j ∈ Finset.univ.erase i, w (Function.update f i a j) := by
    refine ((Finset.add_sum_erase Finset.univ (fun j => w (Function.update f i a j))
      (Finset.mem_univ i)).symm).trans ?_
    rw [Function.update_self]
  have hrest : ∑ j ∈ Finset.univ.erase i, w (Function.update f i a j) =
      ∑ j ∈ Finset.univ.erase i, w (f j) := by
    refine Finset.sum_congr rfl fun j hj => ?_
    rw [Function.update_of_ne (Finset.ne_of_mem_erase hj)]
  omega

theorem le_total (i : ι) : w (f i) ≤ total w f :=
  Finset.single_le_sum (f := fun j => w (f j)) (fun _ _ => Nat.zero_le _) (Finset.mem_univ i)

theorem total_eq_zero : total w f = 0 ↔ ∀ i, w (f i) = 0 := by
  rw [total, Finset.sum_eq_zero_iff]
  exact ⟨fun h i => h i (Finset.mem_univ i), fun h i _ => h i⟩

theorem total_le (h : ∀ i, w (f i) ≤ c) : total w f ≤ Fintype.card ι * c := by
  have hsum := Finset.sum_le_card_nsmul Finset.univ (fun i => w (f i)) c fun i _ => h i
  rwa [smul_eq_mul] at hsum

theorem total_congr {β : Type*} {w' : β → Nat} {g : ι → β} (h : ∀ i, w (f i) = w' (g i)) :
    total w f = total w' g :=
  Finset.sum_congr rfl fun i _ => h i

end Ezos.Lib.Tally
