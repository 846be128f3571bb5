import Mathlib.Data.Finset.Card
import Mathlib.Data.Nat.Basic

/-!
# The orbit of a partial step

What a step that may fail leads to from a start, and where two walkers of different speed meet.
-/

namespace Ezos.Lib.Orbit

set_option autoImplicit false

variable {α : Type} (f : α → Option α) (s : Option α)

def orbit : Nat → Option α
  | 0 => s
  | k + 1 => (orbit k).bind f

def Acyclic : Prop := ∀ i j x, orbit f s i = some x → orbit f s j = some x → i = j

variable {f s} {i j m t c k : Nat} {x : α}

theorem orbit_succ (h : orbit f s k = some x) : orbit f s (k + 1) = f x := by
  rw [orbit, h]
  rfl

theorem orbit_pred (h : orbit f s (k + 1) = some x) : ∃ y, orbit f s k = some y ∧ f y = some x :=
  Option.bind_eq_some_iff.mp h

theorem orbit_none_of_le (h : orbit f s i = none) (hij : i ≤ j) : orbit f s j = none := by
  induction hij with
  | refl => exact h
  | step _ ih =>
    rw [orbit, ih]
    rfl

theorem orbit_some_of_le (h : orbit f s j = some x) (hij : i ≤ j) : ∃ y, orbit f s i = some y := by
  refine Option.ne_none_iff_exists'.mp fun hno => ?_
  rw [orbit_none_of_le hno hij] at h
  contradiction

theorem orbit_shift (h : orbit f s (t + c) = orbit f s t) (htm : t ≤ m) : orbit f s (m + c) = orbit f s m := by
  induction htm with
  | refl => exact h
  | @step m _ ih =>
    rw [Nat.succ_add, orbit, ih]
    rfl

theorem orbit_rounds (h : orbit f s (t + c) = orbit f s t) (htm : t ≤ m) (k : Nat) :
    orbit f s (m + k * c) = orbit f s m := by
  induction k with
  | zero => rw [Nat.zero_mul, Nat.add_zero]
  | succ k ih =>
    rw [Nat.succ_mul, ← Nat.add_assoc, orbit_shift h (Nat.le_trans htm (Nat.le_add_right m _)), ih]

theorem orbit_meets (hc : 0 < c) (h : orbit f s (t + c) = orbit f s t) :
    ∃ m, 0 < m ∧ m ≤ t + c ∧ orbit f s (2 * m) = orbit f s m := by
  have hle : t / c * c ≤ t := Nat.div_mul_le_self t c
  have hlt : t < (t / c + 1) * c := by
    rw [Nat.mul_comm]
    exact Nat.lt_mul_div_succ t hc
  have hm : (t / c + 1) * c = t / c * c + c := Nat.succ_mul _ _
  refine ⟨(t / c + 1) * c, by omega, by omega, ?_⟩
  rw [Nat.two_mul]
  exact orbit_rounds h (Nat.le_of_lt hlt) (t / c + 1)

theorem Acyclic.lt_card [DecidableEq α] (h : Acyclic f s) {S : Finset α} (hS : ∀ i y, orbit f s i = some y → y ∈ S)
    (hk : orbit f s k = some x) : k < S.card := by
  have hsome : ∀ i ∈ Finset.range (k + 1), ∃ y, orbit f s i = some y := fun i hi =>
    orbit_some_of_le hk (Nat.le_of_lt_succ (Finset.mem_range.mp hi))
  have : Nonempty α := ⟨x⟩
  choose! g hg using hsome
  have hcard := Finset.card_le_card_of_injOn g (fun i hi => hS i _ (hg i hi)) fun i hi j hj hij =>
    h i j (g i) (hg i hi) (hij ▸ hg j hj)
  rw [Finset.card_range] at hcard
  exact hcard

end Ezos.Lib.Orbit
