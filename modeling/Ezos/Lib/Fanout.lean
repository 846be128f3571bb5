import Mathlib.Algebra.Group.Nat.Defs
import Mathlib.Data.List.GetD

/-!
# Pointer trees of one fan-out

A node of the tree points to `n` nodes of the level below; a null pointer stands for a whole subtree of null pointers.
The leaves in order are a list, and the digits of a position to base `n` lead to the leaf there.
-/

namespace Ezos.Lib.Fanout

set_option autoImplicit false

variable {α β : Type}

theorem getD_flatMap_uniform {f : α → List β} {n : Nat} (hf : ∀ a, (f a).length = n) (z : β) (l : List α) (i : Nat)
    (a : α) (hi : i < l.length * n) : (l.flatMap f).getD i z = (f (l.getD (i / n) a)).getD (i % n) z := by
  induction l generalizing i with
  | nil => rw [List.length_nil, Nat.zero_mul] at hi; exact absurd hi (Nat.not_lt_zero i)
  | cons b l ih =>
    rw [List.flatMap_cons]
    by_cases hb : i < n
    · rw [List.getD_append _ _ _ _ (by rw [hf]; exact hb), Nat.div_eq_of_lt hb, Nat.mod_eq_of_lt hb]
      rfl
    · have hn : 0 < n := by
        apply Nat.pos_of_ne_zero
        intro h0
        rw [h0, Nat.mul_zero] at hi
        exact Nat.not_lt_zero i hi
      have hlen : (b :: l).length * n = l.length * n + n := Nat.succ_mul l.length n
      have hdiv : i / n = (i - n) / n + 1 := Nat.div_eq_sub_div hn (by omega)
      have hmod : i % n = (i - n) % n := Nat.mod_eq_sub_mod (by omega)
      rw [List.getD_append_right _ _ _ _ (by rw [hf]; omega), hf, ih (i - n) (by omega), hdiv, hmod]
      rfl

variable [DecidableEq α] (n : Nat) (kid : α → Nat → α) (null : α)

def expand : Nat → α → List α
  | 0, p => [p]
  | d + 1, p =>
    if p = null then List.replicate (n ^ (d + 1)) null else (List.range n).flatMap fun i => expand d (kid p i)

variable {n kid null}

theorem length_expand (d : Nat) (p : α) : (expand n kid null d p).length = n ^ d := by
  induction d generalizing p with
  | zero => rfl
  | succ d ih =>
    unfold expand
    split
    · exact List.length_replicate
    · have hsum : ∀ l : List Nat, (l.flatMap fun i => expand n kid null d (kid p i)).length = l.length * n ^ d := by
        intro l
        induction l with
        | nil => simp
        | cons a l ihl => rw [List.flatMap_cons, List.length_append, ih, ihl, List.length_cons, Nat.succ_mul, Nat.add_comm]
      rw [hsum, List.length_range, Nat.pow_succ, Nat.mul_comm]

theorem expand_null (d i : Nat) : (expand n kid null d null).getD i null = null := by
  cases d with
  | zero => cases i <;> rfl
  | succ d =>
    unfold expand
    rw [if_pos rfl, List.getD_eq_getElem?_getD, List.getElem?_getD_replicate_default_eq]

theorem expand_step {d i : Nat} {p : α} (hp : p ≠ null) (hi : i < n ^ (d + 1)) :
    (expand n kid null (d + 1) p).getD i null =
      (expand n kid null d (kid p (i / n ^ d))).getD (i % n ^ d) null := by
  have hpos : 0 < n ^ d := by
    apply Nat.pos_of_ne_zero
    intro h0
    rw [Nat.pow_succ, h0, Nat.zero_mul] at hi
    exact Nat.not_lt_zero i hi
  have hdigit : i / n ^ d < n := Nat.div_lt_of_lt_mul (by rw [← Nat.pow_succ]; exact hi)
  have hall : i < (List.range n).length * n ^ d := by
    rw [List.length_range, Nat.mul_comm, ← Nat.pow_succ]
    exact hi
  have hget : (List.range n).getD (i / n ^ d) 0 = i / n ^ d := by
    rw [List.getD_eq_getElem?_getD, List.getElem?_range hdigit]
    rfl
  have hlen : ∀ j, (expand n kid null d (kid p j)).length = n ^ d := fun j => length_expand d (kid p j)
  rw [expand, if_neg hp, getD_flatMap_uniform hlen null _ i 0 hall, hget]

theorem expand_one {i : Nat} (p : α) (hi : i < n) :
    (expand n kid null 1 p).getD i null = if p = null then null else kid p i := by
  split
  · rename_i hp
    rw [hp, expand_null]
  · rename_i hp
    rw [expand_step hp (by rw [Nat.pow_one]; exact hi), Nat.pow_zero, Nat.div_one, Nat.mod_one]
    rfl

theorem expand_two {i : Nat} (p : α) (hi : i < n * n) :
    (expand n kid null 2 p).getD i null =
      if p = null then null else if kid p (i / n) = null then null else kid (kid p (i / n)) (i % n) := by
  split
  · rename_i hp
    rw [hp, expand_null]
  · rename_i hp
    have hn : 0 < n := Nat.pos_of_ne_zero fun h0 => by rw [h0, Nat.zero_mul] at hi; exact Nat.not_lt_zero i hi
    rw [expand_step hp (by rw [Nat.pow_two]; exact hi), Nat.pow_one, expand_one _ (Nat.mod_lt i hn)]

theorem expand_three {i : Nat} (p : α) (hi : i < n * n * n) :
    (expand n kid null 3 p).getD i null =
      if p = null then null else
      if kid p (i / n / n) = null then null else
      if kid (kid p (i / n / n)) (i / n % n) = null then null else
      kid (kid (kid p (i / n / n)) (i / n % n)) (i % n) := by
  have hn : 0 < n := Nat.pos_of_ne_zero fun h0 => by rw [h0, Nat.mul_zero] at hi; exact Nat.not_lt_zero i hi
  split
  · rename_i hp
    rw [hp, expand_null]
  · rename_i hp
    have hcube : i < n ^ (2 + 1) := by rw [Nat.pow_succ, Nat.pow_two]; exact hi
    have hsquare : i % (n * n) < n * n := Nat.mod_lt i (Nat.mul_pos hn hn)
    rw [expand_step hp hcube, Nat.pow_two, expand_two _ hsquare, Nat.mod_mul_right_div_self, Nat.mod_mul_left_mod,
      ← Nat.div_div_eq_div_mul]

end Ezos.Lib.Fanout
