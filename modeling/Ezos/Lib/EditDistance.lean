import Mathlib.Data.List.Basic

/-!
# Edit distance

`dist` is the textbook recursion on the heads of two lists. It is the length of a shortest edit
script, and scripts can be read backwards, so that the recursion holds at the last elements too:
that is the form in which a table of prefixes is filled.
-/

namespace Ezos.Lib.EditDistance

set_option autoImplicit false

variable {α : Type} [DecidableEq α]

def cost (x y : α) : Nat := if x = y then 0 else 1

def dist : List α → List α → Nat
  | [], ys => ys.length
  | x :: xs, [] => (x :: xs).length
  | x :: xs, y :: ys =>
    min (min (dist xs (y :: ys) + 1) (dist (x :: xs) ys + 1)) (dist xs ys + cost x y)
termination_by xs ys => xs.length + ys.length

inductive Script : List α → List α → Nat → Prop
  | nil : Script [] [] 0
  | delete (x : α) (xs ys : List α) (n : Nat) : Script xs ys n → Script (x :: xs) ys (n + 1)
  | insert (y : α) (xs ys : List α) (n : Nat) : Script xs ys n → Script xs (y :: ys) (n + 1)
  | replace (x y : α) (xs ys : List α) (n : Nat) :
      Script xs ys n → Script (x :: xs) (y :: ys) (n + cost x y)

theorem dist_nil_left (ys : List α) : dist [] ys = ys.length := by
  rw [dist]

theorem dist_nil_right (xs : List α) : dist xs [] = xs.length := by
  cases xs <;> rw [dist]

theorem dist_cons_cons (x y : α) (xs ys : List α) : dist (x :: xs) (y :: ys) =
    min (min (dist xs (y :: ys) + 1) (dist (x :: xs) ys + 1)) (dist xs ys + cost x y) := by
  rw [dist]

theorem dist_cons_left_le (x : α) (xs ys : List α) : dist (x :: xs) ys ≤ dist xs ys + 1 := by
  cases ys with
  | nil =>
    rw [dist_nil_right, dist_nil_right]
    exact Nat.le_refl _
  | cons y ys =>
    rw [dist_cons_cons]
    omega

theorem dist_cons_right_le (y : α) (xs ys : List α) : dist xs (y :: ys) ≤ dist xs ys + 1 := by
  cases xs with
  | nil =>
    rw [dist_nil_left, dist_nil_left]
    exact Nat.le_refl _
  | cons x xs =>
    rw [dist_cons_cons]
    omega

theorem Script.dist_le {xs ys : List α} {n : Nat} (h : Script xs ys n) : dist xs ys ≤ n := by
  induction h with
  | nil =>
    rw [dist_nil_left]
    exact Nat.le_refl 0
  | delete x xs ys n _ ih => exact Nat.le_trans (dist_cons_left_le x xs ys) (by omega)
  | insert y xs ys n _ ih => exact Nat.le_trans (dist_cons_right_le y xs ys) (by omega)
  | replace x y xs ys n _ ih =>
    rw [dist_cons_cons]
    omega

theorem script_dist (xs ys : List α) : Script xs ys (dist xs ys) := by
  induction xs generalizing ys with
  | nil =>
    rw [dist_nil_left]
    induction ys with
    | nil => exact .nil
    | cons y ys ih => exact .insert y [] ys _ ih
  | cons x xs ihx =>
    induction ys with
    | nil =>
      rw [dist_nil_right]
      have h := Script.delete x xs [] _ (ihx [])
      rwa [dist_nil_right] at h
    | cons y ys ihy =>
      rw [dist_cons_cons]
      rcases Nat.le_total (min (dist xs (y :: ys) + 1) (dist (x :: xs) ys + 1))
        (dist xs ys + cost x y) with h | h
      · rw [Nat.min_eq_left h]
        rcases Nat.le_total (dist xs (y :: ys) + 1) (dist (x :: xs) ys + 1) with h | h
        · rw [Nat.min_eq_left h]
          exact .delete x xs _ _ (ihx _)
        · rw [Nat.min_eq_right h]
          exact .insert y _ ys _ ihy
      · rw [Nat.min_eq_right h]
        exact .replace x y xs ys _ (ihx ys)

theorem dist_le_add (xs ys : List α) : dist xs ys ≤ xs.length + ys.length := by
  induction xs with
  | nil =>
    rw [dist_nil_left]
    exact Nat.le_add_left _ _
  | cons x xs ih =>
    have h := dist_cons_left_le x xs ys
    rw [List.length_cons]
    omega

theorem Script.append {xs ys xs' ys' : List α} {n n' : Nat} (h : Script xs ys n)
    (h' : Script xs' ys' n') : Script (xs ++ xs') (ys ++ ys') (n + n') := by
  induction h with
  | nil =>
    rw [Nat.zero_add]
    exact h'
  | delete x xs ys n _ ih =>
    rw [Nat.add_right_comm]
    exact .delete x _ _ _ ih
  | insert y xs ys n _ ih =>
    rw [Nat.add_right_comm]
    exact .insert y _ _ _ ih
  | replace x y xs ys n _ ih =>
    rw [Nat.add_right_comm]
    exact .replace x y _ _ _ ih

theorem Script.reverse {xs ys : List α} {n : Nat} (h : Script xs ys n) :
    Script xs.reverse ys.reverse n := by
  induction h with
  | nil => exact .nil
  | delete x xs ys n _ ih =>
    have happ := ih.append (.delete x [] [] 0 .nil)
    rwa [List.append_nil, ← List.reverse_cons] at happ
  | insert y xs ys n _ ih =>
    have happ := ih.append (.insert y [] [] 0 .nil)
    rwa [List.append_nil, ← List.reverse_cons] at happ
  | replace x y xs ys n _ ih =>
    have happ := ih.append (.replace x y [] [] 0 .nil)
    rwa [← List.reverse_cons, ← List.reverse_cons, Nat.zero_add] at happ

theorem dist_reverse (xs ys : List α) : dist xs.reverse ys.reverse = dist xs ys := by
  apply Nat.le_antisymm
  · exact (script_dist xs ys).reverse.dist_le
  · have h := (script_dist xs.reverse ys.reverse).reverse.dist_le
    rwa [List.reverse_reverse, List.reverse_reverse] at h

theorem dist_snoc (x y : α) (xs ys : List α) : dist (xs ++ [x]) (ys ++ [y]) =
    min (min (dist xs (ys ++ [y]) + 1) (dist (xs ++ [x]) ys + 1)) (dist xs ys + cost x y) := by
  have h := dist_cons_cons x y xs.reverse ys.reverse
  have hx : x :: xs.reverse = (xs ++ [x]).reverse := by simp
  have hy : y :: ys.reverse = (ys ++ [y]).reverse := by simp
  rwa [hx, hy, dist_reverse, dist_reverse, dist_reverse, dist_reverse] at h

end Ezos.Lib.EditDistance
