import Mathlib.Data.List.Nodup
import Mathlib.Logic.Function.Basic

/-!
# A store of cells, one write of which fails

A failed write changes nothing, and it is the only one. What a row of writes leaves is said for the writes themselves
(`put`), whatever the store, and a failure leaves the writes in front of it (`writeAll_torn`).
-/

namespace Ezos.Lib.FaultyStore

set_option autoImplicit false

variable {α β : Type} [DecidableEq α]

def put (ws : List (α × β)) (cells : α → β) : α → β := ws.foldl (fun c w => Function.update c w.1 w.2) cells

@[simp] theorem put_nil (cells : α → β) : put [] cells = cells := rfl

@[simp] theorem put_cons (w : α × β) (ws : List (α × β)) (cells : α → β) :
    put (w :: ws) cells = put ws (Function.update cells w.1 w.2) := rfl

theorem put_of_forall_ne {ws : List (α × β)} {a : α} (h : ∀ w ∈ ws, w.1 ≠ a) (cells : α → β) :
    put ws cells a = cells a := by
  induction ws generalizing cells with
  | nil => rfl
  | cons w ws ih =>
    rw [put_cons, ih fun x hx => h x (List.mem_cons_of_mem w hx)]
    exact Function.update_of_ne (h w List.mem_cons_self).symm _ _

theorem put_of_notMem {ws : List (α × β)} {a : α} (h : a ∉ ws.map Prod.fst) (cells : α → β) :
    put ws cells a = cells a := by
  apply put_of_forall_ne
  intro w hw he
  subst he
  exact h (List.mem_map_of_mem hw)

theorem put_of_forall_eq {ws : List (α × β)} {a : α} {b : β} (h : ∀ w ∈ ws, w.1 = a → w.2 = b) {cells : α → β}
    (ha : cells a = b) : put ws cells a = b := by
  induction ws generalizing cells with
  | nil => exact ha
  | cons w ws ih =>
    rw [put_cons]
    apply ih fun x hx => h x (List.mem_cons_of_mem w hx)
    by_cases hw : w.1 = a
    · rw [← hw, Function.update_self]
      exact h w List.mem_cons_self hw
    · rw [Function.update_of_ne (Ne.symm hw), ha]

theorem put_of_mem_same {ws : List (α × β)} {a : α} {b : β} (hmem : (a, b) ∈ ws) (h : ∀ w ∈ ws, w.1 = a → w.2 = b)
    (cells : α → β) : put ws cells a = b := by
  induction ws generalizing cells with
  | nil => exact absurd hmem List.not_mem_nil
  | cons w ws ih =>
    rw [put_cons]
    rcases List.mem_cons.mp hmem with rfl | hmem
    · exact put_of_forall_eq (fun w hw => h w (List.mem_cons_of_mem _ hw)) (Function.update_self _ _ _)
    · exact ih hmem (fun x hx => h x (List.mem_cons_of_mem w hx)) _

theorem put_of_mem {ws : List (α × β)} (hnd : (ws.map Prod.fst).Nodup) {w : α × β} (hw : w ∈ ws) (cells : α → β) :
    put ws cells w.1 = w.2 := by
  induction ws generalizing cells with
  | nil => exact absurd hw List.not_mem_nil
  | cons v ws ih =>
    rw [List.map_cons, List.nodup_cons] at hnd
    rw [put_cons]
    rcases List.mem_cons.mp hw with rfl | hw
    · rw [put_of_notMem hnd.1]
      exact Function.update_self _ _ _
    · exact ih hnd.2 hw _

structure Store (α β : Type) where
  cells : α → β
  /-- The writes that go through before the one that fails. -/
  fault : Option Nat

def Store.write (d : Store α β) (a : α) (v : β) : Bool × Store α β :=
  match d.fault with
  | none => (true, { d with cells := Function.update d.cells a v })
  | some 0 => (false, { d with fault := none })
  | some (n + 1) => (true, { cells := Function.update d.cells a v, fault := some n })

def Store.writeAll : List (α × β) → Store α β → Bool × Store α β
  | [], d => (true, d)
  | w :: ws, d =>
    match d.write w.1 w.2 with
    | (false, d) => (false, d)
    | (true, d) => d.writeAll ws

variable {ws : List (α × β)} {d : Store α β}

theorem Store.writeAll_calm (h : d.fault = none) :
    d.writeAll ws = (true, { cells := put ws d.cells, fault := none }) := by
  induction ws generalizing d with
  | nil =>
    cases d
    cases h
    rfl
  | cons w ws ih =>
    have hw : d.write w.1 w.2 = (true, { d with cells := Function.update d.cells w.1 w.2 }) := by
      rw [write, h]
    rw [writeAll, hw]
    exact ih h

theorem Store.writeAll_late {k : Nat} (h : d.fault = some k) (hk : ws.length ≤ k) :
    d.writeAll ws = (true, { cells := put ws d.cells, fault := some (k - ws.length) }) := by
  induction ws generalizing d k with
  | nil =>
    cases d
    cases h
    rfl
  | cons w ws ih =>
    rw [List.length_cons] at hk ⊢
    cases k with
    | zero => omega
    | succ k =>
      have hw : d.write w.1 w.2 = (true, { cells := Function.update d.cells w.1 w.2, fault := some k }) := by
        rw [write, h]
      rw [writeAll, hw]
      dsimp only
      rw [ih rfl (by omega), Nat.add_sub_add_right]
      rfl

theorem Store.writeAll_ok (h : ∀ k, d.fault = some k → ws.length ≤ k) :
    d.writeAll ws = (true, { cells := put ws d.cells, fault := d.fault.map (· - ws.length) }) := by
  cases hf : d.fault with
  | none => exact writeAll_calm hf
  | some k => exact writeAll_late hf (h k hf)

theorem Store.writeAll_torn {k : Nat} (h : d.fault = some k) (hk : k < ws.length) :
    d.writeAll ws = (false, { cells := put (ws.take k) d.cells, fault := none }) := by
  induction ws generalizing d k with
  | nil => exact absurd hk (Nat.not_lt_zero k)
  | cons w ws ih =>
    cases k with
    | zero =>
      have hw : d.write w.1 w.2 = (false, { d with fault := none }) := by
        rw [write, h]
      rw [writeAll, hw]
      rfl
    | succ k =>
      have hw : d.write w.1 w.2 = (true, { cells := Function.update d.cells w.1 w.2, fault := some k }) := by
        rw [write, h]
      rw [writeAll, hw]
      exact ih rfl (Nat.lt_of_succ_lt_succ hk)

end Ezos.Lib.FaultyStore
