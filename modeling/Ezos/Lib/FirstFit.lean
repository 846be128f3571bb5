import Mathlib.Order.Basic

/-!
# First-fit search for a run of consecutive free cells

The scan keeps the length of the free run that ends just before the cursor. A free
window ending before the cursor would already have been reported, so the first
report is the lowest window and no report means that there is none.
-/

namespace Ezos.Lib.FirstFit

set_option autoImplicit false

variable (free : Nat → Bool) (n : Nat)

def Window (f : Nat) : Prop := ∀ k < n, free (f + k) = true

def scan : (todo i run : Nat) → Option Nat
  | 0, _, _ => none
  | todo + 1, i, run =>
    if free i then
      if run + 1 = n then some (i + 1 - n) else scan todo (i + 1) (run + 1)
    else scan todo (i + 1) 0

def search (size : Nat) : Option Nat := scan free n size 0 0

variable {free n}

/-- What the scan knows: the run before the cursor is free and maximal, it is shorter than
requested, and every earlier candidate has been ruled out. -/
structure Scanned (free : Nat → Bool) (n i run : Nat) : Prop where
  le : run ≤ i
  short : run < n
  run_free : ∀ j, i - run ≤ j → j < i → free j = true
  none_before : ∀ f, f < i - run → ¬ Window free n f

theorem Scanned.advance {i run : Nat} (h : Scanned free n i run) (hi : free i = true)
    (hne : run + 1 ≠ n) : Scanned free n (i + 1) (run + 1) where
  le := by have := h.le; omega
  short := by have := h.short; omega
  run_free := by
    intro j hlo hhi
    by_cases hj : j = i
    · exact hj ▸ hi
    · exact h.run_free j (by omega) (by omega)
  none_before := by
    intro f hf
    exact h.none_before f (by omega)

theorem Scanned.reset {i run : Nat} (h : Scanned free n i run) (hi : free i = false) :
    Scanned free n (i + 1) 0 where
  le := Nat.zero_le _
  short := by have := h.short; omega
  run_free := by omega
  none_before := by
    intro f hf hw
    by_cases hlt : f < i - run
    · exact h.none_before f hlt hw
    · have hs := h.short
      have hcell := hw (i - f) (by omega)
      rw [Nat.add_sub_cancel' (by omega), hi] at hcell
      exact absurd hcell (by simp)

theorem scan_some {todo i run f : Nat} (h : Scanned free n i run)
    (hf : scan free n todo i run = some f) :
    f + n ≤ i + todo ∧ Window free n f ∧ ∀ g < f, ¬ Window free n g := by
  induction todo generalizing i run with
  | zero => simp [scan] at hf
  | succ todo ih =>
    rw [scan] at hf
    have hle := h.le
    split at hf
    · rename_i hi
      split at hf
      · rename_i hn
        obtain rfl : i + 1 - n = f := by simpa using hf
        refine ⟨by omega, ?_, fun g hg => h.none_before g (by omega)⟩
        intro k hk
        by_cases hk' : i + 1 - n + k = i
        · exact hk'.symm ▸ hi
        · exact h.run_free _ (by omega) (by omega)
      · rename_i hn
        obtain ⟨hle', hw⟩ := ih (h.advance hi hn) hf
        exact ⟨by omega, hw⟩
    · rename_i hi
      obtain ⟨hle', hw⟩ := ih (h.reset (by simpa using hi)) hf
      exact ⟨by omega, hw⟩

theorem scan_none {todo i run : Nat} (h : Scanned free n i run)
    (hf : scan free n todo i run = none) : ∀ f, f + n ≤ i + todo → ¬ Window free n f := by
  induction todo generalizing i run with
  | zero =>
    intro f hle
    have := h.short
    exact h.none_before f (by omega)
  | succ todo ih =>
    intro f hle
    rw [scan] at hf
    split at hf
    · rename_i hi
      split at hf
      · exact absurd hf (by simp)
      · rename_i hn
        exact ih (h.advance hi hn) hf f (by omega)
    · rename_i hi
      exact ih (h.reset (by simpa using hi)) hf f (by omega)

theorem scanned_start (hn : 0 < n) : Scanned free n 0 0 :=
  ⟨Nat.le_refl 0, hn, by omega, by omega⟩

theorem search_some (hn : 0 < n) {size f : Nat} (h : search free n size = some f) :
    f + n ≤ size ∧ Window free n f ∧ ∀ g < f, ¬ Window free n g := by
  have := scan_some (scanned_start hn) h
  rwa [Nat.zero_add] at this

theorem search_none (hn : 0 < n) {size : Nat} (h : search free n size = none) {f : Nat}
    (hf : f + n ≤ size) : ¬ Window free n f :=
  scan_none (scanned_start hn) h f (by omega)

end Ezos.Lib.FirstFit
