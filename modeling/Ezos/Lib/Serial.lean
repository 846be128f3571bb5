import Ezos.Types
import Mathlib.Tactic.NormNum

/-!
# Serial numbers: 32-bit counters compared by signed difference

A tick counter or a sequence number is the residue modulo `2^32` of a position on an unbounded
axis. Two positions less than `2^31` apart are ordered by the sign of the difference of
their residues.
-/

namespace Ezos.Lib.Serial

set_option autoImplicit false

abbrev wrap (x : Nat) : U32 := BitVec.ofNat 32 x

def ahead (a b : U32) : Int := (a - b).toInt

theorem wrap_add (x y : Nat) : wrap (x + y) = wrap x + wrap y := BitVec.ofNat_add x y

theorem wrap_toNat (x : U32) : wrap x.toNat = x := by
  rw [wrap, BitVec.ofNat_toNat, BitVec.setWidth_eq]

theorem ahead_wrap {x y : Nat} (hlo : y ≤ x + 2 ^ 31) (hhi : x < y + 2 ^ 31) :
    ahead (wrap x) (wrap y) = (x : Int) - y := by
  have hmod : (wrap x - wrap y).toNat = (2 ^ 32 - y % 2 ^ 32 + x % 2 ^ 32) % 2 ^ 32 := by
    rw [BitVec.toNat_sub, BitVec.toNat_ofNat, BitVec.toNat_ofNat]
  rw [ahead, BitVec.toInt_eq_toNat_cond, hmod]
  split <;> omega

theorem ahead_nonneg_iff {x y : Nat} (hlo : y ≤ x + 2 ^ 31) (hhi : x < y + 2 ^ 31) :
    0 ≤ ahead (wrap x) (wrap y) ↔ y ≤ x := by
  rw [ahead_wrap hlo hhi]
  omega

theorem toNat_sub_wrap {x y : Nat} (h : y ≤ x) (hx : x < y + 2 ^ 32) :
    (wrap x - wrap y).toNat = x - y := by
  rw [BitVec.toNat_sub, BitVec.toNat_ofNat, BitVec.toNat_ofNat]
  omega

theorem wrap_inj {x y : Nat} (h : wrap x = wrap y) (hlo : y < x + 2 ^ 32) (hhi : x < y + 2 ^ 32) :
    x = y := by
  have := congrArg BitVec.toNat h
  rw [BitVec.toNat_ofNat, BitVec.toNat_ofNat] at this
  omega

theorem ahead_window_iff {a u n : U32} (h : (n - u).toNat < 2 ^ 31) :
    0 < ahead a u ∧ ahead a n ≤ 0 ↔ 0 < (a - u).toNat ∧ (a - u).toNat ≤ (n - u).toNat := by
  have hsub : a - n = (a - u) - (n - u) := by grind
  rw [ahead, ahead, hsub]
  generalize a - u = x at *
  generalize n - u = d at *
  have hx := x.isLt
  have hd := d.isLt
  have hxd : (x - d).toNat = (2 ^ 32 - d.toNat + x.toNat) % 2 ^ 32 := BitVec.toNat_sub _ _
  rw [BitVec.toInt_eq_toNat_cond, BitVec.toInt_eq_toNat_cond, hxd]
  split
  · split <;> omega
  · split <;> omega

end Ezos.Lib.Serial
