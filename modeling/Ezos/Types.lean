import Mathlib.Algebra.Group.Nat.Defs
import Mathlib.Data.Nat.Basic

/-! The fixed-width integers of `kernel/types.h`. -/

namespace Ezos

set_option autoImplicit false

abbrev U8 := BitVec 8
abbrev U16 := BitVec 16
abbrev U32 := BitVec 32

theorem eq_zero_iff (x : U32) : x = 0 ↔ x.toNat = 0 :=
  ⟨fun h => h ▸ rfl, fun h => BitVec.eq_of_toNat_eq h⟩

theorem toNat_ne_zero {x : U32} (h : x ≠ 0) : x.toNat ≠ 0 := fun h' => h ((eq_zero_iff x).mpr h')

theorem toNat_and_page_mask (x : U32) : (x &&& 0xFFF).toNat = x.toNat % 4096 := by
  have hmask : (0xFFF : U32).toNat = 2 ^ 12 - 1 := rfl
  rw [BitVec.toNat_and, hmask, Nat.and_two_pow_sub_one_eq_mod]

theorem and_page_mask_eq_zero_iff (x : U32) : x &&& 0xFFF = 0 ↔ x.toNat % 4096 = 0 := by
  rw [eq_zero_iff, toNat_and_page_mask]

theorem getLsbD_low_mask {k i : Nat} (hk : k < 32) :
    (BitVec.ofNat 32 (2 ^ k - 1)).getLsbD i = decide (i < k) := by
  rw [BitVec.getLsbD_ofNat, Nat.testBit_two_pow_sub_one]
  by_cases hi : i < k
  · simp [hi, show i < 32 by omega]
  · simp [hi]

theorem toNat_and_not_low_mask {k : Nat} (hk : k < 32) (x : U32) :
    (x &&& ~~~BitVec.ofNat 32 (2 ^ k - 1)).toNat = x.toNat / 2 ^ k * 2 ^ k := by
  have hx : x &&& ~~~BitVec.ofNat 32 (2 ^ k - 1) = (x >>> k) <<< k := by
    apply BitVec.eq_of_getLsbD_eq
    intro i hi
    rw [BitVec.getLsbD_and, BitVec.getLsbD_not, getLsbD_low_mask hk, BitVec.getLsbD_shiftLeft,
      BitVec.getLsbD_ushiftRight]
    by_cases h : i < k
    · simp [h]
    · simp [h, hi, show k + (i - k) = i by omega]
  have hle : x.toNat / 2 ^ k * 2 ^ k < 2 ^ 32 :=
    Nat.lt_of_le_of_lt (Nat.div_mul_le_self _ _) x.isLt
  rw [hx, BitVec.toNat_shiftLeft, BitVec.toNat_ushiftRight, Nat.shiftRight_eq_div_pow,
    Nat.shiftLeft_eq, Nat.mod_eq_of_lt hle]

end Ezos
