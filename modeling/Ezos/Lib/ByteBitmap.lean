import Ezos.Lib.Memory

/-!
# Bitmaps laid out in bytes

Bit `i` is bit `i % 8` of byte `i / 8`. Setting and clearing are the masks of the C sources
(`|= 1u << k`, `&= ~(1u << k)`); they are specified by membership alone.
-/

namespace Ezos.Lib.ByteBitmap

open Memory

set_option autoImplicit false

def maskOf (k : Nat) : Byte := 1#8 <<< k

def setByte (m : Mem) (a : Nat) (b : Byte) : Mem := fun x => if x = a then b else m x

def getBit (m : Mem) (i : Nat) : Bool := (m (i / 8)).getLsbD (i % 8)

def setBit (m : Mem) (i : Nat) : Mem := setByte m (i / 8) (m (i / 8) ||| maskOf (i % 8))

variable {m : Mem} {i j : Nat}

theorem getLsbD_maskOf {k l : Nat} (hk : k < 8) (hl : l < 8) :
    (maskOf k).getLsbD l = decide (l = k) := by
  rw [maskOf, BitVec.getLsbD_shiftLeft, BitVec.getLsbD_one]
  by_cases h : l = k
  · subst h
    simp [hl]
  · by_cases hlk : l < k
    · simp [h, hlk]
    · simp [h, hlk, hl, show l - k ≠ 0 by omega]

theorem div_mod_inj (hd : i / 8 = j / 8) (hm : i % 8 = j % 8) : i = j := by omega

theorem getBit_setBit (m : Mem) (i j : Nat) :
    getBit (setBit m i) j = (decide (j = i) || getBit m j) := by
  unfold getBit setBit setByte
  by_cases hd : j / 8 = i / 8
  · rw [if_pos hd, BitVec.getLsbD_or, getLsbD_maskOf (by omega) (by omega), hd, Bool.or_comm]
    congr 1
    by_cases hij : j = i
    · simp [hij]
    · have hm : j % 8 ≠ i % 8 := fun h => hij (div_mod_inj hd h)
      simp [hij, hm]
  · have hij : j ≠ i := fun h => hd (by rw [h])
    simp [hd, hij]

theorem getBit_congr {m' : Mem} (h : m' (i / 8) = m (i / 8)) : getBit m' i = getBit m i := by
  unfold getBit
  rw [h]

end Ezos.Lib.ByteBitmap
