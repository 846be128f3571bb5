import Ezos.Lib.NetOrder
import Mathlib.Tactic.Ring

/-!
# The Internet checksum

Big-endian 16-bit words are added up, an odd last byte counting as the high half of a word, and
the carries are folded back. A folded sum is the residue modulo `65535` with `65535` in place of
`0`, except that only an empty sum gives `0`.
-/

namespace Ezos.Lib.OnesComplement

open Memory NetOrder

set_option autoImplicit false

def sumWords (m : Mem) : Nat → Nat → Nat
  | a, n + 2 => (m a).toNat * 256 + (m (a + 1)).toNat + sumWords m (a + 2) n
  | a, 1 => (m a).toNat * 256
  | _, 0 => 0

/-- One round of `while (s >> 16) s = (s & 0xFFFF) + (s >> 16)`. -/
def foldOnce (s : Nat) : Nat := if s < 65536 then s else s % 65536 + s / 65536

/-- The loop: two rounds end it for every 32-bit sum (`fold_lt`). -/
def fold (s : Nat) : Nat := foldOnce (foldOnce s)

def cksumRaw (m : Mem) (a n : Nat) : Nat := fold (sumWords m a n)

def cksum (m : Mem) (a n : Nat) : BitVec 16 := ~~~ BitVec.ofNat 16 (cksumRaw m a n)

variable {m m' : Mem} {a b n s : Nat}

theorem fold_lt (h : s < 2 ^ 32) : fold s < 65536 := by
  unfold fold foldOnce
  split
  · omega
  · split <;> omega

theorem fold_pos (h0 : 0 < s) (h : s < 2 ^ 32) : fold s = (s - 1) % 65535 + 1 := by
  unfold fold foldOnce
  split
  · omega
  · split <;> omega

theorem fold_eq_full_iff (h0 : 0 < s) (h : s < 2 ^ 32) : fold s = 65535 ↔ 65535 ∣ s := by
  rw [fold_pos h0 h]
  omega

theorem sumWords_le (m : Mem) (a n : Nat) : sumWords m a n ≤ (n + 1) / 2 * 65535 := by
  induction a, n using sumWords.induct with
  | case1 a n ih =>
    have h1 := (m a).isLt
    have h2 := (m (a + 1)).isLt
    rw [sumWords]
    omega
  | case2 a =>
    have h1 := (m a).isLt
    rw [sumWords]
    omega
  | case3 a => exact Nat.zero_le _

theorem sumWords_congr (h : ∀ i < n, m' (b + i) = m (a + i)) : sumWords m' b n = sumWords m a n := by
  induction a, n using sumWords.induct generalizing b with
  | case1 a n ih =>
    have h0 := h 0 (by omega)
    rw [sumWords, sumWords, h 1 (by omega), ih (b := b + 2) fun i hi => ?_]
    · rw [Nat.add_zero, Nat.add_zero] at h0
      rw [h0]
    · rw [Nat.add_assoc, Nat.add_assoc]
      exact h (2 + i) (by omega)
  | case2 a =>
    have h0 := h 0 (by omega)
    rw [Nat.add_zero, Nat.add_zero] at h0
    rw [sumWords, sumWords, h0]
  | case3 a => rfl

theorem sumWords_add (m : Mem) (a k n : Nat) :
    sumWords m a (2 * k + n) = sumWords m a (2 * k) + sumWords m (a + 2 * k) n := by
  induction k generalizing a with
  | zero => simp [sumWords]
  | succ k ih =>
    have h1 : 2 * (k + 1) + n = 2 * k + n + 2 := by ring
    have h2 : 2 * (k + 1) = 2 * k + 2 := by ring
    have h3 : a + 2 + 2 * k = a + (2 * k + 2) := by ring
    rw [h1, h2, sumWords, sumWords, ih, h3]
    ring

theorem sumWords_pad (m : Mem) (a n : Nat) (h : m (a + n) = 0) :
    sumWords m a (n + n % 2) = sumWords m a n := by
  obtain ⟨k, hk | hk⟩ := Nat.even_or_odd' n
  · rw [hk, Nat.mul_mod_right, Nat.add_zero]
  · have hmod : n % 2 = 1 := by omega
    rw [hmod, hk, sumWords_add m a k 1, show 2 * k + 1 + 1 = 2 * k + 2 by ring, sumWords_add m a k 2]
    rw [hk, ← Nat.add_assoc] at h
    simp [sumWords, h]

theorem sumWords_put16 (m : Mem) (a k n : Nat) (v : BitVec 16) (hn : 2 * k + 2 ≤ n)
    (h0 : m (a + 2 * k) = 0) (h1 : m (a + 2 * k + 1) = 0) :
    sumWords (put16 m (a + 2 * k) v) a n = sumWords m a n + v.toNat := by
  obtain ⟨r, rfl⟩ := Nat.exists_eq_add_of_le hn
  have hlen : (bytes16 v).length = 2 := rfl
  have hb0 : put16 m (a + 2 * k) v (a + 2 * k) = (v >>> 8).setWidth 8 :=
    writeBytes_at (l := bytes16 v) Nat.zero_lt_two
  have hb1 : put16 m (a + 2 * k) v (a + 2 * k + 1) = v.setWidth 8 :=
    writeBytes_at (l := bytes16 v) Nat.one_lt_two
  have hword : ((v >>> 8).setWidth 8).toNat * 256 + (v.setWidth 8).toNat = v.toNat := by
    have := v.isLt
    simp only [BitVec.toNat_setWidth, BitVec.toNat_ushiftRight, Nat.shiftRight_eq_div_pow]
    omega
  have hpre : sumWords (put16 m (a + 2 * k) v) a (2 * k) = sumWords m a (2 * k) :=
    sumWords_congr fun i hi => writeBytes_below (by omega)
  have hpost : sumWords (put16 m (a + 2 * k) v) (a + 2 * k + 2) r = sumWords m (a + 2 * k + 2) r :=
    sumWords_congr fun i hi => writeBytes_above (by omega)
  have hsplit : 2 * k + 2 + r = 2 * k + (r + 2) := by ring
  rw [hsplit, sumWords_add, sumWords_add, sumWords, sumWords, hpre, hpost, hb0, hb1, hword, h0, h1]
  simp
  ring

theorem sumWords_cons (x y : Byte) (l : List Byte) (n : Nat) :
    sumWords (ofList (x :: y :: l)) 0 (n + 2) = x.toNat * 256 + y.toNat + sumWords (ofList l) 0 n := by
  have htail : sumWords (ofList (x :: y :: l)) (0 + 2) n = sumWords (ofList l) 0 n :=
    sumWords_congr fun i _ => by
      rw [Nat.zero_add, Nat.zero_add, Nat.add_comm]
      rfl
  rw [sumWords, htail]
  rfl

theorem fold_mod (h : s < 2 ^ 32) : fold s % 65535 = s % 65535 := by
  rcases Nat.eq_zero_or_pos s with rfl | h0
  · rfl
  · rw [fold_pos h0 h]
    omega

theorem toNat_complement (h : s < 65536) : (~~~ BitVec.ofNat 16 s).toNat = 65535 - s := by
  rw [BitVec.toNat_not, BitVec.toNat_ofNat, Nat.mod_eq_of_lt h]

theorem dvd_add_complement (h : s < 2 ^ 32) : 65535 ∣ s + (~~~ BitVec.ofNat 16 (fold s)).toNat := by
  have hlt := fold_lt h
  have hmod := fold_mod h
  rw [toNat_complement hlt]
  omega

theorem sumWords_lt (m : Mem) (a : Nat) (h : n ≤ 65536) : sumWords m a n < 2 ^ 31 := by
  have hle := sumWords_le m a n
  omega

theorem cksum_put16_self (m : Mem) (a k n : Nat) (hn : 2 * k + 2 ≤ n) (hmax : n ≤ 65536)
    (h0 : m (a + 2 * k) = 0) (h1 : m (a + 2 * k + 1) = 0) (hpos : 0 < sumWords m a n) :
    cksum (put16 m (a + 2 * k) (cksum m a n)) a n = 0 := by
  have hlt := sumWords_lt m a hmax
  have hdvd : 65535 ∣ sumWords m a n + (cksum m a n).toNat := dvd_add_complement (by omega)
  have hfull : fold (sumWords m a n + (cksum m a n).toNat) = 65535 :=
    (fold_eq_full_iff (by omega) (by omega)).mpr hdvd
  rw [cksum, cksumRaw, sumWords_put16 m a k n _ hn h0 h1, hfull]
  rfl

theorem fold_fold_eq_full_iff {p : Nat} (hp : 0 < p) (hpl : p < 2 ^ 31) (hs : s < 2 ^ 31) :
    fold (fold p + fold s) = 65535 ↔ 65535 ∣ p + s := by
  have hp1 := fold_pos hp (by omega)
  have hlt := fold_lt (s := s) (by omega)
  have hmod := fold_mod (s := s) (by omega)
  rw [fold_eq_full_iff (by omega) (by omega)]
  omega

end Ezos.Lib.OnesComplement
