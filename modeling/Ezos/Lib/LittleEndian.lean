import Ezos.Lib.Memory
import Mathlib.Tactic.Ring
import Mathlib.Data.BitVec

/-!
# Numbers in bytes, the low byte first

Reading `n` bytes from the top gives their value; bytes of a number give what is left of it modulo `256 ^ n`.
-/

namespace Ezos.Lib.LittleEndian

open Memory

set_option autoImplicit false

variable {w n x : Nat} {b : Nat → Byte}

def value (b : Nat → Byte) : Nat → Nat
  | 0 => 0
  | n + 1 => value b n + (b n).toNat * 256 ^ n

def bytes {w : Nat} (x : BitVec w) (n : Nat) : List Byte := (List.range n).map fun i => (x >>> (8 * i)).setWidth 8

theorem length_bytes (x : BitVec w) (n : Nat) : (bytes x n).length = n := by
  rw [bytes, List.length_map, List.length_range]

theorem getElem?_bytes {x : BitVec w} {i : Nat} (h : i < n) : (bytes x n)[i]? = some ((x >>> (8 * i)).setWidth 8) := by
  rw [bytes, List.getElem?_map, List.getElem?_range h]
  rfl

theorem toNat_byte (x : BitVec w) (i : Nat) : ((x >>> (8 * i)).setWidth 8).toNat = x.toNat / 256 ^ i % 256 := by
  rw [BitVec.toNat_setWidth, BitVec.toNat_ushiftRight, Nat.shiftRight_eq_div_pow, Nat.pow_mul]

theorem value_of_digits (h : ∀ i < n, (b i).toNat = x / 256 ^ i % 256) : value b n = x % 256 ^ n := by
  induction n with
  | zero => rw [value, Nat.pow_zero, Nat.mod_one]
  | succ n ih =>
    rw [value, ih fun i hi => h i (by omega), h n (by omega), Nat.mod_pow_succ, Nat.mul_comm]

theorem shift_or (hw : 8 ≤ w) (r : BitVec w) (c : Byte) : (r <<< 8) ||| c.setWidth w = r * 256 + c.setWidth w := by
  have hand : (r <<< 8) &&& c.setWidth w = 0#w := by
    apply BitVec.eq_of_getLsbD_eq
    intro i hi
    rw [BitVec.getLsbD_and, BitVec.getLsbD_shiftLeft, BitVec.getLsbD_setWidth, BitVec.getLsbD_zero]
    by_cases h : i < 8
    · simp [h]
    · simp [BitVec.getLsbD_of_ge c i (by omega)]
  rw [← BitVec.add_eq_or_of_and_eq_zero _ _ hand, BitVec.shiftLeft_eq_mul_twoPow]
  congr 2
  apply BitVec.eq_of_toNat_eq
  rw [BitVec.toNat_twoPow]
  rfl

theorem foldl_bytes (hw : 8 ≤ w) (r : BitVec w) (b : Nat → Byte) (n : Nat) :
    (List.range n).reverse.foldl (fun (r : BitVec w) i => (r <<< 8) ||| (b i).setWidth w) r
      = r * BitVec.ofNat w (256 ^ n) + BitVec.ofNat w (value b n) := by
  induction n generalizing r with
  | zero =>
    rw [value, Nat.pow_zero]
    change r = r * 1 + 0
    ring
  | succ n ih =>
    have hbyte : (b n).setWidth w = BitVec.ofNat w (b n).toNat := (BitVec.ofNat_toNat w (b n)).symm
    rw [List.range_succ, List.reverse_append, List.reverse_singleton, List.singleton_append, List.foldl_cons, ih,
      shift_or hw, hbyte, value, Nat.pow_succ, BitVec.ofNat_add, BitVec.ofNat_mul, BitVec.ofNat_mul]
    change (r * BitVec.ofNat w 256 + _) * _ + _ = _
    ring

def Has (m : Mem) (a : Nat) (l : List Byte) : Prop := ∀ i (h : i < l.length), m (a + i) = l[i]

variable {m : Mem} {a : Nat} {c : Byte} {l l' : List Byte}

theorem has_cons : Has m a (c :: l) ↔ m a = c ∧ Has m (a + 1) l := by
  constructor
  · intro h
    refine ⟨h 0 (Nat.succ_pos _), ?_⟩
    intro i hi
    have hnext := h (i + 1) (Nat.succ_lt_succ hi)
    rw [← Nat.add_assoc, Nat.add_right_comm] at hnext
    exact hnext
  · rintro ⟨hhead, hrest⟩ i hi
    cases i with
    | zero => exact hhead
    | succ i =>
      have hnext := hrest i (Nat.lt_of_succ_lt_succ hi)
      rw [Nat.add_right_comm, Nat.add_assoc] at hnext
      exact hnext

theorem has_append : Has m a (l ++ l') ↔ Has m a l ∧ Has m (a + l.length) l' := by
  induction l generalizing a with
  | nil =>
    constructor
    · exact fun h => ⟨fun i hi => absurd hi (Nat.not_lt_zero i), h⟩
    · exact fun h => h.2
  | cons c l ih =>
    rw [List.cons_append, has_cons, has_cons, ih, List.length_cons, and_assoc, Nat.add_assoc, Nat.add_comm 1 l.length]

theorem Has.byte {w : Nat} {x : BitVec w} (h : Has m a (bytes x n)) {i : Nat} (hi : i < n) :
    (m (a + i)).toNat = x.toNat / 256 ^ i % 256 := by
  have hlen : i < (bytes x n).length := by rw [length_bytes]; exact hi
  rw [h i hlen, ← toNat_byte]
  congr 1
  exact Option.some.inj ((List.getElem?_eq_getElem hlen).symm.trans (getElem?_bytes hi))

theorem Has.value {w : Nat} {x : BitVec w} (h : Has m a (bytes x n)) :
    LittleEndian.value (fun i => m (a + i)) n = x.toNat % 256 ^ n := value_of_digits fun _ hi => h.byte hi

end Ezos.Lib.LittleEndian
