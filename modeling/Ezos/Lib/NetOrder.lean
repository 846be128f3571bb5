import Ezos.Lib.Memory
import Mathlib.Data.List.GetD

/-!
# Big-endian words in a byte buffer

`bytesAt m a n` is the list of the `n` bytes from `a` on. Reads depend on that list only, and a
store of a list of bytes is read back as that list.
-/

namespace Ezos.Lib.NetOrder

open Memory

set_option autoImplicit false

def be16 (m : Mem) (a : Nat) : BitVec 16 := m a ++ m (a + 1)

def be32 (m : Mem) (a : Nat) : BitVec 32 := m a ++ m (a + 1) ++ m (a + 2) ++ m (a + 3)

def bytes16 (v : BitVec 16) : List Byte := [(v >>> 8).setWidth 8, v.setWidth 8]

def bytes32 (v : BitVec 32) : List Byte :=
  [(v >>> 24).setWidth 8, (v >>> 16).setWidth 8, (v >>> 8).setWidth 8, v.setWidth 8]

def put16 (m : Mem) (a : Nat) (v : BitVec 16) : Mem := writeBytes m a (bytes16 v)

def put32 (m : Mem) (a : Nat) (v : BitVec 32) : Mem := writeBytes m a (bytes32 v)

def ofList (l : List Byte) : Mem := fun i => l.getD i 0

def bytesAt (m : Mem) (a n : Nat) : List Byte := (List.range n).map fun i => m (a + i)

def shift (m : Mem) (a : Nat) : Mem := fun i => m (a + i)

variable {m m' : Mem} {a b n : Nat}

@[simp] theorem length_bytesAt (m : Mem) (a n : Nat) : (bytesAt m a n).length = n := by
  simp [bytesAt]

theorem getElem_bytesAt {i : Nat} (h : i < (bytesAt m a n).length) :
    (bytesAt m a n)[i] = m (a + i) := by
  simp [bytesAt]

theorem bytesAt_congr (h : ∀ i < n, m' (b + i) = m (a + i)) : bytesAt m' b n = bytesAt m a n :=
  List.map_congr_left fun i hi => h i (List.mem_range.mp hi)

theorem bytesAt_add (m : Mem) (a n k : Nat) :
    bytesAt m a (n + k) = bytesAt m a n ++ bytesAt m (a + n) k := by
  simp only [bytesAt, List.range_add, List.map_append, List.map_map]
  congr 1
  exact List.map_congr_left fun i _ => congrArg m (Nat.add_assoc a n i).symm

theorem bytesAt_succ (m : Mem) (a n : Nat) : bytesAt m a (n + 1) = m a :: bytesAt m (a + 1) n := by
  rw [Nat.add_comm n 1, bytesAt_add]
  simp [bytesAt]

theorem bytesAt_drop (m : Mem) (a n k : Nat) : (bytesAt m a n).drop k = bytesAt m (a + k) (n - k) := by
  by_cases h : k ≤ n
  · obtain ⟨r, rfl⟩ := Nat.exists_eq_add_of_le h
    rw [bytesAt_add, Nat.add_sub_cancel_left]
    exact List.drop_left' (length_bytesAt _ _ _)
  · have hnil : n - k = 0 := by omega
    rw [List.drop_eq_nil_of_le (by rw [length_bytesAt]; omega), hnil]
    rfl

theorem bytesAt_take (m : Mem) (a n k : Nat) : (bytesAt m a n).take k = bytesAt m a (min k n) := by
  by_cases h : k ≤ n
  · obtain ⟨r, rfl⟩ := Nat.exists_eq_add_of_le h
    rw [bytesAt_add, Nat.min_eq_left h]
    exact List.take_left' (length_bytesAt _ _ _)
  · rw [List.take_of_length_le (by rw [length_bytesAt]; omega), Nat.min_eq_right (by omega)]

theorem bytesAt_ofList (l : List Byte) : bytesAt (ofList l) 0 l.length = l := by
  apply List.ext_getElem (length_bytesAt _ _ _)
  intro i h _
  rw [getElem_bytesAt, Nat.zero_add, ofList]
  exact List.getD_eq_getElem _ _ _

theorem writeBytes_at {l : List Byte} {i : Nat} (h : i < l.length) :
    writeBytes m a l (a + i) = l.getD i 0 := by
  rw [writeBytes, copyIn, if_pos (by omega), Nat.add_sub_cancel_left]

theorem writeBytes_below {l : List Byte} {x : Nat} (h : x < a) : writeBytes m a l x = m x :=
  if_neg (by omega)

theorem writeBytes_above {l : List Byte} {x : Nat} (h : a + l.length ≤ x) :
    writeBytes m a l x = m x := if_neg (by omega)

theorem bytesAt_writeBytes (m : Mem) (a : Nat) (l : List Byte) :
    bytesAt (writeBytes m a l) a l.length = l := by
  apply List.ext_getElem (length_bytesAt _ _ _)
  intro i h hi
  rw [getElem_bytesAt, writeBytes_at hi]
  exact List.getD_eq_getElem _ _ _

theorem be16_congr (h0 : m' b = m a) (h1 : m' (b + 1) = m (a + 1)) : be16 m' b = be16 m a := by
  rw [be16, be16, h0, h1]

theorem be32_congr (h : ∀ i < 4, m' (b + i) = m (a + i)) : be32 m' b = be32 m a := by
  have h0 := h 0 (by omega)
  rw [Nat.add_zero, Nat.add_zero] at h0
  rw [be32, be32, h0, h 1 (by omega), h 2 (by omega), h 3 (by omega)]

theorem be16_of_bytes {v : BitVec 16} (h0 : m a = (v >>> 8).setWidth 8) (h1 : m (a + 1) = v.setWidth 8) :
    be16 m a = v := by
  rw [be16, h0, h1]
  apply BitVec.eq_of_getLsbD_eq
  intro i hi
  simp only [BitVec.getLsbD_append, BitVec.getLsbD_setWidth, BitVec.getLsbD_ushiftRight]
  by_cases h8 : i < 8
  · simp [h8]
  · simp [h8, show i - 8 < 8 by omega, show 8 + (i - 8) = i by omega]

theorem be32_of_bytes {v : BitVec 32} (h : ∀ i < 4, m (a + i) = (v >>> (24 - 8 * i)).setWidth 8) :
    be32 m a = v := by
  have h0 := h 0 (by omega)
  rw [Nat.add_zero] at h0
  rw [be32, h0, h 1 (by omega), h 2 (by omega), h 3 (by omega)]
  apply BitVec.eq_of_getLsbD_eq
  intro i hi
  simp only [BitVec.getLsbD_append, BitVec.getLsbD_setWidth, BitVec.getLsbD_ushiftRight]
  by_cases h8 : i < 8
  · simp [h8]
  · by_cases h16 : i - 8 < 8
    · simp [h8, h16, show 8 + (i - 8) = i by omega]
    · by_cases h24 : i - 8 - 8 < 8
      · simp [h8, h16, h24, show 16 + (i - 8 - 8) = i by omega]
      · simp [h8, h16, h24, show 24 + (i - 8 - 8 - 8) = i by omega,
          show i - 8 - 8 - 8 < 8 by omega]

@[simp] theorem be16_put16_self (m : Mem) (a : Nat) (v : BitVec 16) : be16 (put16 m a v) a = v := by
  apply be16_of_bytes
  · exact writeBytes_at (l := bytes16 v) Nat.zero_lt_two
  · exact writeBytes_at (l := bytes16 v) Nat.one_lt_two

@[simp] theorem be32_put32_self (m : Mem) (a : Nat) (v : BitVec 32) : be32 (put32 m a v) a = v := by
  apply be32_of_bytes
  intro i hi
  refine (writeBytes_at (l := bytes32 v) hi).trans ?_
  match i, hi with
  | 0, _ => rfl
  | 1, _ => rfl
  | 2, _ => rfl
  | 3, _ => rfl

theorem be16_put16_of_disjoint (m : Mem) (v : BitVec 16) (h : a + 2 ≤ b ∨ b + 2 ≤ a) :
    be16 (put16 m a v) b = be16 m b :=
  be16_congr (if_neg (by simp [bytes16]; omega)) (if_neg (by simp [bytes16]; omega))

theorem be32_writeBytes_of_disjoint {l : List Byte} (h : a + l.length ≤ b ∨ b + 4 ≤ a) :
    be32 (writeBytes m a l) b = be32 m b :=
  be32_congr fun i hi => if_neg (by omega)

theorem be16_writeBytes_of_disjoint {l : List Byte} (h : a + l.length ≤ b ∨ b + 2 ≤ a) :
    be16 (writeBytes m a l) b = be16 m b :=
  be16_congr (if_neg (by omega)) (if_neg (by omega))

end Ezos.Lib.NetOrder
