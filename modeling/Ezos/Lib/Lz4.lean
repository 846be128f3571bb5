import Ezos.Lib.Memory
import Mathlib.Data.List.GetD

/-!
# The LZ4 block format

A block is a row of sequences, each some literals and a copy of what is there already, and ends with literals.
-/

namespace Ezos.Lib.Lz4

open Memory

set_option autoImplicit false

def spread (off n : Nat) (out : List Byte) : List Byte :=
  out ++ (List.range n).map fun i => out.getD (out.length - off + i % off) 0

def nibble (l : Nat) : Nat := min l 15

def summed (r : Nat) : List Byte := List.replicate (r / 255) 255 ++ [BitVec.ofNat 8 (r % 255)]

def prolong (l : Nat) : List Byte := if l < 15 then [] else summed (l - 15)

def token (hi lo : Nat) : Byte := BitVec.ofNat 8 (hi * 16 + lo)

def offset (off : Nat) : List Byte := [BitVec.ofNat 8 off, BitVec.ofNat 8 (off / 256)]

structure Seq where
  lits : List Byte
  off : Nat
  len : Nat
  off_pos : 0 < off
  off_lt : off < 65536
  len_ge : 4 ≤ len

def Seq.bytes (s : Seq) : List Byte :=
  token (nibble s.lits.length) (nibble (s.len - 4)) ::
    (prolong s.lits.length ++ (s.lits ++ (offset s.off ++ prolong (s.len - 4))))

/-- Behind `out` the block gives the whole. The lower half of the last token says nothing. -/
inductive Encodes : List Byte → List Byte → List Byte → Prop
  | last (out lits : List Byte) {lo : Nat} : lo < 16 →
      Encodes out (token (nibble lits.length) lo :: (prolong lits.length ++ lits)) (out ++ lits)
  | seq {out block d : List Byte} (s : Seq) : s.off ≤ out.length + s.lits.length →
      Encodes (spread s.off s.len (out ++ s.lits)) block d → Encodes out (s.bytes ++ block) d

variable {off n l r : Nat} {out block d : List Byte}

@[simp] theorem length_spread : (spread off n out).length = out.length + n := by
  simp [spread]

/-- A byte at a time: the new byte is one that the next copies may take. -/
theorem spread_succ (hpos : 0 < off) (hle : off ≤ out.length) :
    spread off n (out ++ [out.getD (out.length - off) 0]) = spread off (n + 1) out := by
  have hlen : (out ++ [out.getD (out.length - off) 0]).length = out.length + 1 := by
    rw [List.length_append, List.length_singleton]
  unfold spread
  rw [hlen, List.range_succ_eq_map, List.map_cons, List.map_map, Nat.zero_mod, Nat.add_zero, List.append_assoc,
    List.singleton_append]
  congr 2
  apply List.map_congr_left
  intro i _
  have hlt : i % off < off := Nat.mod_lt i hpos
  change (out ++ [out.getD (out.length - off) 0]).getD (out.length + 1 - off + i % off) 0 =
    out.getD (out.length - off + (i + 1) % off) 0
  by_cases hwrap : i % off + 1 = off
  · have hmod : (i + 1) % off = 0 := by rw [← Nat.mod_add_mod, hwrap, Nat.mod_self]
    rw [hmod, Nat.add_zero, List.getD_append_right _ _ _ _ (by omega),
      show out.length + 1 - off + i % off - out.length = 0 by omega]
    rfl
  · have hmod : (i + 1) % off = i % off + 1 := by rw [← Nat.mod_add_mod, Nat.mod_eq_of_lt (by omega)]
    rw [hmod, List.getD_append _ _ _ _ (by omega),
      show out.length - off + (i % off + 1) = out.length + 1 - off + i % off by omega]

theorem prolong_of_lt (h : l < 15) : prolong l = [] := if_pos h

theorem prolong_of_le (h : 15 ≤ l) : prolong l = summed (l - 15) := if_neg (Nat.not_lt.mpr h)

theorem summed_of_lt (h : r < 255) : summed r = [BitVec.ofNat 8 r] := by
  rw [summed, Nat.div_eq_of_lt h, Nat.mod_eq_of_lt h]
  rfl

theorem summed_add (r : Nat) : summed (r + 255) = 255 :: summed r := by
  rw [summed, Nat.add_div_right r (by decide), Nat.add_mod_right, List.replicate_succ]
  rfl

theorem length_summed_pos (r : Nat) : 0 < (summed r).length := by
  rw [summed, List.length_append, List.length_singleton]
  exact Nat.succ_pos _

theorem nibble_lt (l : Nat) : nibble l < 16 := Nat.lt_of_le_of_lt (Nat.min_le_right l 15) (by decide)

theorem toNat_token {hi lo : Nat} (hhi : hi < 16) (hlo : lo < 16) : (token hi lo).toNat = hi * 16 + lo := by
  rw [token, BitVec.toNat_ofNat]
  omega

theorem offset_value (h : off < 65536) :
    (BitVec.ofNat 8 (off / 256)).toNat * 256 + (BitVec.ofNat 8 off).toNat = off := by
  rw [BitVec.toNat_ofNat, BitVec.toNat_ofNat]
  omega

theorem Encodes.length_le (h : Encodes out block d) : out.length ≤ d.length := by
  induction h with
  | last out lits => exact Nat.le_trans (Nat.le_add_right _ _) (Nat.le_of_eq List.length_append.symm)
  | seq s _ _ ih =>
    rw [length_spread, List.length_append] at ih
    omega

/-- A block is never empty. -/
theorem Encodes.length_pos (h : Encodes out block d) : 0 < block.length := by
  cases h with
  | last => exact Nat.succ_pos _
  | seq s =>
    rw [List.length_append]
    exact Nat.lt_of_lt_of_le (Nat.succ_pos _) (Nat.le_add_right _ _)

end Ezos.Lib.Lz4
