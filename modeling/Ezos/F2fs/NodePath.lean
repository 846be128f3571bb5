import Ezos.F2fs.Volume
import Mathlib.Data.List.Lex

/-!
# From a block of a file to its slot (`f2_node_path` and `f2_get_block` of `kernel/f2fs.c`)

The offsets of a block are a place in the inode, or a node that the inode names and the way down from it. Read as digits
they number the blocks of the file in order, so a block has one slot and a slot has one block.
-/

namespace Ezos.F2fs

open Lib.Memory

set_option autoImplicit false

def inoOffInline : Nat := 3
def inoOffAddr : Nat := 360
def inoOffNid : Nat := 4052

/-- `DEF_ADDRS_PER_INODE`, `F2FS_INLINE_XATTR_ADDRS`, `ADDRS_PER_BLOCK` and `NIDS_PER_BLOCK`. -/
def defAddrsPerInode : U32 := 923
def inlineXattrAddrs : U32 := 50
def addrsPerBlock : U32 := 1018
def nidsPerBlock : U32 := 1018

def inlineXattr : Byte := 0x01

def nodeDir1Block : U32 := defAddrsPerInode + 1
def nodeDir2Block : U32 := defAddrsPerInode + 2
def nodeInd1Block : U32 := defAddrsPerInode + 3
def nodeInd2Block : U32 := defAddrsPerInode + 4
def nodeDindBlock : U32 := defAddrsPerInode + 5

def directIndex (inode : Mem) : U32 :=
  if inode inoOffInline &&& inlineXattr ≠ 0 then defAddrsPerInode - inlineXattrAddrs else defAddrsPerInode

/-- The offsets `off[0], .., off[level]`; `none` is the answer -1. -/
def f2NodePath (inode : Mem) (block : U32) : Option (List U32) :=
  let directBlks := addrsPerBlock
  let dptrsPerBlk := nidsPerBlock
  let indirectBlks := addrsPerBlock * nidsPerBlock
  if block < directIndex inode then some [block]
  else
    let block := block - directIndex inode
    if block < directBlks then some [nodeDir1Block, block]
    else
      let block := block - directBlks
      if block < directBlks then some [nodeDir2Block, block]
      else
        let block := block - directBlks
        if block < indirectBlks then some [nodeInd1Block, block / directBlks, block % directBlks]
        else
          let block := block - indirectBlks
          if block < indirectBlks then some [nodeInd2Block, block / directBlks, block % directBlks]
          else
            let block := block - indirectBlks
            if block < indirectBlks * nidsPerBlock then
              some [nodeDindBlock, block / indirectBlks, block / directBlks % dptrsPerBlk, block % directBlks]
            else none

def f2Descend (v : Vol) (nid : U32) : List U32 → U32
  | [] => 0
  | [off] =>
    match f2ReadNode v nid with
    | none => 0
    | some node => read32 node (off.toNat * 4)
  | off :: offs =>
    match f2ReadNode v nid with
    | none => 0
    | some node => f2Descend v (read32 node (off.toNat * 4)) offs

def f2GetBlock (v : Vol) (inode : Mem) (blockOfs : U32) : U32 :=
  match f2NodePath inode blockOfs with
  | none => 0
  | some [] => 0
  | some [off] => read32 inode (inoOffAddr + off.toNat * 4)
  | some (off :: offs) => f2Descend v (read32 inode (inoOffNid + (off - nodeDir1Block).toNat * 4)) offs

/-! ## The offsets as digits -/

variable {d n m : Nat} {p q : List Nat} {inode : Mem} {block block' : U32}

def exactPath (d n : Nat) : Option (List Nat) :=
  if n < d then some [n]
  else if n < d + 1018 then some [924, n - d]
  else if n < d + 2 * 1018 then some [925, n - (d + 1018)]
  else if n < d + 2 * 1018 + 1018 * 1018 then
    some [926, (n - (d + 2 * 1018)) / 1018, (n - (d + 2 * 1018)) % 1018]
  else if n < d + 2 * 1018 + 2 * (1018 * 1018) then
    some [927, (n - (d + 2 * 1018 + 1018 * 1018)) / 1018, (n - (d + 2 * 1018 + 1018 * 1018)) % 1018]
  else if n < d + 2 * 1018 + 2 * (1018 * 1018) + 1018 * 1018 * 1018 then
    some [928, (n - (d + 2 * 1018 + 2 * (1018 * 1018))) / (1018 * 1018), (n - (d + 2 * 1018 + 2 * (1018 * 1018))) / 1018 % 1018,
      (n - (d + 2 * 1018 + 2 * (1018 * 1018))) % 1018]
  else none

def capacity (d : Nat) : Nat := d + 2 * 1018 + 2 * (1018 * 1018) + 1018 * 1018 * 1018

inductive Slot (d : Nat) : List Nat → Prop
  | inode {a : Nat} (ha : a < d) : Slot d [a]
  | direct {t a : Nat} (ht : t < 2) (ha : a < 1018) : Slot d [924 + t, a]
  | indirect {t b a : Nat} (ht : t < 2) (hb : b < 1018) (ha : a < 1018) : Slot d [926 + t, b, a]
  | double {c b a : Nat} (hc : c < 1018) (hb : b < 1018) (ha : a < 1018) : Slot d [928, c, b, a]

def position (d : Nat) : List Nat → Nat
  | [a] => a
  | [t, a] => d + (t - 924) * 1018 + a
  | [t, b, a] => d + 2 * 1018 + (t - 926) * (1018 * 1018) + b * 1018 + a
  | [_, c, b, a] => d + 2 * 1018 + 2 * (1018 * 1018) + c * (1018 * 1018) + b * 1018 + a
  | _ => 0

@[simp] theorem position_inode {a : Nat} : position d [a] = a := rfl

@[simp] theorem position_direct {t a : Nat} : position d [t, a] = d + (t - 924) * 1018 + a := rfl

@[simp] theorem position_indirect {t b a : Nat} :
    position d [t, b, a] = d + 2 * 1018 + (t - 926) * (1018 * 1018) + b * 1018 + a := rfl

@[simp] theorem position_double {t c b a : Nat} : position d [t, c, b, a] =
    d + 2 * 1018 + 2 * (1018 * 1018) + c * (1018 * 1018) + b * 1018 + a := rfl

theorem exactPath_eq_none : exactPath d n = none ↔ capacity d ≤ n := by
  unfold exactPath capacity
  repeat' split
  all_goals simp only [reduceCtorEq, false_iff, true_iff]
  all_goals omega

theorem exactPath_slot (h : exactPath d n = some p) : Slot d p ∧ position d p = n := by
  unfold exactPath at h
  split at h
  · rename_i hn
    obtain rfl := Option.some.inj h
    exact ⟨.inode hn, rfl⟩
  split at h
  · obtain rfl := Option.some.inj h
    exact ⟨.direct (t := 0) (by omega) (by omega), by simp only [position_direct]; omega⟩
  split at h
  · obtain rfl := Option.some.inj h
    exact ⟨.direct (t := 1) (by omega) (by omega), by simp only [position_direct]; omega⟩
  split at h
  · obtain rfl := Option.some.inj h
    exact ⟨.indirect (t := 0) (by omega) (by omega) (by omega), by simp only [position_indirect]; omega⟩
  split at h
  · obtain rfl := Option.some.inj h
    exact ⟨.indirect (t := 1) (by omega) (by omega) (by omega), by simp only [position_indirect]; omega⟩
  split at h
  · obtain rfl := Option.some.inj h
    exact ⟨.double (by omega) (by omega) (by omega), by simp only [position_double]; omega⟩
  · contradiction

theorem position_lt (hd : d ≤ 924) (hp : Slot d p) (hq : Slot d q) (h : p < q) : position d p < position d q := by
  cases hp <;> cases hq <;>
    simp only [List.cons_lt_cons_iff, List.not_lt_nil, List.nil_lt_cons, or_false, and_false, and_true] at h <;>
    simp only [position_inode, position_direct, position_indirect, position_double] <;> omega

theorem directIndex_cases (inode : Mem) : (directIndex inode).toNat = 873 ∨ (directIndex inode).toNat = 923 := by
  unfold directIndex
  split
  · exact Or.inl rfl
  · exact Or.inr rfl

theorem sub_guarded {x y : U32} (h : ¬ x < y) : (x - y).toNat = x.toNat - y.toNat :=
  BitVec.toNat_sub_of_le (BitVec.not_lt.mp h)

theorem f2NodePath_exact (inode : Mem) (block : U32) :
    (f2NodePath inode block).map (List.map BitVec.toNat) = exactPath (directIndex inode).toNat block.toNat := by
  have hdir : addrsPerBlock.toNat = 1018 := rfl
  have hnid : nidsPerBlock.toNat = 1018 := rfl
  have hind : (addrsPerBlock * nidsPerBlock).toNat = 1018 * 1018 := rfl
  have hdind : (addrsPerBlock * nidsPerBlock * nidsPerBlock).toNat = 1018 * 1018 * 1018 := rfl
  unfold f2NodePath exactPath
  dsimp only
  generalize directIndex inode = d
  by_cases h0 : block < d
  · have hn : block.toNat < d.toNat := h0
    rw [if_pos h0, if_pos hn]
    rfl
  have e1 := sub_guarded h0
  have hn0 : d.toNat ≤ block.toNat := Nat.le_of_not_lt h0
  have r0 : ¬ block.toNat < d.toNat := by omega
  rw [if_neg h0, if_neg r0]
  generalize block - d = b1 at e1
  by_cases h1 : b1 < addrsPerBlock
  · have hn : b1.toNat < addrsPerBlock.toNat := h1
    have r1 : block.toNat < d.toNat + 1018 := by omega
    rw [if_pos h1, if_pos r1, Option.map_some, List.map_cons, List.map_cons, List.map_nil, e1]
    rfl
  have e2 := sub_guarded h1
  have hn1 : addrsPerBlock.toNat ≤ b1.toNat := Nat.le_of_not_lt h1
  have r1 : ¬ block.toNat < d.toNat + 1018 := by omega
  rw [if_neg h1, if_neg r1]
  generalize b1 - addrsPerBlock = b2 at e2
  by_cases h2 : b2 < addrsPerBlock
  · have hn : b2.toNat < addrsPerBlock.toNat := h2
    have heq : b2.toNat = block.toNat - (d.toNat + 1018) := by omega
    have r2 : block.toNat < d.toNat + 2 * 1018 := by omega
    rw [if_pos h2, if_pos r2, Option.map_some, List.map_cons, List.map_cons, List.map_nil, heq]
    rfl
  have e3 := sub_guarded h2
  have hn2 : addrsPerBlock.toNat ≤ b2.toNat := Nat.le_of_not_lt h2
  have r2 : ¬ block.toNat < d.toNat + 2 * 1018 := by omega
  rw [if_neg h2, if_neg r2]
  generalize b2 - addrsPerBlock = b3 at e3
  by_cases h3 : b3 < addrsPerBlock * nidsPerBlock
  · have hn : b3.toNat < (addrsPerBlock * nidsPerBlock).toNat := h3
    have heq : b3.toNat = block.toNat - (d.toNat + 2 * 1018) := by omega
    have r3 : block.toNat < d.toNat + 2 * 1018 + 1018 * 1018 := by omega
    rw [if_pos h3, if_pos r3, Option.map_some, List.map_cons, List.map_cons, List.map_cons, List.map_nil,
      BitVec.toNat_udiv, BitVec.toNat_umod, hdir, heq]
    rfl
  have e4 := sub_guarded h3
  have hn3 : (addrsPerBlock * nidsPerBlock).toNat ≤ b3.toNat := Nat.le_of_not_lt h3
  have r3 : ¬ block.toNat < d.toNat + 2 * 1018 + 1018 * 1018 := by omega
  rw [if_neg h3, if_neg r3]
  generalize b3 - addrsPerBlock * nidsPerBlock = b4 at e4
  by_cases h4 : b4 < addrsPerBlock * nidsPerBlock
  · have hn : b4.toNat < (addrsPerBlock * nidsPerBlock).toNat := h4
    have heq : b4.toNat = block.toNat - (d.toNat + 2 * 1018 + 1018 * 1018) := by omega
    have r4 : block.toNat < d.toNat + 2 * 1018 + 2 * (1018 * 1018) := by omega
    rw [if_pos h4, if_pos r4, Option.map_some, List.map_cons, List.map_cons, List.map_cons, List.map_nil,
      BitVec.toNat_udiv, BitVec.toNat_umod, hdir, heq]
    rfl
  have e5 := sub_guarded h4
  have hn4 : (addrsPerBlock * nidsPerBlock).toNat ≤ b4.toNat := Nat.le_of_not_lt h4
  have r4 : ¬ block.toNat < d.toNat + 2 * 1018 + 2 * (1018 * 1018) := by omega
  rw [if_neg h4, if_neg r4]
  generalize b4 - addrsPerBlock * nidsPerBlock = b5 at e5
  have heq : b5.toNat = block.toNat - (d.toNat + 2 * 1018 + 2 * (1018 * 1018)) := by omega
  by_cases h5 : b5 < addrsPerBlock * nidsPerBlock * nidsPerBlock
  · have hn : b5.toNat < (addrsPerBlock * nidsPerBlock * nidsPerBlock).toNat := h5
    have r5 : block.toNat < d.toNat + 2 * 1018 + 2 * (1018 * 1018) + 1018 * 1018 * 1018 := by omega
    rw [if_pos h5, if_pos r5, Option.map_some, List.map_cons, List.map_cons, List.map_cons, List.map_cons, List.map_nil,
      BitVec.toNat_udiv, BitVec.toNat_umod, BitVec.toNat_umod, BitVec.toNat_udiv, hdir, hind, hnid, heq]
    rfl
  · have hn5 : (addrsPerBlock * nidsPerBlock * nidsPerBlock).toNat ≤ b5.toNat := Nat.le_of_not_lt h5
    have r5 : ¬ block.toNat < d.toNat + 2 * 1018 + 2 * (1018 * 1018) + 1018 * 1018 * 1018 := by omega
    rw [if_neg h5, if_neg r5]
    rfl

theorem position_inj (hd : d ≤ 924) (hp : Slot d p) (hq : Slot d q) (h : position d p = position d q) : p = q := by
  rcases lt_trichotomy p q with hlt | heq | hgt
  · exact absurd h (Nat.ne_of_lt (position_lt hd hp hq hlt))
  · exact heq
  · exact absurd h.symm (Nat.ne_of_lt (position_lt hd hq hp hgt))

theorem exactPath_position (hd : d ≤ 924) (hp : Slot d p) : exactPath d (position d p) = some p := by
  cases hx : exactPath d (position d p) with
  | none =>
    have hcap := exactPath_eq_none.mp hx
    unfold capacity at hcap
    cases hp <;> simp only [position_inode, position_direct, position_indirect, position_double] at hcap <;> omega
  | some q =>
    obtain ⟨hq, hpos⟩ := exactPath_slot hx
    rw [position_inj hd hq hp hpos]

theorem exactPath_mono (hd : d ≤ 924) (hp : exactPath d n = some p) (hq : exactPath d m = some q) (h : n < m) : p < q := by
  obtain ⟨hslot, hpos⟩ := exactPath_slot hp
  obtain ⟨hslot', hpos'⟩ := exactPath_slot hq
  rcases lt_trichotomy p q with hlt | heq | hgt
  · exact hlt
  · subst heq
    omega
  · have hback := position_lt hd hslot' hslot hgt
    omega

/-- The offsets number the slots of a file in the order of its blocks, up to the last, and the words that are computed hold
the exact numbers. -/
structure Numbers (inode : Mem) : Prop where
  ends : ∀ block, f2NodePath inode block = none ↔ capacity (directIndex inode).toNat ≤ block.toNat
  slot : ∀ block offs, f2NodePath inode block = some offs → Slot (directIndex inode).toNat (offs.map BitVec.toNat)
  rises : ∀ block block' offs offs', block < block' → f2NodePath inode block = some offs →
    f2NodePath inode block' = some offs' → offs.map BitVec.toNat < offs'.map BitVec.toNat
  apart : ∀ block block' offs, f2NodePath inode block = some offs → f2NodePath inode block' = some offs → block = block'
  every : ∀ p, Slot (directIndex inode).toNat p → ∃ block, (f2NodePath inode block).map (List.map BitVec.toNat) = some p
  exact : ∀ block, (f2NodePath inode block).map (List.map BitVec.toNat) = exactPath (directIndex inode).toNat block.toNat

theorem f2NodePath_numbers (inode : Mem) : Numbers inode := by
  have hd : (directIndex inode).toNat ≤ 924 := by
    rcases directIndex_cases inode with h | h <;> omega
  have hexact := f2NodePath_exact inode
  have hsome : ∀ {block offs}, f2NodePath inode block = some offs →
      exactPath (directIndex inode).toNat block.toNat = some (offs.map BitVec.toNat) := by
    intro block offs h
    rw [← hexact, h]
    rfl
  have hrises : ∀ block block' offs offs', block < block' → f2NodePath inode block = some offs →
      f2NodePath inode block' = some offs' → offs.map BitVec.toNat < offs'.map BitVec.toNat := by
    intro block block' offs offs' hlt h h'
    exact exactPath_mono hd (hsome h) (hsome h') hlt
  refine ⟨fun block => ?_, fun block offs h => (exactPath_slot (hsome h)).1, hrises, ?_, ?_, hexact⟩
  · rw [← exactPath_eq_none, ← hexact, Option.map_eq_none_iff]
  · intro block block' offs h h'
    rcases Nat.lt_trichotomy block.toNat block'.toNat with hlt | heq | hgt
    · exact absurd (hrises block block' offs offs hlt h h') (lt_irrefl _)
    · exact BitVec.eq_of_toNat_eq heq
    · exact absurd (hrises block' block offs offs hgt h' h) (lt_irrefl _)
  · intro p hp
    have hback := exactPath_position hd hp
    have hcap : position (directIndex inode).toNat p < 2 ^ 32 := by
      have hnot : ¬ capacity (directIndex inode).toNat ≤ position (directIndex inode).toNat p := by
        rw [← exactPath_eq_none, hback]
        exact fun h => nomatch h
      unfold capacity at hnot
      omega
    refine ⟨BitVec.ofNat 32 (position (directIndex inode).toNat p), ?_⟩
    rw [hexact, BitVec.toNat_ofNat, Nat.mod_eq_of_lt hcap, hback]

end Ezos.F2fs
