import Ezos.Ext4.Volume
import Ezos.Lib.KeyTree
import Ezos.Lib.Fanout

/-!
# What an inode maps, by the format, and what the driver finds of it

By the format an index record holds its child's address in bytes 4 to 7 with the high half in bytes 8 and 9, and a
length up to 32768 is that of an initialised extent. The driver takes the high half from bytes 6 and 7 and drops the
top bit of the length.
-/

namespace Ezos.Ext4

open Lib.Memory Lib.KeyTree Lib.Fanout

set_option autoImplicit false

structure Extent where
  block : Nat
  /-- The length as stored: above 32768 the extent is unwritten. -/
  raw : Nat
  start : Nat
deriving DecidableEq

def Extent.unwritten (e : Extent) : Bool := decide (32768 < e.raw)
def Extent.len (e : Extent) : Nat := if e.raw ≤ 32768 then e.raw else e.raw - 32768
def Extent.finish (e : Extent) : Nat := e.block + e.len

structure Index where
  block : Nat
  leaf : Nat
deriving DecidableEq

def extentAt (node : Mem) (i : Nat) : Extent where
  block := (read32 node (recAt i)).toNat
  raw := (read16 node (recAt i + 4)).toNat
  start := (read16 node (recAt i + 6)).toNat * 2 ^ 32 + (read32 node (recAt i + 8)).toNat

def indexAt (node : Mem) (i : Nat) : Index where
  block := (read32 node (recAt i)).toNat
  leaf := (read16 node (recAt i + 8)).toNat * 2 ^ 32 + (read32 node (recAt i + 4)).toNat

def entries (node : Mem) : Nat := (read16 node 2).toNat

def Vol.child (v : Vol) (ix : Index) : Mem := v.block (BitVec.ofNat 32 ix.leaf)

def decode (v : Vol) : (d : Nat) → Mem → Tree Index Extent d
  | 0, node => (List.range (entries node)).map (extentAt node)
  | d + 1, node => (List.range (entries node)).map fun i => (indexAt node i, decode v d (v.child (indexAt node i)))

def NodeOk (v : Vol) : Nat → Mem → Nat → Prop
  | 0, node, room => read16 node 0 = extMagic ∧ read16 node 6 = 0 ∧ recAt (entries node) ≤ room ∧
      ∀ i < entries node, 0 < (extentAt node i).start ∧ (extentAt node i).start + (extentAt node i).len ≤ 2 ^ 32
  | d + 1, node, room => read16 node 0 = extMagic ∧ (read16 node 6).toNat = d + 1 ∧ recAt (entries node) ≤ room ∧
      ∀ i < entries node, 0 < (indexAt node i).leaf ∧ (indexAt node i).leaf < 2 ^ 32 ∧
        NodeOk v d (v.child (indexAt node i)) v.blksize.toNat

structure ExtentTree (v : Vol) (ino : Mem) (d : Nat) : Prop where
  depth : d ≤ 5
  nodes : NodeOk v d (iBlock ino) 60
  order : Within Extent.block Extent.finish Index.block d 0 (2 ^ 32) (decode v d (iBlock ino))

def extentOf (v : Vol) (ino : Mem) (d l : Nat) : Option (List Index × Extent) :=
  lookup Extent.block Extent.finish d (decode v d (iBlock ino)) l

def extentByte (v : Vol) (ino : Mem) (d l k : Nat) : Byte :=
  match extentOf v ino d l with
  | none => 0
  | some r => if r.2.unwritten then 0 else v.block (BitVec.ofNat 32 (r.2.start + (l - r.2.block))) k

def Vol.fan (v : Vol) : Nat := v.blksize.toNat / 4

def Vol.pointer (v : Vol) (p : U32) (i : Nat) : U32 := read32 (v.block p) (i * 4)

def legacyBlocks (v : Vol) (ino : Mem) : List U32 :=
  ((List.range 12).map fun i => read32 (iBlock ino) (i * 4)) ++ expand v.fan v.pointer 0 1 (read32 (iBlock ino) 48) ++
    expand v.fan v.pointer 0 2 (read32 (iBlock ino) 52) ++ expand v.fan v.pointer 0 3 (read32 (iBlock ino) 56)

def legacyByte (v : Vol) (ino : Mem) (l k : Nat) : Byte :=
  let p := (legacyBlocks v ino).getD l 0
  if p = 0 then 0 else v.block p k

theorem toNat_wide (x : U32) : (wide x).toNat = x.toNat :=
  BitVec.toNat_setWidth_of_le (by omega)

theorem toNat_halves (lo : U32) (hi : U16) :
    (wide lo ||| (hi.setWidth 64 <<< 32)).toNat = hi.toNat * 2 ^ 32 + lo.toNat := by
  have hhi : (hi.setWidth 64).toNat = hi.toNat := BitVec.toNat_setWidth_of_le (by omega)
  have hmod : (hi.toNat <<< 32) % 2 ^ 64 = hi.toNat * 2 ^ 32 := by
    rw [Nat.shiftLeft_eq]
    exact Nat.mod_eq_of_lt (by have := hi.isLt; omega)
  rw [BitVec.toNat_or, BitVec.toNat_shiftLeft, hhi, hmod, toNat_wide, Nat.or_comm, Nat.mul_comm,
    ← Nat.two_pow_add_eq_or_of_lt lo.isLt]

theorem toNat_upper (m : Mem) (a : Nat) : (read16 m (a + 2)).toNat = (read32 m a).toNat / 65536 := by
  have heq : read32 m a = read16 m (a + 2) ++ read16 m a := by
    unfold read32 read16
    apply BitVec.eq_of_getLsbD_eq
    intro i hi
    simp only [BitVec.getLsbD_append]
    by_cases h8 : i < 8
    · simp [h8, show i < 16 by omega]
    · by_cases h16 : i < 16
      · simp [h8, h16, show i - 8 < 8 by omega]
      · by_cases h24 : i - 8 - 8 < 8
        · simp [h8, h16, show ¬ i - 8 < 8 by omega, show i - 16 < 8 by omega, show i - 8 - 8 = i - 16 by omega]
        · simp [h8, h16, show ¬ i - 8 < 8 by omega, show ¬ i - 16 < 8 by omega, show i - 8 - 8 = i - 16 by omega]
  have hlo := (read16 m a).isLt
  rw [heq, BitVec.toNat_append, Nat.shiftLeft_eq, Nat.mul_comm, ← Nat.two_pow_add_eq_or_of_lt hlo]
  omega

def misread (leaf : Nat) : Nat := leaf / 65536 * 2 ^ 32 + leaf

def Index.far (ix : Index) : Bool := decide (65536 ≤ ix.leaf)

theorem indexAt_low {node : Mem} {i : Nat} (h : (indexAt node i).leaf < 2 ^ 32) :
    (indexAt node i).leaf = (read32 node (recAt i + 4)).toNat := by
  unfold indexAt at h ⊢
  dsimp only at h ⊢
  have := (read32 node (recAt i + 4)).isLt
  omega

theorem indexChild_nat {node : Mem} {i : Nat} (h : (indexAt node i).leaf < 2 ^ 32) :
    (indexChild node i).toNat = misread (indexAt node i).leaf := by
  have hupper : (read16 node (recAt i + 6)).toNat = (read32 node (recAt i + 4)).toNat / 65536 :=
    toNat_upper node (recAt i + 4)
  have hlow := indexAt_low h
  rw [hlow, misread, ← hupper]
  exact toNat_halves _ _

theorem e4Child_eq {node : Mem} {lblk : U32} {d : Nat} (sub : Nat → Tree Index Extent d) (n i : Nat)
    (hok : ∀ j, j < i + n → (indexAt node j).leaf < 2 ^ 32) (child : U64) (best : Option (Index × Tree Index Extent d))
    (hbest : child.toNat = (best.map fun c => misread c.1.leaf).getD 0) :
    (e4Child node lblk n i child).toNat =
      ((pick Index.block lblk.toNat ((List.range' i n).map fun j => (indexAt node j, sub j)) best).map
        fun c => misread c.1.leaf).getD 0 := by
  induction n generalizing i child best with
  | zero => exact hbest
  | succ n ih =>
    have hmap : (List.range' i (n + 1)).map (fun j => (indexAt node j, sub j)) =
        (indexAt node i, sub i) :: (List.range' (i + 1) n).map fun j => (indexAt node j, sub j) := rfl
    rw [hmap, e4Child, pick]
    by_cases hle : read32 node (recAt i) ≤ lblk
    · have hkey : (indexAt node i).block ≤ lblk.toNat := BitVec.le_def.mp hle
      have hnext : (indexChild node i).toNat =
          ((some (indexAt node i, sub i)).map fun c => misread c.1.leaf).getD 0 := by
        rw [Option.map_some, Option.getD_some]
        exact indexChild_nat (hok i (by omega))
      rw [if_pos hle, if_pos hkey]
      exact ih (i + 1) (fun j hj => hok j (by omega)) _ _ hnext
    · have hkey : ¬ (indexAt node i).block ≤ lblk.toNat := fun h => hle (BitVec.le_def.mpr h)
      rw [if_neg hle, if_neg hkey]
      exact hbest

theorem toNat_extLen (l : U16) : (extLen l).toNat = l.toNat % 32768 := by
  have hmask : (0x7FFF : U32).toNat = 2 ^ 15 - 1 := rfl
  rw [extLen, BitVec.toNat_and, hmask, Nat.and_two_pow_sub_one_eq_mod, BitVec.toNat_setWidth_of_le (by omega)]

theorem Extent.seen (e : Extent) (h : e.raw < 65536) : e.raw % 32768 = if e.raw = 32768 then 0 else e.len := by
  unfold Extent.len
  split
  · omega
  · split <;> omega

def Extent.hit (l : Nat) (e : Extent) : Bool := decide (Covers Extent.block Extent.finish l e) && decide (e.raw ≠ 32768)

theorem extentAt_raw (node : Mem) (i : Nat) : (extentAt node i).raw < 65536 := (read16 node (recAt i + 4)).isLt

theorem leafHit_eq {lblk : U32} (hl : lblk.toNat < 2 ^ 31) (node : Mem) (i : Nat) :
    leafHit node lblk i = (extentAt node i).hit lblk.toNat := by
  have hseen := (extentAt node i).seen (extentAt_raw node i)
  have hlen : (extLen (read16 node (recAt i + 4))).toNat = (extentAt node i).raw % 32768 := toNat_extLen _
  have hsmall : (extentAt node i).raw % 32768 < 32768 := Nat.mod_lt _ (by omega)
  have hzero : extLen (read16 node (recAt i + 4)) = 0 ↔ (extentAt node i).raw % 32768 = 0 := by
    rw [eq_zero_iff, hlen]
  have hfinish : (extentAt node i).finish = (extentAt node i).block + (extentAt node i).len := rfl
  have hblock : (extentAt node i).block = (read32 node (recAt i)).toNat := rfl
  apply Bool.eq_iff_iff.mpr
  unfold leafHit Extent.hit Covers
  simp only [Bool.and_eq_true, decide_eq_true_eq, bne_iff_ne, ne_eq, BitVec.le_def, BitVec.lt_def, BitVec.toNat_add, hlen,
    hzero, hfinish, ← hblock]
  constructor
  · intro h
    obtain ⟨⟨hlo, hhi⟩, hne⟩ := h
    rw [Nat.mod_eq_of_lt (by omega)] at hhi
    split at hseen
    · omega
    · exact ⟨⟨hlo, by omega⟩, by assumption⟩
  · intro h
    obtain ⟨⟨hlo, hhi⟩, hne⟩ := h
    rw [if_neg hne] at hseen
    rw [Nat.mod_eq_of_lt (by omega)]
    exact ⟨⟨hlo, by omega⟩, by omega⟩

theorem leafBlock_eq {node : Mem} {lblk : U32} {i : Nat} (hcov : Covers Extent.block Extent.finish lblk.toNat (extentAt node i))
    (hend : (extentAt node i).start + (extentAt node i).len ≤ 2 ^ 32) :
    (leafBlock node lblk i).toNat = (extentAt node i).start + (lblk.toNat - (extentAt node i).block) := by
  have hlo : (read32 node (recAt i)).toNat ≤ lblk.toNat := hcov.1
  have hhi : lblk.toNat < (extentAt node i).block + (extentAt node i).len := hcov.2
  have hblock : (extentAt node i).block = (read32 node (recAt i)).toNat := rfl
  have hstart : (extentAt node i).start =
      (read16 node (recAt i + 6)).toNat * 2 ^ 32 + (read32 node (recAt i + 8)).toNat := rfl
  have hoff : (lblk - read32 node (recAt i)).toNat = lblk.toNat - (read32 node (recAt i)).toNat :=
    BitVec.toNat_sub_of_le (BitVec.le_def.mpr hlo)
  rw [leafBlock, BitVec.toNat_setWidth, BitVec.toNat_add, toNat_halves, toNat_wide, hoff, ← hstart, hblock]
  omega

/-! ## The descent -/

def driverBlock (l : Nat) : Option (List Index × Extent) → Nat
  | none => 0
  | some r => if r.1.any Index.far ∨ r.2.raw = 32768 then 0 else r.2.start + (l - r.2.block)

theorem entries_fit {node : Mem} {room : U32} (h : recAt (entries node) ≤ room.toNat) (hne : entries node ≠ 0) :
    ¬ room ≤ 12 ∧ (if (room - 12) / 12 < (read16 node 2).setWidth 32 then (room - 12) / 12
      else (read16 node 2).setWidth 32 : U32).toNat = entries node := by
  have h12 : (12 : U32).toNat = 12 := rfl
  have hcount : ((read16 node 2).setWidth 32 : U32).toNat = entries node := BitVec.toNat_setWidth_of_le (by omega)
  unfold recAt at h
  have hroom : ¬ room ≤ 12 := by
    rw [BitVec.le_def, h12]
    omega
  refine ⟨hroom, ?_⟩
  have hsub : (room - 12).toNat = room.toNat - 12 := BitVec.toNat_sub_of_le (BitVec.le_def.mpr (by rw [h12]; omega))
  have hcap : ((room - 12) / 12).toNat = (room.toNat - 12) / 12 := by rw [BitVec.toNat_udiv, hsub, h12]
  rw [if_neg, hcount]
  rw [BitVec.lt_def, hcap, hcount]
  omega

theorem lookup_leaf (items : List Extent) (x : Nat) :
    @lookup Index Extent Extent.block Extent.finish 0 items x =
      (items.find? fun e => decide (Covers Extent.block Extent.finish x e)).map fun e => ([], e) := by
  rw [lookup, reached, List.find?_map]
  rfl

theorem driverBlock_cons {c : Index} (l : Nat) (r : Option (List Index × Extent)) :
    driverBlock l (r.map fun s => (c :: s.1, s.2)) = if c.far then 0 else driverBlock l r := by
  cases r with
  | none => exact (ite_self 0).symm
  | some s =>
    rw [Option.map_some]
    unfold driverBlock
    dsimp only
    rw [List.any_cons]
    cases hfar : c.far with
    | false => simp
    | true => simp

section Leaf

variable {v : Vol} {node : Mem} {lblk : U32}

theorem hit_covers {l : Nat} {e : Extent} (h : e.hit l = true) : Covers Extent.block Extent.finish l e ∧ e.raw ≠ 32768 := by
  have hboth := Bool.and_eq_true_iff.mp h
  exact ⟨of_decide_eq_true hboth.1, of_decide_eq_true hboth.2⟩

theorem leaf_eq (hl : lblk.toNat < 2 ^ 31) {lo hi room : Nat} (hok : NodeOk v 0 node room)
    (hin : Within Extent.block Extent.finish Index.block 0 lo hi (decode v 0 node)) :
    (leafFind node lblk (entries node)).toNat =
      driverBlock lblk.toNat (lookup Extent.block Extent.finish 0 (decode v 0 node) lblk.toNat) := by
  have hspaced : Spaced Extent.block Extent.finish lo hi ((List.range (entries node)).map (extentAt node)) := hin
  have hhits : leafHit node lblk = (Extent.hit lblk.toNat) ∘ extentAt node := funext fun i => leafHit_eq hl node i
  have hnarrow : ((List.range (entries node)).map (extentAt node)).find? (Extent.hit lblk.toNat) =
      (((List.range (entries node)).map (extentAt node)).find?
        fun e => decide (Covers Extent.block Extent.finish lblk.toNat e)).filter (Extent.hit lblk.toNat) := by
    apply find?_narrow
    · intro e _ he
      exact decide_eq_true (hit_covers he).1
    · intro a ha b hb hca hcb
      exact hspaced.unique a ha b hb (of_decide_eq_true hca) (of_decide_eq_true hcb)
  have hleaf : lookup Extent.block Extent.finish 0 (decode v 0 node) lblk.toNat =
      (((List.range (entries node)).map (extentAt node)).find?
        fun e => decide (Covers Extent.block Extent.finish lblk.toNat e)).map fun e => ([], e) := lookup_leaf _ _
  rw [List.find?_map, ← hhits] at hnarrow
  rw [hleaf, leafFind]
  generalize hspec : ((List.range (entries node)).map (extentAt node)).find?
    (fun e => decide (Covers Extent.block Extent.finish lblk.toNat e)) = found at hnarrow ⊢
  cases hcode : (List.range (entries node)).find? (leafHit node lblk) with
  | none =>
    rw [hcode, Option.map_none] at hnarrow
    cases found with
    | none => rfl
    | some e =>
      have hdec := List.find?_some hspec
      have hcov := of_decide_eq_true hdec
      have hfull : e.raw = 32768 := by
        apply Classical.byContradiction
        intro hne
        have hhit : e.hit lblk.toNat = true := Bool.and_eq_true_iff.mpr ⟨decide_eq_true hcov, decide_eq_true hne⟩
        rw [Option.filter_some_pos hhit] at hnarrow
        cases hnarrow
      exact (if_pos (Or.inr hfull)).symm
  | some i =>
    rw [hcode, Option.map_some] at hnarrow
    cases found with
    | none => cases hnarrow
    | some e =>
      have hhit : e.hit lblk.toNat = true := by
        apply Classical.byContradiction
        intro hne
        rw [Option.filter_some_neg (Bool.eq_false_iff.mpr hne)] at hnarrow
        cases hnarrow
      rw [Option.filter_some_pos hhit] at hnarrow
      injection hnarrow with he
      subst he
      have hi := List.mem_range.mp (List.mem_of_find?_eq_some hcode)
      have hnone : ¬ (([] : List Index).any Index.far = true ∨ (extentAt node i).raw = 32768) := by
        intro h
        rcases h with h | h
        · cases h
        · exact (hit_covers hhit).2 h
      rw [Option.map_some, driverBlock, if_neg hnone]
      exact leafBlock_eq (hit_covers hhit).1 (hok.2.2.2 i hi).2

end Leaf

theorem mapExtentFrom_empty {v : Vol} {lblk : U32} {node : Mem} {room : U32} (h : entries node = 0) (fuel : Nat) :
    mapExtentFrom v lblk fuel node room = 0 := by
  have hcount : ((read16 node 2).setWidth 32 : U32) = 0 :=
    (eq_zero_iff _).mpr ((BitVec.toNat_setWidth_of_le (by omega)).trans h)
  have hnot : ¬ (room - 12) / 12 < (0 : U32) := fun hlt => Nat.not_lt_zero _ (BitVec.lt_def.mp hlt)
  cases fuel with
  | zero => rfl
  | succ f =>
    rw [mapExtentFrom, hcount]
    dsimp only
    rw [if_neg hnot, if_pos rfl, ite_self, ite_self]

theorem mapExtentFrom_eq (v : Vol) {lblk : U32} (hl : lblk.toNat < 2 ^ 31) {d : Nat} :
    ∀ {fuel : Nat} {node : Mem} {room : U32} {lo hi : Nat}, d < fuel → NodeOk v d node room.toNat →
      Within Extent.block Extent.finish Index.block d lo hi (decode v d node) →
      (mapExtentFrom v lblk fuel node room).toNat =
        driverBlock lblk.toNat (lookup Extent.block Extent.finish d (decode v d node) lblk.toNat) := by
  induction d with
  | zero =>
    intro fuel node room lo hi hfuel hok hin
    obtain ⟨f, rfl⟩ : ∃ f, fuel = f + 1 := ⟨fuel - 1, by omega⟩
    have hleaf := leaf_eq hl hok hin
    obtain ⟨hmagic, hdepth, hfit, hrecs⟩ := hok
    rw [← hleaf]
    by_cases hne : entries node = 0
    · rw [mapExtentFrom_empty hne, hne]
      rfl
    · obtain ⟨hroom, hn⟩ := entries_fit hfit hne
      have hnz : ¬ (if (room - 12) / 12 < (read16 node 2).setWidth 32 then (room - 12) / 12
          else (read16 node 2).setWidth 32 : U32) = 0 := fun h0 => hne (by rw [← hn, h0]; rfl)
      rw [mapExtentFrom, if_neg (not_not_intro hmagic), if_neg hroom]
      dsimp only
      rw [if_neg hnz, if_pos hdepth, hn]
  | succ d ih =>
    intro fuel node room lo hi hfuel hok hin
    obtain ⟨f, rfl⟩ : ∃ f, fuel = f + 1 := ⟨fuel - 1, by omega⟩
    obtain ⟨hmagic, hdepth, hfit, hkids⟩ := hok
    rw [hin.lookup_pick lblk.toNat]
    by_cases hne : entries node = 0
    · have hnil : decode v (d + 1) node = [] := by rw [decode, hne]; rfl
      rw [mapExtentFrom_empty hne, hnil]
      rfl
    · obtain ⟨hroom, hn⟩ := entries_fit hfit hne
      have hnz : ¬ (if (room - 12) / 12 < (read16 node 2).setWidth 32 then (room - 12) / 12
          else (read16 node 2).setWidth 32 : U32) = 0 := fun h0 => hne (by rw [← hn, h0]; rfl)
      have hinner : ¬ read16 node 6 = 0 := by
        intro h0
        rw [h0] at hdepth
        exact absurd hdepth (Nat.succ_ne_zero d).symm
      have hchild := @e4Child_eq node lblk d (fun i => decode v d (v.child (indexAt node i))) (entries node) 0
        (fun j hj => (hkids j (by omega)).2.1) 0 none rfl
      rw [← List.range_eq_range'] at hchild
      rw [mapExtentFrom, if_neg (not_not_intro hmagic), if_neg hroom]
      dsimp only
      rw [if_neg hnz, if_neg hinner, hn]
      generalize hc : e4Child node lblk (entries node) 0 0 = child at hchild ⊢
      have hlist : decode v (d + 1) node =
          (List.range (entries node)).map fun i => (indexAt node i, decode v d (v.child (indexAt node i))) := rfl
      rw [← hlist] at hchild
      cases hpick : pick Index.block lblk.toNat (decode v (d + 1) node) none with
      | none =>
        rw [hpick] at hchild
        rw [if_pos (Or.inl (BitVec.eq_of_toNat_eq hchild))]
        rfl
      | some c =>
        rw [hpick, Option.map_some, Option.getD_some] at hchild
        have hmem := pick_mem hpick
        obtain ⟨m, n, hinside⟩ := Split.inside hin hmem
        rw [hlist] at hmem
        obtain ⟨i, hi, rfl⟩ := List.mem_map.mp hmem
        obtain ⟨hpos, hsmall, hsub⟩ := hkids i (List.mem_range.mp hi)
        dsimp only at hchild hinside ⊢
        rw [Option.bind_some, driverBlock_cons]
        unfold misread at hchild
        by_cases hfar : 65536 ≤ (indexAt node i).leaf
        · have hmax : (0xFFFFFFFF : U64).toNat = 4294967295 := rfl
          have hlost : (indexAt node i).far = true := decide_eq_true hfar
          rw [if_pos (Or.inr (BitVec.lt_def.mpr (by rw [hmax]; omega))), if_pos hlost]
          rfl
        · have hne0 : ¬ (child = 0 ∨ 0xFFFFFFFF < child) := by
            have hmax : (0xFFFFFFFF : U64).toNat = 4294967295 := rfl
            intro h
            rcases h with h | h
            · rw [h] at hchild
              have hz : (0 : U64).toNat = 0 := rfl
              omega
            · have hlt := BitVec.lt_def.mp h
              omega
          have hsame : child.setWidth 32 = BitVec.ofNat 32 (indexAt node i).leaf := by
            apply BitVec.eq_of_toNat_eq
            rw [BitVec.toNat_setWidth, BitVec.toNat_ofNat]
            omega
          have hnear : ¬ (indexAt node i).far = true := fun h => hfar (of_decide_eq_true h)
          rw [if_neg hne0, if_neg hnear, hsame]
          exact ih (by omega) hsub hinside

section Legacy

variable {v : Vol} (g : Geometry v)
include g

theorem Geometry.fan_nat : (v.blksize / 4).toNat = v.fan ∧ 256 ≤ v.fan ∧ v.fan ≤ 1024 := by
  have h4 : (4 : U32).toNat = 4 := rfl
  have hsize := g.size_nat
  refine ⟨by rw [BitVec.toNat_udiv, h4]; rfl, ?_⟩
  unfold Vol.fan
  omega

theorem e4MapLegacy_eq (ino : Mem) {lblk : U32} (hl : lblk.toNat < 2 ^ 22) :
    e4MapLegacy v ino lblk = (legacyBlocks v ino).getD lblk.toNat 0 := by
  obtain ⟨hper, hmin, hmax⟩ := g.fan_nat
  have h12 : (12 : U32).toNat = 12 := rfl
  have hsq : v.fan * v.fan ≤ 1024 * 1024 := Nat.mul_le_mul hmax hmax
  have hcube : 65536 * 256 ≤ v.fan * v.fan * v.fan := Nat.mul_le_mul (Nat.mul_le_mul hmin hmin) hmin
  have hsquare : (v.blksize / 4 * (v.blksize / 4)).toNat = v.fan * v.fan := by
    rw [BitVec.toNat_mul, hper]
    exact Nat.mod_eq_of_lt (by omega)
  have hdirect : ((List.range 12).map fun i => read32 (iBlock ino) (i * 4)).length = 12 := by simp
  have hlen1 : (expand v.fan v.pointer 0 1 (read32 (iBlock ino) 48)).length = v.fan := by
    rw [length_expand, Nat.pow_one]
  have hlen2 : (expand v.fan v.pointer 0 2 (read32 (iBlock ino) 52)).length = v.fan * v.fan := by
    rw [length_expand, Nat.pow_two]
  unfold e4MapLegacy legacyBlocks
  dsimp only
  by_cases hd : lblk < 12
  · have hlt : lblk.toNat < 12 := BitVec.lt_def.mp hd
    rw [if_pos hd, List.getD_append _ _ _ _ (by simp only [List.length_append, hdirect]; omega),
      List.getD_append _ _ _ _ (by simp only [List.length_append, hdirect]; omega),
      List.getD_append _ _ _ _ (by rw [hdirect]; exact hlt), List.getD_eq_getElem?_getD, List.getElem?_map,
      List.getElem?_range hlt]
    rfl
  · have hge : 12 ≤ lblk.toNat := Nat.le_of_not_lt fun h => hd (BitVec.lt_def.mpr h)
    have hsub : (lblk - 12).toNat = lblk.toNat - 12 := BitVec.toNat_sub_of_le (BitVec.le_def.mpr (by rw [h12]; exact hge))
    rw [if_neg hd]
    generalize hx : lblk - 12 = x at hsub ⊢
    by_cases h1 : x < v.blksize / 4
    · have h1' := BitVec.lt_def.mp h1
      rw [hper] at h1'
      rw [if_pos h1, List.getD_append _ _ _ _ (by simp only [List.length_append, hdirect, hlen1]; omega),
        List.getD_append _ _ _ _ (by simp only [List.length_append, hdirect, hlen1]; omega),
        List.getD_append_right _ _ _ _ (by omega), hdirect, ← hsub, expand_one _ h1']
      rfl
    · have hge1 : v.fan ≤ x.toNat := by
        rw [← hper]
        exact Nat.le_of_not_lt fun h => h1 (BitVec.lt_def.mpr h)
      have hsub1 : (x - v.blksize / 4).toNat = x.toNat - v.fan := by
        rw [BitVec.toNat_sub_of_le (BitVec.le_def.mpr (by rw [hper]; exact hge1)), hper]
      rw [if_neg h1]
      generalize hy : x - v.blksize / 4 = y at hsub1 ⊢
      have hdiv : (y / (v.blksize / 4)).toNat = y.toNat / v.fan := by rw [BitVec.toNat_udiv, hper]
      have hmod : (y % (v.blksize / 4)).toNat = y.toNat % v.fan := by rw [BitVec.toNat_umod, hper]
      by_cases h2 : y < v.blksize / 4 * (v.blksize / 4)
      · have h2' := BitVec.lt_def.mp h2
        rw [hsquare] at h2'
        have hpos : lblk.toNat - 12 - v.fan = y.toNat := by omega
        rw [if_pos h2, List.getD_append _ _ _ _ (by simp only [List.length_append, hdirect, hlen1, hlen2]; omega),
          List.getD_append_right _ _ _ _ (by simp only [List.length_append, hdirect, hlen1]; omega)]
        simp only [List.length_append, hdirect, hlen1]
        rw [← Nat.sub_sub, hpos, expand_two _ h2']
        simp only [Vol.word, Vol.pointer, hdiv, hmod]
        rfl
      · have hge2 : v.fan * v.fan ≤ y.toNat := by
          rw [← hsquare]
          exact Nat.le_of_not_lt fun h => h2 (BitVec.lt_def.mpr h)
        have hsub2 : (y - v.blksize / 4 * (v.blksize / 4)).toNat = y.toNat - v.fan * v.fan := by
          rw [BitVec.toNat_sub_of_le (BitVec.le_def.mpr (by rw [hsquare]; exact hge2)), hsquare]
        rw [if_neg h2]
        generalize hz : y - v.blksize / 4 * (v.blksize / 4) = z at hsub2 ⊢
        have hpos : lblk.toNat - 12 - v.fan - v.fan * v.fan = z.toNat := by omega
        have h3 : z.toNat < v.fan * v.fan * v.fan := by omega
        have hdiv1 : (z / (v.blksize / 4)).toNat = z.toNat / v.fan := by rw [BitVec.toNat_udiv, hper]
        have hdiv2 : (z / (v.blksize / 4) / (v.blksize / 4)).toNat = z.toNat / v.fan / v.fan := by
          rw [BitVec.toNat_udiv, hdiv1, hper]
        have hmod1 : (z / (v.blksize / 4) % (v.blksize / 4)).toNat = z.toNat / v.fan % v.fan := by
          rw [BitVec.toNat_umod, hdiv1, hper]
        have hmod0 : (z % (v.blksize / 4)).toNat = z.toNat % v.fan := by rw [BitVec.toNat_umod, hper]
        rw [List.getD_append_right _ _ _ _ (by simp only [List.length_append, hdirect, hlen1, hlen2]; omega)]
        simp only [List.length_append, hdirect, hlen1, hlen2]
        rw [← Nat.sub_sub, ← Nat.sub_sub, hpos, expand_three _ h3]
        simp only [Vol.word, Vol.pointer, hdiv2, hmod1, hmod0]
        rfl

end Legacy

def lost (r : List Index × Extent) : Bool := r.1.any Index.far || decide (r.2.raw = 32768)

def Extent.blockOf (e : Extent) (l : Nat) : U32 := BitVec.ofNat 32 (e.start + (l - e.block))

theorem lost_iff (r : List Index × Extent) : lost r = true ↔ r.1.any Index.far = true ∨ r.2.raw = 32768 := by
  rw [lost, Bool.or_eq_true_iff, decide_eq_true_eq]

theorem nodeOk_addresses {v : Vol} {d : Nat} : ∀ {node : Mem} {room : Nat}, NodeOk v d node room →
    ∀ r ∈ reached d (decode v d node), 0 < r.2.start ∧ r.2.start + r.2.len ≤ 2 ^ 32 := by
  induction d with
  | zero =>
    intro node room h r hr
    obtain ⟨e, he, rfl⟩ := List.mem_map.mp hr
    obtain ⟨i, hi, rfl⟩ := List.mem_map.mp he
    exact h.2.2.2 i (List.mem_range.mp hi)
  | succ d ih =>
    intro node room h r hr
    obtain ⟨c, hc, hr⟩ := List.mem_flatMap.mp hr
    obtain ⟨i, hi, rfl⟩ := List.mem_map.mp hc
    obtain ⟨s, hs, rfl⟩ := List.mem_map.mp hr
    exact ih (h.2.2.2 i (List.mem_range.mp hi)).2.2 s hs

section Found

variable {v : Vol} {ino : Mem} {d : Nat} (ht : ExtentTree v ino d) {lblk : U32}
include ht

theorem e4MapExtent_nat (hl : lblk.toNat < 2 ^ 22) :
    (e4MapExtent v ino lblk).toNat = driverBlock lblk.toNat (extentOf v ino d lblk.toNat) := by
  have hdepth := ht.depth
  exact mapExtentFrom_eq v (by omega) (by omega) ht.nodes ht.order

theorem e4MapExtent_none (hl : lblk.toNat < 2 ^ 22) (hr : extentOf v ino d lblk.toNat = none) :
    e4MapExtent v ino lblk = 0 := by
  have hmap := e4MapExtent_nat ht hl
  rw [hr] at hmap
  exact (eq_zero_iff _).mpr hmap

theorem blockOf_nat {r : List Index × Extent} {l : Nat} (hr : extentOf v ino d l = some r) :
    (r.2.blockOf l).toNat = r.2.start + (l - r.2.block) ∧ r.2.blockOf l ≠ 0 := by
  have haddr := nodeOk_addresses ht.nodes r (List.mem_of_find?_eq_some hr)
  have hcov := List.find?_some hr
  have hcov := of_decide_eq_true hcov
  have hlo : r.2.block ≤ l := hcov.1
  have hhi : l < r.2.block + r.2.len := hcov.2
  have hnat : (r.2.blockOf l).toNat = r.2.start + (l - r.2.block) := by
    rw [Extent.blockOf, BitVec.toNat_ofNat, Nat.mod_eq_of_lt (by omega)]
  refine ⟨hnat, fun h0 => ?_⟩
  rw [eq_zero_iff, hnat] at h0
  omega

theorem e4MapExtent_some (hl : lblk.toNat < 2 ^ 22) {r : List Index × Extent}
    (hr : extentOf v ino d lblk.toNat = some r) :
    e4MapExtent v ino lblk = if lost r then 0 else r.2.blockOf lblk.toNat := by
  have hmap := e4MapExtent_nat ht hl
  rw [hr, driverBlock] at hmap
  apply BitVec.eq_of_toNat_eq
  by_cases hlost : lost r = true
  · rw [if_pos hlost, hmap, if_pos ((lost_iff r).mp hlost)]
    rfl
  · rw [if_neg hlost, hmap, if_neg fun h => hlost ((lost_iff r).mpr h), (blockOf_nat ht hr).1]

end Found

end Ezos.Ext4
