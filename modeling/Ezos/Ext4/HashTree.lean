import Ezos.Ext4.Dirs
import Ezos.Ext4.ReadFile
import Mathlib.Data.List.Perm.Basic

/-!
# Indexed directories

By the format the root of the tree says at byte 30 how many levels of inner nodes there are, and records hold logical
block numbers. The driver takes the number of levels from byte 27, so the root is always its lowest level, and uses
what the records hold as numbers of blocks of the volume.
-/

namespace Ezos.Ext4

open Lib.Memory Lib.KeyTree Lib.Fanout

set_option autoImplicit false

def formatBlock (v : Vol) (ino : Mem) (d l : Nat) : U32 :=
  if hasFlag ino extentsFl then
    match extentOf v ino d l with
    | none => 0
    | some r => if r.2.unwritten then 0 else r.2.blockOf l
  else (legacyBlocks v ino).getD l 0

def lostBlock (v : Vol) (ino : Mem) (d l : Nat) : Bool := hasFlag ino extentsFl && ((extentOf v ino d l).any lost)

theorem e4MapBlock_eq {v : Vol} (g : Geometry v) {ino : Mem} {d : Nat}
    (ht : hasFlag ino extentsFl = true → ExtentTree v ino d) {lblk : U32} (hl : lblk.toNat < 2 ^ 22)
    (hmapped : formatBlock v ino d lblk.toNat ≠ 0) :
    e4MapBlock v ino lblk = if lostBlock v ino d lblk.toNat then 0 else formatBlock v ino d lblk.toNat := by
  unfold e4MapBlock
  unfold formatBlock at hmapped ⊢
  unfold lostBlock
  cases hflag : hasFlag ino extentsFl with
  | false => exact e4MapLegacy_eq g ino hl
  | true =>
    rw [hflag] at hmapped
    simp only [if_true, Bool.true_and] at hmapped ⊢
    cases hfound : extentOf v ino d lblk.toNat with
    | none =>
      rw [hfound] at hmapped
      exact absurd rfl hmapped
    | some r =>
      rw [hfound] at hmapped
      dsimp only at hmapped ⊢
      have hwritten : r.2.unwritten = false := by
        cases hu : r.2.unwritten with
        | false => rfl
        | true =>
          rw [hu] at hmapped
          exact absurd rfl hmapped
      rw [e4MapExtent_some (ht hflag) hl hfound, hwritten, Option.any_some]
      rfl

def dxBase (isRoot : Bool) : Nat := if isRoot then 32 else 8

def dxUsed (buf : Mem) (isRoot : Bool) : Nat := (read16 buf (dxBase isRoot + 2)).toNat

def dxNumbers (buf : Mem) (isRoot : Bool) : List Nat :=
  (List.range (dxUsed buf isRoot)).map fun i => (read32 buf (dxBase isRoot + 4 + i * 8)).toNat

def dxLeafBlocks (v : Vol) (map : Nat → U32) : Nat → Bool → Nat → List Nat
  | 0, isRoot, l => dxNumbers (v.block (map l)) isRoot
  | n + 1, isRoot, l => (dxNumbers (v.block (map l)) isRoot).flatMap (dxLeafBlocks v map n false)

def dxInner (v : Vol) (map : Nat → U32) : Nat → Bool → Nat → List Nat
  | 0, _, l => [l]
  | n + 1, isRoot, l => l :: (dxNumbers (v.block (map l)) isRoot).flatMap (dxInner v map n false)

structure DxRoot (v : Vol) (buf : Mem) : Prop where
  dotLen : (read16 buf 4).toNat = 12
  dotNameLen : buf 6 = 1
  dotChar : buf 8 = dot
  dotdotLen : (read16 buf 16).toNat = v.blksize.toNat - 12
  dotdotNameLen : buf 18 = 2
  dotdotChar : buf 20 = dot
  dotdotChar2 : buf 21 = dot
  reserved : read32 buf 24 = 0
  fits : 32 + dxUsed buf true * 8 ≤ v.blksize.toNat

structure DxNode (v : Vol) (buf : Mem) : Prop where
  unused : read32 buf 0 = 0
  whole : (read16 buf 4).toNat = v.blksize.toNat
  fits : 8 + dxUsed buf false * 8 ≤ v.blksize.toNat

def dxLevels (buf : Mem) : Nat := (buf 30).toNat

def dirBlocks (v : Vol) (dino : Mem) : Nat := (e4InoSizeOf dino).toNat / v.blksize.toNat

structure HashTree (v : Vol) (dino : Mem) (d : Nat) : Prop where
  isDir : e4InoIsDir dino = true
  plain : hasFlag dino inlineDataFl = false
  indexed : hasFlag dino indexFl = true
  extents : hasFlag dino extentsFl = true → ExtentTree v dino d
  nonempty : 0 < dirBlocks v dino
  whole : (e4InoSizeOf dino).toNat % v.blksize.toNat = 0
  mapped : ∀ l < dirBlocks v dino, formatBlock v dino d l ≠ 0
  root : DxRoot v (v.block (formatBlock v dino d 0))
  nodes : ∀ l ∈ dxInner v (formatBlock v dino d) (dxLevels (v.block (formatBlock v dino d 0))) true 0, l ≠ 0 →
    DxNode v (v.block (formatBlock v dino d l))
  covers : (dxInner v (formatBlock v dino d) (dxLevels (v.block (formatBlock v dino d 0))) true 0 ++
    dxLeafBlocks v (formatBlock v dino d) (dxLevels (v.block (formatBlock v dino d 0))) true 0).Perm
      (List.range (dirBlocks v dino))

def entriesOf (v : Vol) (dino : Mem) (d : Nat) (ls : List Nat) : List Dirent :=
  ls.flatMap fun l => scanBlock v (formatBlock v dino d l)

def leafEntries (v : Vol) (dino : Mem) (d : Nat) : List Dirent :=
  entriesOf v dino d (dxLeafBlocks v (formatBlock v dino d) (dxLevels (v.block (formatBlock v dino d 0))) true 0)

/-- What the driver scans: the blocks of the volume that bear the first numbers in the root, or, when it does not find the
root, the blocks of the directory that it finds. -/
def scannedBlocks (v : Vol) (dino : Mem) (d : Nat) : List U32 :=
  if lostBlock v dino d 0 then
    ((List.range (dirBlocks v dino)).filter fun l => !lostBlock v dino d l).map (formatBlock v dino d)
  else ((dxNumbers (v.block (formatBlock v dino d 0)) true).take dxMaxLeaves).map (BitVec.ofNat 32)

section Nodes

variable {v : Vol} (g : Geometry v) {buf : Mem}
include g

theorem DxRoot.no_entries (h : DxRoot v buf) : blockDirents v.blksize.toNat buf v.blksize.toNat 0 = [] := by
  have hsize := g.size_nat
  have hfirst : direntAt v.blksize.toNat buf 0 = none := by
    unfold direntAt
    dsimp only
    split
    · have hname : ((List.range (buf 6).toNat).map fun i => buf (8 + i)) = [dot] := by
        rw [h.dotNameLen]
        exact congrArg (fun b => [b]) h.dotChar
      rw [hname]
      rfl
    · rfl
  have hsecond : direntAt v.blksize.toNat buf 12 = none := by
    unfold direntAt
    dsimp only
    split
    · have hname : ((List.range (buf 18).toNat).map fun i => buf (20 + i)) = [dot, dot] := by
        rw [h.dotdotNameLen]
        exact congr (congrArg (fun a b => [a, b]) h.dotdotChar) h.dotdotChar2
      rw [hname]
      rfl
    · rfl
  obtain ⟨n, hn⟩ : ∃ n, v.blksize.toNat = n + 3 := ⟨v.blksize.toNat - 3, by omega⟩
  have hstep1 : blockDirents v.blksize.toNat buf (n + 3) 0 = blockDirents v.blksize.toNat buf (n + 2) 12 := by
    rw [blockDirents, if_pos (by omega)]
    dsimp only
    rw [Nat.zero_add, h.dotLen, if_neg (by omega), hfirst]
    rfl
  have hstep2 : blockDirents v.blksize.toNat buf (n + 2) 12 =
      blockDirents v.blksize.toNat buf (n + 1) v.blksize.toNat := by
    rw [blockDirents, if_pos (by omega)]
    dsimp only
    rw [h.dotdotLen, if_neg (by omega), hsecond, Nat.add_sub_cancel' (by omega)]
    rfl
  have hstep3 : blockDirents v.blksize.toNat buf (n + 1) v.blksize.toNat = [] := by
    rw [blockDirents, if_neg (by omega)]
  have hall := hstep1.trans (hstep2.trans hstep3)
  rwa [← hn] at hall

theorem DxNode.no_entries (h : DxNode v buf) : blockDirents v.blksize.toNat buf v.blksize.toNat 0 = [] := by
  have hsize := g.size_nat
  have hnone : direntAt v.blksize.toNat buf 0 = none := if_neg fun hc => hc.1 h.unused
  obtain ⟨n, hn⟩ : ∃ n, v.blksize.toNat = n + 2 := ⟨v.blksize.toNat - 2, by omega⟩
  have hstep1 : blockDirents v.blksize.toNat buf (n + 2) 0 = blockDirents v.blksize.toNat buf (n + 1) v.blksize.toNat := by
    rw [blockDirents, if_pos (by omega)]
    dsimp only
    rw [Nat.zero_add, h.whole, if_neg (by omega), hnone, Nat.zero_add]
    rfl
  have hstep2 : blockDirents v.blksize.toNat buf (n + 1) v.blksize.toNat = [] := by
    rw [blockDirents, if_neg (by omega)]
  have hall := hstep1.trans hstep2
  rwa [← hn] at hall

theorem DxRoot.scan_nil {pb : U32} (h : DxRoot v (v.block pb)) : scanBlock v pb = [] := by
  unfold scanBlock
  split
  · rfl
  · exact h.no_entries g

theorem DxNode.scan_nil {pb : U32} (h : DxNode v (v.block pb)) : scanBlock v pb = [] := by
  unfold scanBlock
  split
  · rfl
  · exact h.no_entries g

theorem HashTree.linear_perm {dino : Mem} {d : Nat} (h : HashTree v dino d) :
    (entriesOf v dino d (List.range (dirBlocks v dino))).Perm (leafEntries v dino d) := by
  have hperm := h.covers.symm.flatMap_right fun l => scanBlock v (formatBlock v dino d l)
  rw [List.flatMap_append] at hperm
  have hinner : (dxInner v (formatBlock v dino d) (dxLevels (v.block (formatBlock v dino d 0))) true 0).flatMap
      (fun l => scanBlock v (formatBlock v dino d l)) = [] := by
    rw [List.flatMap_eq_nil_iff]
    intro l hl
    by_cases h0 : l = 0
    · rw [h0]
      exact h.root.scan_nil g
    · exact (h.nodes l hl h0).scan_nil g
  rw [hinner, List.nil_append] at hperm
  exact hperm

end Nodes

/-! ## What the driver scans -/

section Scan

variable {v : Vol} (g : Geometry v) {dino : Mem} {d : Nat} (h : HashTree v dino d)
include g h

theorem HashTree.blockCount_nat : (blockCount v (e4InoSizeOf dino)).toNat = dirBlocks v dino := by
  have hwhole := h.whole
  have hpos := h.nonempty
  have hlt := (e4InoSizeOf dino).isLt
  have hsize := g.size_nat
  have hone : (1 : U32).toNat = 1 := rfl
  unfold dirBlocks at hpos ⊢
  unfold blockCount
  have hsum : (e4InoSizeOf dino + v.blksize - 1).toNat = (e4InoSizeOf dino).toNat + v.blksize.toNat - 1 := by
    rw [BitVec.toNat_sub, BitVec.toNat_add, hone]
    rcases hsize with hb | hb | hb <;> rw [hb] at hwhole ⊢ <;> omega
  rw [BitVec.toNat_udiv, hsum]
  rcases hsize with hb | hb | hb <;> rw [hb] at hwhole ⊢ <;> omega

omit h in
theorem dirBlocks_small {l : Nat} (hl : l < dirBlocks v dino) : (BitVec.ofNat 32 l).toNat = l ∧ l < 2 ^ 22 := by
  have hlt := (e4InoSizeOf dino).isLt
  have hsize := g.size_nat
  unfold dirBlocks at hl
  have hle : (e4InoSizeOf dino).toNat / v.blksize.toNat ≤ (e4InoSizeOf dino).toNat / 1024 :=
    Nat.div_le_div_left (by omega) (by omega)
  have hsmall : l < 2 ^ 22 := by omega
  refine ⟨?_, hsmall⟩
  rw [BitVec.toNat_ofNat, Nat.mod_eq_of_lt (by omega)]

theorem HashTree.map_eq {l : Nat} (hl : l < dirBlocks v dino) :
    e4MapBlock v dino (BitVec.ofNat 32 l) = if lostBlock v dino d l then 0 else formatBlock v dino d l := by
  obtain ⟨hnat, hsmall⟩ := dirBlocks_small g hl
  have hmap := e4MapBlock_eq g h.extents (by rw [hnat]; exact hsmall) (by rw [hnat]; exact h.mapped l hl)
  rwa [hnat] at hmap

omit g h in
theorem flatMap_kept {α β : Type} (lost : α → Bool) (f : α → List β) (ls : List α) :
    (ls.flatMap fun l => if lost l then [] else f l) = (ls.filter fun l => !lost l).flatMap f := by
  induction ls with
  | nil => rfl
  | cons l ls ih =>
    rw [List.flatMap_cons, ih, List.filter_cons]
    cases lost l <;> simp

theorem HashTree.scan_mapped {l : Nat} (hl : l < dirBlocks v dino) :
    scanBlock v (e4MapBlock v dino (BitVec.ofNat 32 l)) =
      if lostBlock v dino d l then [] else scanBlock v (formatBlock v dino d l) := by
  have hzero : scanBlock v 0 = [] := by
    unfold scanBlock
    rw [if_pos rfl]
  rw [h.map_eq g hl]
  split
  · exact hzero
  · rfl

theorem HashTree.linear_scanned : (linearBlocks v dino).flatMap (scanBlock v) =
    (((List.range (dirBlocks v dino)).filter fun l => !lostBlock v dino d l).map (formatBlock v dino d)).flatMap
      (scanBlock v) := by
  unfold linearBlocks
  rw [h.blockCount_nat g, List.flatMap_map, List.flatMap_map, ← flatMap_kept]
  exact List.flatMap_congr fun l hl => h.scan_mapped g (List.mem_range.mp hl)

omit h in
theorem min_dxCount (buf : Mem) : min dxMaxLeaves (dxCount v buf true).toNat = min dxMaxLeaves (dxUsed buf true) := by
  have hsize := g.size_nat
  have h36 : (36 : U32).toNat = 36 := rfl
  have h8 : (8 : U32).toNat = 8 := rfl
  have hused : ((read16 buf 34).setWidth 32 : U32).toNat = dxUsed buf true := BitVec.toNat_setWidth_of_le (by omega)
  have hroom : ((v.blksize - 36) / 8).toNat = (v.blksize.toNat - 36) / 8 := by
    rw [BitVec.toNat_udiv, BitVec.toNat_sub_of_le (BitVec.le_def.mpr (by rw [h36]; omega)), h36, h8]
  unfold dxCount dxMaxLeaves
  simp only [if_true]
  split
  · rename_i hlt
    have hlt := BitVec.lt_def.mp hlt
    rw [hroom, hused] at hlt
    rw [hroom]
    omega
  · rw [hused]

theorem HashTree.collect : e4DxCollect v (formatBlock v dino d 0) =
    some (((dxNumbers (v.block (formatBlock v dino d 0)) true).take dxMaxLeaves).map (BitVec.ofNat 32)) := by
  generalize hblk : formatBlock v dino d 0 = blk
  have hroot := h.root
  rw [hblk] at hroot
  have hlevels : v.block blk dxInfoLevels = 0 := by
    apply BitVec.eq_of_getLsbD_eq
    intro i hi
    have hbit := congrArg (fun w : Word => w.getLsbD (24 + i)) hroot.reserved
    simp only [read32, BitVec.getLsbD_append] at hbit
    simpa [dxInfoLevels, show ¬ 24 + i < 8 by omega, show ¬ 24 + i - 8 < 8 by omega, show ¬ 24 + i - 8 - 8 < 8 by omega,
      show 24 + i - 8 - 8 - 8 = i by omega] using hbit
  have hwalk : dxWalk v 0 (1023 + 1) [(blk, 0)] [] =
      some (((List.range (dxCount v (v.block blk) true).toNat).map (dxBlk (v.block blk) true)).take dxMaxLeaves) := by
    unfold dxWalk
    dsimp only [List.isEmpty_nil, List.length_nil]
    rw [if_pos rfl, List.nil_append, Nat.sub_zero]
    unfold dxWalk
    rfl
  unfold e4DxCollect
  rw [hlevels]
  refine hwalk.trans (congrArg some ?_)
  have hcount : min dxMaxLeaves (dxCount v (v.block blk) true).toNat = min dxMaxLeaves (dxUsed (v.block blk) true) :=
    min_dxCount g _
  have hback : (fun i => BitVec.ofNat 32 (read32 (v.block blk) (dxBase true + 4 + i * 8)).toNat) =
      dxBlk (v.block blk) true := by
    funext i
    exact (BitVec.ofNat_toNat 32 _).trans (BitVec.setWidth_eq _)
  rw [dxNumbers, ← List.map_take, ← List.map_take, List.map_map, List.take_range, List.take_range, hcount]
  exact congrArg (fun f => (List.range (min dxMaxLeaves (dxUsed (v.block blk) true))).map f) hback.symm

theorem HashTree.walk_eq {n : U32} (hread : e4ReadInode v n = some dino) :
    e4DirWalk v n = some ((scannedBlocks v dino d).flatMap (scanBlock v)) := by
  have hcount : ¬ blockCount v (e4InoSizeOf dino) = 0 := by
    rw [eq_zero_iff, h.blockCount_nat g]
    exact Nat.pos_iff_ne_zero.mp h.nonempty
  have hfirst : e4MapBlock v dino 0 = if lostBlock v dino d 0 then 0 else formatBlock v dino d 0 :=
    h.map_eq g h.nonempty
  unfold e4DirWalk scannedBlocks dxLeaves
  simp only [hread, h.isDir, h.plain, h.indexed, Bool.true_eq_false, Bool.false_eq_true, if_false, if_true]
  rw [if_neg hcount, hfirst]
  apply congrArg some
  cases hlost : lostBlock v dino d 0 with
  | true =>
    simp only [if_true, Option.getD_none]
    exact h.linear_scanned g
  | false =>
    have hne := h.mapped 0 h.nonempty
    have hlen : (read16 (v.block (formatBlock v dino d 0)) 16).setWidth 32 = v.blksize - 12 := by
      have h12 : (12 : U32).toNat = 12 := rfl
      have hsize := g.size_nat
      apply BitVec.eq_of_toNat_eq
      rw [BitVec.toNat_setWidth_of_le (by omega), h.root.dotdotLen,
        BitVec.toNat_sub_of_le (BitVec.le_def.mpr (by rw [h12]; omega)), h12]
    simp only [Bool.false_eq_true, if_false, if_neg hne, if_pos hlen, h.collect g, Option.getD_some]

end Scan

def WalkGives (v : Vol) (n : U32) (l : List Dirent) : Prop := ∃ walked, e4DirWalk v n = some walked ∧ walked.Perm l

/-- Walking an indexed directory gives the entries of its leaves, or those of a linear scan of its blocks, exactly when
the blocks that the driver scans in their place hold the same entries. -/
theorem indexed_walk_iff {disk : Device} {cap part : U32} {stale : Mem} {v : Vol}
    (hm : ext4Mount disk cap part stale = some v) {n : U32} {dino : Mem} (hread : e4ReadInode v n = some dino) {d : Nat}
    (h : HashTree v dino d) :
    (WalkGives v n (leafEntries v dino d) ∧ WalkGives v n (entriesOf v dino d (List.range (dirBlocks v dino)))) ↔
      ((scannedBlocks v dino d).flatMap (scanBlock v)).Perm (leafEntries v dino d) := by
  have g := (ext4Mount_geometry hm).1
  have hwalk := h.walk_eq g hread
  have hlinear := h.linear_perm g
  constructor
  · rintro ⟨⟨walked, hw, hp⟩, -⟩
    rw [hwalk] at hw
    injection hw with hw
    rw [hw]
    exact hp
  · intro hp
    exact ⟨⟨_, hwalk, hp⟩, _, hwalk, hp.trans hlinear.symm⟩

/-- The root directory is indexed: block 5 is the root of its tree and block 6, logical block 1, the only leaf, with one
record. -/
def oneLeaf (live : Bool) : Device :=
  imageOf [(1028, 64), (1044, 1), (1057, 0x20), (1064, 16), (1080, 0x53), (1081, 0xEF), (1112, 128), (1120, 0x42),
    (2056, 3),
    (3200, 0xED), (3201, 0x41), (3205, 8), (3233, 0x10), (3240, 5), (3244, 6),
    (5120, 2), (5124, 12), (5126, 1), (5127, 2), (5128, 0x2E),
    (5132, 2), (5136, 0xF4), (5137, 3), (5138, 2), (5139, 2), (5140, 0x2E), (5141, 0x2E),
    (5148, 1), (5149, 8), (5152, 124), (5154, 1), (5156, 1),
    (6144, if live then 3 else 0), (6149, 4), (6150, 1), (6151, 1), (6152, 0x61)]

variable (live : Bool)

theorem oneLeaf_mounts : (ext4Mount (oneLeaf live) 128 0 zeros).isSome = true := by
  revert live
  decide

def leafVol : Vol := (ext4Mount (oneLeaf live) 128 0 zeros).get (oneLeaf_mounts live)

theorem leafVol_mounted : ext4Mount (oneLeaf live) 128 0 zeros = some (leafVol live) :=
  (Option.some_get (oneLeaf_mounts live)).symm

theorem leafVol_reads : (e4ReadInode (leafVol live) 2).isSome = true := by
  revert live
  decide

def leafDino : Mem := (e4ReadInode (leafVol live) 2).get (leafVol_reads live)

theorem leafVol_read : e4ReadInode (leafVol live) 2 = some (leafDino live) := (Option.some_get (leafVol_reads live)).symm

def treeBlock (l : Nat) : Mem := (leafVol live).block (formatBlock (leafVol live) (leafDino live) 0 l)

theorem leafVols_compute : (∀ live, (read16 (treeBlock live 0) 4).toNat = 12 ∧ treeBlock live 0 6 = 1 ∧
      treeBlock live 0 8 = dot ∧ (read16 (treeBlock live 0) 16).toNat = (leafVol live).blksize.toNat - 12 ∧
      treeBlock live 0 18 = 2 ∧ treeBlock live 0 20 = dot ∧ treeBlock live 0 21 = dot ∧ read32 (treeBlock live 0) 24 = 0 ∧
      32 + dxUsed (treeBlock live 0) true * 8 ≤ (leafVol live).blksize.toNat) ∧
    (∀ live, e4InoIsDir (leafDino live) = true ∧ hasFlag (leafDino live) inlineDataFl = false ∧
      hasFlag (leafDino live) indexFl = true ∧ hasFlag (leafDino live) extentsFl = false ∧
      0 < dirBlocks (leafVol live) (leafDino live) ∧
      (e4InoSizeOf (leafDino live)).toNat % (leafVol live).blksize.toNat = 0 ∧
      (∀ l < dirBlocks (leafVol live) (leafDino live), formatBlock (leafVol live) (leafDino live) 0 l ≠ 0) ∧
      dxInner (leafVol live) (formatBlock (leafVol live) (leafDino live) 0) (dxLevels (treeBlock live 0)) true 0 = [0] ∧
      (dxInner (leafVol live) (formatBlock (leafVol live) (leafDino live) 0) (dxLevels (treeBlock live 0)) true 0 ++
        dxLeafBlocks (leafVol live) (formatBlock (leafVol live) (leafDino live) 0) (dxLevels (treeBlock live 0)) true 0).Perm
          (List.range (dirBlocks (leafVol live) (leafDino live)))) ∧
    ((scannedBlocks (leafVol false) (leafDino false) 0).flatMap (scanBlock (leafVol false))).Perm
      (leafEntries (leafVol false) (leafDino false) 0) ∧
    leafEntries (leafVol true) (leafDino true) 0 = [{ name := [0x61], ino := 3, ftype := 1 }] ∧
    e4DirWalk (leafVol true) 2 = some [] := by decide +kernel

theorem leafVol_root : DxRoot (leafVol live) (treeBlock live 0) := by
  obtain ⟨hlen, hname, hchar, hlen2, hname2, hchar2, hchar3, hreserved, hfits⟩ := leafVols_compute.1 live
  exact ⟨hlen, hname, hchar, hlen2, hname2, hchar2, hchar3, hreserved, hfits⟩

theorem leafVol_tree : HashTree (leafVol live) (leafDino live) 0 := by
  obtain ⟨hdir, hplain, hindexed, hlegacy, hnonempty, hwhole, hmapped, hinner, hcovers⟩ := leafVols_compute.2.1 live
  refine ⟨hdir, hplain, hindexed, fun h => ?_, hnonempty, hwhole, hmapped, leafVol_root live, fun l hl h0 => ?_, hcovers⟩
  · rw [hlegacy] at h
    cases h
  · have hl : l ∈ [0] := hinner ▸ hl
    exact absurd (List.mem_singleton.mp hl) h0

theorem indexed_walk_bare : WalkGives (leafVol false) 2 (leafEntries (leafVol false) (leafDino false) 0) ∧
    WalkGives (leafVol false) 2
      (entriesOf (leafVol false) (leafDino false) 0 (List.range (dirBlocks (leafVol false) (leafDino false)))) :=
  (indexed_walk_iff (leafVol_mounted false) (leafVol_read false) (leafVol_tree false)).mpr leafVols_compute.2.2.1

/-- The leaf is logical block 1; the driver scans block 1 of the volume, its superblock, and finds no entry. -/
theorem indexed_walk_misses : ext4Mount (oneLeaf true) 128 0 zeros = some (leafVol true) ∧
    e4ReadInode (leafVol true) 2 = some (leafDino true) ∧ HashTree (leafVol true) (leafDino true) 0 ∧
    leafEntries (leafVol true) (leafDino true) 0 = [{ name := [0x61], ino := 3, ftype := 1 }] ∧
    e4DirWalk (leafVol true) 2 = some [] :=
  ⟨leafVol_mounted true, leafVol_read true, leafVol_tree true, leafVols_compute.2.2.2.1, leafVols_compute.2.2.2.2⟩

end Ezos.Ext4
