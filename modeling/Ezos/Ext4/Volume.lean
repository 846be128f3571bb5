import Ezos.Types
import Ezos.Lib.Memory

/-!
# A mounted ext2/3/4 volume (`ext4_mount` and `e4_read_inode` of `kernel/ext4.c`)

A device is its sectors of 512 bytes. The scratch buffers of the source are longer than a block of 1024 or 2048 bytes,
so a volume also carries what such a buffer holds past the block.
-/

namespace Ezos.Ext4

open Lib.Memory

set_option autoImplicit false

abbrev U64 := BitVec 64

abbrev Device := U32 → Mem

structure Vol where
  disk : Device
  /-- First sector of the volume (`e4_part_lba`). -/
  part : U32
  blksize : U32
  /-- Sectors in one block (`e4_blk_per_sec`). -/
  blkPerSec : U32
  bpg : U32
  ipg : U32
  inoSize : U32
  groups : U32
  firstDataBlk : U32
  descSize : U32
  blocksTotal : U64
  gdtBlk : U32
  /-- What a scratch buffer holds past the end of a block. -/
  stale : Mem

def Device.secs (d : Device) (lba : U32) (n : Nat) (stale : Mem) : Mem := fun i =>
  if i < n * 512 then d (lba + BitVec.ofNat 32 (i / 512)) (i % 512) else stale i

def Vol.block (v : Vol) (blkno : U32) : Mem :=
  v.disk.secs (v.part + blkno * v.blkPerSec) v.blkPerSec.toNat v.stale

def incompat64Bit : U32 := 0x80

def incompatReject : U32 := 0x1 ||| 0x4 ||| 0x10 ||| 0x100 ||| 0x10000 ||| 0x20000 ||| 0x40000

def rocompatReject : U32 := 0x10 ||| 0x200 ||| 0x400 ||| 0x800

def wide (x : U32) : U64 := x.setWidth 64

def descSizeOf (incompat : U32) (stored : U16) : U32 :=
  if incompat &&& incompat64Bit ≠ 0 then
    if stored < 64 then 64 else stored.setWidth 32
  else 32

def blocksTotalOf (incompat lo hi : U32) (cap part blkPerSec : U32) : U64 :=
  let total : U64 := if incompat &&& incompat64Bit ≠ 0 then wide lo ||| (wide hi <<< 32) else wide lo
  let room : U64 := if part < cap then wide (cap - part) / wide blkPerSec else 0
  let room : U64 := if room = 0 then 0x10000000 else room
  if room < total then room else total

def ext4Mount (disk : Device) (cap part : U32) (stale : Mem) : Option Vol :=
  let sb := disk.secs (part + 2) 2 stale
  if read16 sb 56 ≠ 0xEF53 then none else
  let logb := read32 sb 24
  if 2 < logb then none else
  let blksize : U32 := 1024 <<< logb.toNat
  let blkPerSec : U32 := blksize >>> 9
  let inoSize : U32 := (read16 sb 88).setWidth 32
  if inoSize ≠ 128 ∧ inoSize ≠ 256 then none else
  let incompat := read32 sb 96
  if incompat &&& incompatReject ≠ 0 then none else
  if read32 sb 100 &&& rocompatReject ≠ 0 then none else
  let bpg := read32 sb 32
  let ipg := read32 sb 40
  if bpg = 0 ∨ ipg = 0 then none else
  let blocksTotal := blocksTotalOf incompat (read32 sb 4) (read32 sb 336) cap part blkPerSec
  let firstDataBlk := read32 sb 20
  if blocksTotal ≤ wide firstDataBlk then none else
  let groups : U32 := ((blocksTotal - wide firstDataBlk + wide bpg - 1) / wide bpg).setWidth 32
  if groups = 0 then none else
  if 65536 < groups then none else
  some
    { disk, part, blksize, blkPerSec, bpg, ipg, inoSize, groups, firstDataBlk, blocksTotal, stale
      descSize := descSizeOf incompat (read16 sb 282)
      gdtBlk := if blksize = 1024 then 2 else 1 }

def Vol.inodeTable (v : Vol) (group : U32) : Option U32 :=
  let gdOff : U64 := wide group * wide v.descSize
  let gd := v.block (v.gdtBlk + (gdOff / wide v.blksize).setWidth 32)
  let gdIn : Nat := (gdOff % wide v.blksize).toNat
  let lo := wide (read32 gd (gdIn + 8))
  let tab := if v.descSize = 64 then lo ||| (wide (read32 gd (gdIn + 40)) <<< 32) else lo
  if tab = 0 ∨ 0xFFFFFFFF < tab then none else some (tab.setWidth 32)

/-- `e4_read_inode`: the bytes of one inode. -/
def e4ReadInode (v : Vol) (ino : U32) : Option Mem :=
  if ino = 0 then none else
  let group := (ino - 1) / v.ipg
  let idx := (ino - 1) % v.ipg
  let groups : U32 := ((v.blocksTotal + wide v.bpg - 1) / wide v.bpg).setWidth 32
  if groups ≤ group then none else
  match v.inodeTable group with
  | none => none
  | some inoTable =>
    let ioff : U64 := wide idx * wide v.inoSize
    let iin : U32 := (ioff % wide v.blksize).setWidth 32
    if v.blksize < iin + v.inoSize then none else
    let blk := v.block (inoTable + (ioff / wide v.blksize).setWidth 32)
    some fun i => blk (iin.toNat + i)

def inoMode (ino : Mem) : U16 := read16 ino 0
def inoFlags (ino : Mem) : U32 := read32 ino 32

/-- `e4_ino_size_of`: the low half of the size, also of a file of 4 GB and more. -/
def e4InoSizeOf (ino : Mem) : U32 := read32 ino 4

def e4InoIsDir (ino : Mem) : Bool := inoMode ino &&& 0xF000 == 0x4000
def inoIsReg (ino : Mem) : Bool := inoMode ino &&& 0xF000 == 0x8000

def extentsFl : U32 := 0x80000
def indexFl : U32 := 0x1000
def inlineDataFl : U32 := 0x10000000

def hasFlag (ino : Mem) (fl : U32) : Bool := inoFlags ino &&& fl != 0

theorem blksize_cases {logb : U32} (h : ¬ 2 < logb) :
    (1024 <<< logb.toNat : U32) = 1024 ∨ (1024 <<< logb.toNat : U32) = 2048 ∨ (1024 <<< logb.toNat : U32) = 4096 := by
  have hle : logb.toNat ≤ 2 := Nat.le_of_not_lt fun hlt => h (BitVec.lt_def.mpr hlt)
  have hcases : logb.toNat = 0 ∨ logb.toNat = 1 ∨ logb.toNat = 2 := by omega
  rcases hcases with h0 | h1 | h2
  · rw [h0]
    exact Or.inl rfl
  · rw [h1]
    exact Or.inr (Or.inl rfl)
  · rw [h2]
    exact Or.inr (Or.inr rfl)

structure Geometry (v : Vol) : Prop where
  sizes : v.blksize = 1024 ∨ v.blksize = 2048 ∨ v.blksize = 4096
  sectors : v.blkPerSec = v.blksize >>> 9
  inodes : v.inoSize = 128 ∨ v.inoSize = 256

theorem ext4Mount_geometry {disk : Device} {cap part : U32} {stale : Mem} {v : Vol}
    (h : ext4Mount disk cap part stale = some v) : Geometry v ∧ v.disk = disk ∧ v.part = part := by
  unfold ext4Mount at h
  dsimp only at h
  split at h
  · cases h
  · split at h
    · cases h
    · rename_i hlog
      split at h
      · cases h
      · rename_i hino
        have hsizes : (read16 (disk.secs (part + 2) 2 stale) 88).setWidth 32 = (128 : U32) ∨
            (read16 (disk.secs (part + 2) 2 stale) 88).setWidth 32 = (256 : U32) := by
          by_cases h128 : (read16 (disk.secs (part + 2) 2 stale) 88).setWidth 32 = (128 : U32)
          · exact Or.inl h128
          · exact Or.inr (Classical.byContradiction fun h256 => hino ⟨h128, h256⟩)
        split at h
        · cases h
        · split at h
          · cases h
          · split at h
            · cases h
            · split at h
              · cases h
              · split at h
                · cases h
                · split at h
                  · cases h
                  · injection h with h
                    subst h
                    exact ⟨⟨blksize_cases hlog, rfl, hsizes⟩, rfl, rfl⟩

namespace Geometry

variable {v : Vol} (g : Geometry v)
include g

theorem size_nat : v.blksize.toNat = 1024 ∨ v.blksize.toNat = 2048 ∨ v.blksize.toNat = 4096 := by
  rcases g.sizes with h | h | h
  · exact Or.inl (h ▸ rfl)
  · exact Or.inr (Or.inl (h ▸ rfl))
  · exact Or.inr (Or.inr (h ▸ rfl))

theorem sectors_nat : v.blkPerSec.toNat * 512 = v.blksize.toNat := by
  rw [g.sectors]
  rcases g.sizes with h | h | h <;> rw [h] <;> rfl

end Geometry

end Ezos.Ext4

/-!
## From a logical block to a block of the volume (`e4_map_extent`, `e4_map_legacy`, `e4_map_block`)

An answer of 0 is a hole.
-/

namespace Ezos.Ext4

open Lib.Memory

def extMagic : U16 := 0xF30A

def extLen (l : U16) : U32 := l.setWidth 32 &&& 0x7FFF

def recAt (i : Nat) : Nat := 12 + i * 12

def leafHit (node : Mem) (lblk : U32) (i : Nat) : Bool :=
  let exBlk := read32 node (recAt i)
  let exLen := extLen (read16 node (recAt i + 4))
  decide (exBlk ≤ lblk) && decide (lblk < exBlk + exLen) && exLen != 0

def leafBlock (node : Mem) (lblk : U32) (i : Nat) : U32 :=
  let start : U64 := wide (read32 node (recAt i + 8)) ||| ((read16 node (recAt i + 6)).setWidth 64 <<< 32)
  (start + wide (lblk - read32 node (recAt i))).setWidth 32

def leafFind (node : Mem) (lblk : U32) (n : Nat) : U32 :=
  match (List.range n).find? (leafHit node lblk) with
  | none => 0
  | some i => leafBlock node lblk i

/-- The child in record `i` of an index node; the high half is read at `EI_OFF_LEAF_HI = 6`. -/
def indexChild (node : Mem) (i : Nat) : U64 :=
  wide (read32 node (recAt i + 4)) ||| ((read16 node (recAt i + 6)).setWidth 64 <<< 32)

def e4Child (node : Mem) (lblk : U32) : Nat → Nat → U64 → U64
  | 0, _, child => child
  | n + 1, i, child =>
    if read32 node (recAt i) ≤ lblk then e4Child node lblk n (i + 1) (indexChild node i) else child

def mapExtentFrom (v : Vol) (lblk : U32) : Nat → Mem → U32 → U32
  | 0, _, _ => 0
  | fuel + 1, node, room =>
    if read16 node 0 ≠ extMagic then 0 else
    if room ≤ 12 then 0 else
    let entries : U32 := (read16 node 2).setWidth 32
    let cap := (room - 12) / 12
    let entries := if cap < entries then cap else entries
    if entries = 0 then 0 else
    if read16 node 6 = 0 then leafFind node lblk entries.toNat
    else
      let child := e4Child node lblk entries.toNat 0 0
      if child = 0 ∨ 0xFFFFFFFF < child then 0
      else mapExtentFrom v lblk fuel (v.block (child.setWidth 32)) v.blksize

/-- The bytes of an inode from `i_block` on. -/
def iBlock (ino : Mem) : Mem := fun i => ino (40 + i)

def e4MapExtent (v : Vol) (ino : Mem) (lblk : U32) : U32 := mapExtentFrom v lblk 6 (iBlock ino) 60

def Vol.word (v : Vol) (blkno : U32) (i : U32) : U32 := read32 (v.block blkno) (i.toNat * 4)

def e4MapLegacy (v : Vol) (ino : Mem) (lblk : U32) : U32 :=
  let ib := iBlock ino
  let perBlk := v.blksize / 4
  if lblk < 12 then read32 ib (lblk.toNat * 4) else
  let lblk := lblk - 12
  if lblk < perBlk then
    let ind := read32 ib 48
    if ind = 0 then 0 else v.word ind lblk
  else
  let lblk := lblk - perBlk
  if lblk < perBlk * perBlk then
    let ind := read32 ib 52
    if ind = 0 then 0 else
    let ind2 := v.word ind (lblk / perBlk)
    if ind2 = 0 then 0 else v.word ind2 (lblk % perBlk)
  else
  let lblk := lblk - perBlk * perBlk
  let ind := read32 ib 56
  if ind = 0 then 0 else
  let off2 := lblk / perBlk
  let ind2 := v.word ind (off2 / perBlk)
  if ind2 = 0 then 0 else
  let ind3 := v.word ind2 (off2 % perBlk)
  if ind3 = 0 then 0 else v.word ind3 (lblk % perBlk)

def e4MapBlock (v : Vol) (ino : Mem) (lblk : U32) : U32 :=
  if hasFlag ino extentsFl then e4MapExtent v ino lblk else e4MapLegacy v ino lblk

end Ezos.Ext4
