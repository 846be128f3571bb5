import Ezos.Fat.Write

/-!
# Formatting and mounting (`fat_format`, `fat_probe` and `fat_mount` of `kernel/fat.c`)

A device is its sectors of 512 bytes; reading and writing one does not fail here. Geometry is computed in 32-bit
words, as in the source. The MBR, the FSInfo sector and the copy of the boot sector, which this driver writes and
never reads, are left out.
-/

namespace Ezos.Fat

open Lib.Memory

set_option autoImplicit false

abbrev Disk := U32 → Mem

def Disk.byte (d : Disk) (lba : U32) (i : Nat) : Byte := d (lba + BitVec.ofNat 32 (i / 512)) (i % 512)

def Disk.block (d : Disk) (lba : U32) (n : Nat) : Mem := fun i => if i < n then d.byte lba i else 0

def Disk.fatBytes (d : Disk) (lba : U32) (bps : Nat) : Nat → Byte := fun off =>
  d.byte (lba + BitVec.ofNat 32 (off / bps)) (off % bps)

def ataWriteSector (d : Disk) (lba : U32) (buf : Mem) : Disk := fun x => if x = lba then buf else d x

def writeSectors (d : Disk) (lba : U32) (buf : Mem) : Nat → Disk
  | 0 => d
  | n + 1 => ataWriteSector (writeSectors d lba buf n) (lba + BitVec.ofNat 32 n) buf

structure Bpb where
  bps : U32
  spc : U32
  reserved : U32
  nfats : U32
  rootEntries : U32
  total : U32
  fatSize16 : U32
  fatSize : U32
  rootCluster : U32

def bpbOf (bs : Mem) : Bpb :=
  let total16 : U32 := (read16 bs 19).setWidth 32
  let fatSize16 : U32 := (read16 bs 22).setWidth 32
  { bps := (read16 bs 11).setWidth 32
    spc := (bs 13).setWidth 32
    reserved := (read16 bs 14).setWidth 32
    nfats := (bs 16).setWidth 32
    rootEntries := (read16 bs 17).setWidth 32
    total := if total16 = 0 then read32 bs 32 else total16
    fatSize16 := fatSize16
    fatSize := if fatSize16 ≠ 0 then fatSize16 else read32 bs 36
    rootCluster := read32 bs 44 }

def Bpb.rootDirSectors (b : Bpb) : U32 := (b.rootEntries * 32 + b.bps - 1) / b.bps
def Bpb.rootDirSector (b : Bpb) : U32 := b.reserved + b.nfats * b.fatSize
def Bpb.firstData (b : Bpb) : U32 := b.reserved + b.nfats * b.fatSize + b.rootDirSectors
def Bpb.clusters (b : Bpb) : U32 := (b.total - b.firstData) / b.spc

def sectorSizes : List U32 := [512, 1024, 2048, 4096]

def bootSigned (bs : Mem) : Bool :=
  bs 510 == 0x55 && bs 511 == 0xAA && (bs 0 == 0xEB || bs 0 == 0xE9) &&
    !(bs 3 == 0x45 && bs 4 == 0x58 && bs 5 == 0x46 && bs 6 == 0x41 && bs 7 == 0x54) &&
    !(bs 3 == 0x4E && bs 4 == 0x54 && bs 5 == 0x46 && bs 6 == 0x53)

def fatProbe (bs : Mem) : Option Kind :=
  let b := bpbOf bs
  if bootSigned bs = false then none
  else if b.bps ∉ sectorSizes then none
  else if b.spc = 0 ∨ b.spc &&& (b.spc - 1) ≠ 0 then none
  else if b.reserved = 0 ∨ b.nfats < 1 ∨ b.nfats > 2 ∨ b.total = 0 ∨ bs 21 < 0xF0 ∨ b.fatSize = 0 then none
  else if b.firstData ≥ b.total ∨ b.clusters < 2 then none
  else if b.clusters < 4085 then some .fat12
  else if b.clusters < 65525 then some .fat16
  else if b.rootEntries ≠ 0 ∨ b.fatSize16 ≠ 0 then none
  else if b.rootCluster < 2 ∨ b.rootCluster ≥ b.clusters + 2 then none
  else some .fat32

def entryAt (k : Kind) (fat : Nat → Byte) (n : Nat) : Nat :=
  match k with
  | .fat12 =>
    let b0 := (fat (n + n / 2)).toNat
    let b1 := (fat (n + n / 2 + 1)).toNat
    if n % 2 = 1 then b1 * 16 + b0 / 16 else b0 + b1 % 16 * 256
  | .fat16 => (read16 fat (n * 2)).toNat
  | .fat32 => (read32 fat (n * 4)).toNat % 2 ^ 28

def volumeOf (d : Disk) (part : U32) (k : Kind) (b : Bpb) : Vol where
  kind := k
  info := { bytesPerSector := b.bps.toNat, sectorsPerCluster := b.spc.toNat, clusterCount := b.clusters.toNat,
            rootDirSectors := b.rootDirSectors.toNat, rootCluster := if k = .fat32 then b.rootCluster.toNat else 0 }
  fat n := entryAt k (d.fatBytes (part + b.reserved) b.bps.toNat) n
  fat2 n := entryAt k (d.fatBytes (part + b.reserved + b.fatSize) b.bps.toNat) n
  root i := d.block (part + b.rootDirSector + BitVec.ofNat 32 i) b.bps.toNat
  data c := d.block (part + b.firstData + BitVec.ofNat 32 (c - 2) * b.spc) (b.bps * b.spc).toNat
  unreadable _ := false
  hint := 2

def fatMaxClusterBytes : U32 := 16384

def fatMount (d : Disk) (part : U32) : Option Sys :=
  let b := bpbOf (d part)
  match fatProbe (d part) with
  | none => none
  | some k =>
    if b.bps * b.spc > fatMaxClusterBytes then none
    else
      let root : U32 := if k = .fat32 then b.rootCluster else 0
      some { vol := volumeOf d part k b
             cwd := { ready := true, root := root, cur := root, below := [], path := Fs.slash :: [] } }

def Kind.spc : Kind → U32
  | .fat12 => 16
  | .fat16 => 4
  | .fat32 => 1

def Kind.reserved (k : Kind) : U32 := if k = .fat32 then 32 else 1
def Kind.rootEntries (k : Kind) : U32 := if k = .fat32 then 0 else 512

def Kind.maxClusters : Kind → U32
  | .fat12 => 4084
  | .fat16 => 65524
  | .fat32 => 0x0FFFFFF0

def Kind.minClusters : Kind → U32
  | .fat12 => 16
  | .fat16 => 4085
  | .fat32 => 65525

def nfats : U32 := 2

def Kind.rootSectors (k : Kind) : U32 := (k.rootEntries * 32 + 511) / 512
def Kind.firstData (k : Kind) (fatSize : U32) : U32 := k.reserved + nfats * fatSize + k.rootSectors

def Kind.clusters (k : Kind) (total fatSize : U32) : U32 :=
  if total > k.firstData fatSize then (total - k.firstData fatSize) / k.spc else 0

def Kind.need (k : Kind) (clusters : U32) : U32 :=
  let need :=
    match k with
    | .fat12 => ((clusters + 2) * 3 + 1) / 2
    | .fat16 => (clusters + 2) * 2
    | .fat32 => (clusters + 2) * 4
  (need + 511) / 512

/-- `fat_size`, `first_data` and `clusters` after the inner loop. -/
structure Fit where
  fatSize : U32
  firstData : U32
  clusters : U32

def growFat (k : Kind) (total fatSize : U32) (left : Nat) : Fit :=
  let clusters := k.clusters total fatSize
  let need := k.need clusters
  if need ≤ fatSize then { fatSize := fatSize, firstData := k.firstData fatSize, clusters := clusters }
  else
    match left with
    | 0 => { fatSize := need, firstData := k.firstData fatSize, clusters := clusters }
    | left + 1 => growFat k total need left

/-- The outer loop, `left` rounds of it: the volume shrinks to what its type can address. The sum `want` is
one of 64 bits. -/
def shrink (k : Kind) (total fatSize : U32) : Nat → U32 × U32
  | 0 => (total, fatSize)
  | left + 1 =>
    let fit := growFat k total fatSize 9
    if fit.clusters ≤ k.maxClusters then (total, fit.fatSize)
    else
      let want := fit.firstData.toNat + k.maxClusters.toNat * k.spc.toNat
      if want ≥ total.toNat then (total, fit.fatSize)
      else shrink k (BitVec.ofNat 32 want) 1 left

def labelOf : Kind → List Byte
  | .fat12 => [0x4E, 0x4F, 0x20, 0x4E, 0x41, 0x4D, 0x45, 0x20, 0x20, 0x20, 0x20, 0x46, 0x41, 0x54, 0x32, 0x32, 0x20,
      0x20, 0x20]
  | .fat16 => [0x4E, 0x4F, 0x20, 0x4E, 0x41, 0x4D, 0x45, 0x20, 0x20, 0x20, 0x20, 0x46, 0x41, 0x54, 0x31, 0x36, 0x20,
      0x20, 0x20]
  | .fat32 => [0x4E, 0x4F, 0x20, 0x4E, 0x41, 0x4D, 0x45, 0x20, 0x20, 0x20, 0x20, 0x46, 0x41, 0x54, 0x33, 0x32, 0x20,
      0x20, 0x20]

def bootSector (k : Kind) (part total fatSize : U32) : Mem :=
  let bs := writeBytes zeros 0 [0xEB, 0x3C, 0x90, 0x45, 0x5A, 0x4F, 0x53, 0x20, 0x20, 0x20, 0x20]
  let bs := write16 bs 11 512
  let bs := writeBytes bs 13 [k.spc.setWidth 8]
  let bs := write16 bs 14 (k.reserved.setWidth 16)
  let bs := writeBytes bs 16 [nfats.setWidth 8]
  let bs := write16 bs 17 (k.rootEntries.setWidth 16)
  let bs := if total < 0x10000 then write16 bs 19 (total.setWidth 16) else bs
  let bs := writeBytes bs 21 [0xF8]
  let bs := if k ≠ .fat32 then write16 bs 22 (fatSize.setWidth 16) else bs
  let bs := write16 bs 24 63
  let bs := write16 bs 26 16
  let bs := write32 bs 28 part
  let bs := if total ≥ 0x10000 then write32 bs 32 total else bs
  let bs :=
    if k = .fat32 then
      let bs := write32 bs 36 fatSize
      let bs := write16 bs 40 0
      let bs := write16 bs 42 0
      let bs := write32 bs 44 2
      let bs := write16 bs 48 1
      let bs := write16 bs 50 6
      let bs := writeBytes bs 64 [0x80]
      let bs := writeBytes bs 66 [0x29]
      let bs := write32 bs 68 0x1BADB002
      writeBytes bs 72 (labelOf k)
    else
      let bs := writeBytes bs 36 [0x80]
      let bs := writeBytes bs 38 [0x29]
      let bs := write32 bs 40 0x1BADB002
      writeBytes bs 43 (labelOf k)
  writeBytes bs 510 [0x55, 0xAA]

def fat0 : Kind → Mem
  | .fat12 => writeBytes zeros 0 [0xF8, 0xFF, 0xFF]
  | .fat16 => writeBytes zeros 0 [0xF8, 0xFF, 0xFF, 0xFF]
  | .fat32 => write32 (write32 (write32 zeros 0 0x0FFFFFF8) 4 0x0FFFFFFF) 8 0x0FFFFFFF

def writeFat (d : Disk) (k : Kind) (base fatSize : U32) : Disk :=
  writeSectors (ataWriteSector d base (fat0 k)) (base + 1) zeros (fatSize.toNat - 1)

/-- `fat_format` on a device with `cap` sectors; `none` is the answer -1. -/
def fatFormat (d : Disk) (cap part : U32) (k : Kind) : Option Sys :=
  if cap = 0 then none
  else
    let part := if part = 0 then 1 else part
    if cap ≤ part + 64 then none
    else
      match shrink k (cap - part) 1 8 with
      | (total, fatSize) =>
        if k.clusters total fatSize < k.minClusters then none
        else
          let d := ataWriteSector d part (bootSector k part total fatSize)
          let d := writeFat d k (part + k.reserved) fatSize
          let d := writeFat d k (part + k.reserved + fatSize) fatSize
          let d :=
            if k = .fat32 then writeSectors d (part + k.firstData fatSize) zeros k.spc.toNat
            else writeSectors d (part + k.reserved + nfats * fatSize) zeros k.rootSectors.toNat
          match fatMount d part with
          | none => none
          | some s => if s.vol.kind = k then some s else none

end Ezos.Fat
