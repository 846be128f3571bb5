import Ezos.Exfat.Volume

/-!
# `exfat_format`

Formatting is a straight line of sector writes, each of which may fail; `andThen` is the
`if (... != 0) return -1` between two of them.
-/

namespace Ezos.Exfat

open Lib.Memory Lib.ByteBitmap

set_option autoImplicit false

def andThen (r : Bool × Vol) (k : Vol → Bool × Vol) : Bool × Vol :=
  match r with
  | (true, v) => k v
  | (false, v) => (false, v)

def exfatChecksum (data : Mem) (len : Nat) : U32 :=
  (List.range len).foldl
    (fun sum i => ((sum <<< 31) ||| (sum >>> 1)) + (data i).setWidth 32) 0

def exfatSetChecksum (data : Mem) (len : Nat) : U16 :=
  (List.range len).foldl
    (fun sum i => if i ≠ 2 ∧ i ≠ 3 then sum.rotateLeft 15 + (data i).setWidth 16 else sum) 0

def fatOffset : U32 := 25

def fatNeed (volumeLength fatLength : U32) : U32 :=
  let h := fatOffset + fatLength
  let clusterCount := if volumeLength > h then volumeLength - h else 0
  ((clusterCount + 2) * 4 + 511) / 512

def fatRounds (volumeLength fatLength : U32) : Nat → U32
  | 0 => fatLength
  | n + 1 =>
    let need := fatNeed volumeLength fatLength
    if need = fatLength then fatLength else fatRounds volumeLength need n

def formatFatLength (volumeLength : U32) : U32 := fatRounds volumeLength 1 12

def formatHeap (volumeLength : U32) : U32 := fatOffset + formatFatLength volumeLength

def formatClusterCount (volumeLength : U32) : U32 :=
  let heap := formatHeap volumeLength
  if volumeLength > heap then volumeLength - heap else 0

def bmpFirst : U32 := 3

def bmpBytes (clusterCount : U32) : U32 := (clusterCount + 7) / 8

def bmpClusters (clusterCount : U32) : U32 := (bmpBytes clusterCount + 511) / 512

def upcaseFirst (clusterCount : U32) : U32 := bmpFirst + bmpClusters clusterCount

def mbrSector (partStart volumeLength : U32) : Mem :=
  let last := partStart + volumeLength - 1
  let cyl := last / (16 * 63)
  let (cyl, head, sect) :=
    if cyl > 1023 then (1023, 15, 63) else (cyl, last / 63 % 16, last % 63 + 1)
  let mbr := write32 zeros 0x1B8 0x1BADB002
  let mbr := writeBytes mbr 446 [0x00, 0x00, 0x02, 0x00, 0x07, head.setWidth 8,
    (sect ||| ((cyl >>> 8) <<< 6)).setWidth 8, cyl.setWidth 8]
  let mbr := write32 mbr 454 partStart
  let mbr := write32 mbr 458 volumeLength
  writeBytes mbr 510 [0x55, 0xAA]

def vbrSector (partStart : U32) (info : Info) : Mem :=
  let vbr := writeBytes zeros 0
    [0xEB, 0x76, 0x90, 0x45, 0x58, 0x46, 0x41, 0x54, 0x20, 0x20, 0x20]
  let vbr := write64 vbr 0x40 (partStart.setWidth 64)
  let vbr := write64 vbr 0x48 info.volumeLength
  let vbr := write32 vbr 0x50 info.fatOffset
  let vbr := write32 vbr 0x54 info.fatLength
  let vbr := write32 vbr 0x58 info.clusterHeapOffset
  let vbr := write32 vbr 0x5C info.clusterCount
  let vbr := write32 vbr 0x60 info.rootDirCluster
  let vbr := write32 vbr 0x64 0x12345678
  let vbr := writeBytes vbr 0x68 [0x01, 0x00, 0x00, 0x00, 9, 0, 1, 0x80, 0xFF]
  writeBytes vbr 510 [0x55, 0xAA]

def readBootRegion (v : Vol) (region : Mem) (s : Nat) : Nat → Option Mem × Vol
  | 0 => (some region, v)
  | n + 1 =>
    match exfatReadSector v (v.mount.partitionStart + BitVec.ofNat 32 s) with
    | (none, v) => (none, v)
    | (some p, v) => readBootRegion v (copyIn region (s * 512) 512 p) (s + 1) n

def bootChecksumSector (region : Mem) : Mem :=
  (List.range 11).foldl
    (fun m s =>
      let p := sectorOf region (s * 512)
      let p := if s = 0 then setByte (setByte (setByte p 106 0) 107 0) 112 0 else p
      write32 m (s * 4) (exfatChecksum p 512))
    zeros

def writeBootRegion (v : Vol) (volumeLength : U32) : Bool × Vol :=
  let part := v.mount.partitionStart
  let vbr := vbrSector part v.info
  andThen (exfatWriteSector v 0 (mbrSector part volumeLength)) fun v =>
  andThen (exfatWriteSector v part vbr) fun v =>
  match readBootRegion v zeros 0 11 with
  | (none, v) => (false, v)
  | (some region, v) =>
    andThen (exfatWriteSector v (part + 11) (bootChecksumSector region)) fun v =>
    andThen (exfatWriteSector v (part + 12) vbr) fun v =>
    exfatWriteSector v (part + 23) (bootChecksumSector region)

def metadataEntry (clusterCount c : U32) : U32 :=
  let bmpLast := bmpFirst + bmpClusters clusterCount - 1
  if c ≥ bmpFirst ∧ c < bmpLast then c + 1 else 0xFFFFFFFF

def fillFatSector (clusterCount : U32) (s : Nat) (sector : Mem) (c : Nat) : Nat → Mem
  | 0 => sector
  | n + 1 =>
    let sector :=
      if c / 128 ≠ s then sector
      else write32 sector (c % 128 * 4) (metadataEntry clusterCount (BitVec.ofNat 32 c))
    fillFatSector clusterCount s sector (c + 1) n

def formatFatSector (clusterCount : U32) (s : Nat) : Mem :=
  let sector := if s = 0 then write32 (write32 zeros 0 0xFFFFFFF8) 4 0xFFFFFFFF else zeros
  fillFatSector clusterCount s sector 2 ((upcaseFirst clusterCount).toNat - 1)

def writeFatSectors (v : Vol) (s : Nat) : Nat → Bool × Vol
  | 0 => (true, exfatFatCacheDrop v)
  | n + 1 =>
    andThen (exfatWriteSector v (v.mount.partitionStart + v.info.fatOffset + BitVec.ofNat 32 s)
        (formatFatSector v.info.clusterCount s)) fun v =>
      writeFatSectors v (s + 1) n

def rootCluster (clusterCount : U32) : Mem :=
  let root := writeBytes zeros 0 [0x83, 0x01]
  let root := writeBytes root 32 [0xC0, 0x02]
  let root := writeBytes root 64 [0x81, 0x01]
  let root := writeBytes root 96 [0xC0, 0x01]
  let root := write32 root (96 + 0x14) bmpFirst
  let root := write64 root (96 + 0x18) ((bmpBytes clusterCount).setWidth 64)
  let root := writeBytes root 128 [0x82, 0x01]
  let root := writeBytes root 160 [0xC0, 0x00]
  let root := write32 root (160 + 0x14) (upcaseFirst clusterCount)
  let root := write64 root (160 + 0x18) 124
  write16 root 2 (exfatSetChecksum root 64)

/-- The bits of the clusters from `c` on, `n` of them, that lie in bitmap cluster `i`. The
loop breaks off at the first cluster past the first 512 bytes, whatever `i` is. -/
def fillBitmap (i : Nat) (bmp : Mem) (c : Nat) : Nat → Mem
  | 0 => bmp
  | n + 1 =>
    let bit := c - 2
    if bit / 8 ≥ 512 then bmp
    else
      fillBitmap i
        (if bit / 8 ≥ i * 512 ∧ bit / 8 < (i + 1) * 512 then setBit bmp (bit - i * 4096) else bmp)
        (c + 1) n

def formatBitmap (clusterCount : U32) (i : Nat) : Mem :=
  fillBitmap i zeros 2 ((upcaseFirst clusterCount).toNat - 1)

def writeBitmapClusters (v : Vol) (i : Nat) : Nat → Bool × Vol
  | 0 => (true, v)
  | n + 1 =>
    andThen (exfatWriteCluster v (bmpFirst + BitVec.ofNat 32 i)
        (formatBitmap v.info.clusterCount i) 0) fun v =>
      writeBitmapClusters v (i + 1) n

def upcaseCluster : Mem :=
  let (upcase, pos) := (List.range 128).foldl
    (fun (m, pos) c =>
      if 0x61 ≤ c ∧ c ≤ 0x7A then
        (write16 (write16 m pos (BitVec.ofNat 16 c)) (pos + 2) (BitVec.ofNat 16 (c - 32)), pos + 4)
      else (m, pos))
    (zeros, 16)
  let upcase := write16 (write16 upcase pos 0xFFFF) (pos + 2) 0xFFFF
  write32 upcase 0 (exfatChecksum upcase (pos + 4))

def formatPrepare (v : Vol) (partStart : U32) : Vol :=
  { v with mount := { v.mount with
      partitionStart := partStart
      info := { v.info with
        fatOffset := fatOffset, rootDirCluster := 2
        sectorsPerCluster := 1, spc_pos := Nat.one_pos, spc_le := one_le_spc } } }

def formatGeometry (v : Vol) (volumeLength : U32) : Vol :=
  { v with mount := { v.mount with info := { v.info with
      fatLength := formatFatLength volumeLength
      clusterHeapOffset := formatHeap volumeLength
      clusterCount := formatClusterCount volumeLength
      volumeLength := volumeLength.setWidth 64 } } }

def formatFinish (v : Vol) : Vol :=
  { v with mount := { v.mount with
      bitmapCluster := bmpFirst, bitmapBytes := bmpBytes v.info.clusterCount, ready := true } }

/-- The writes of `exfat_format`, once the geometry is known. -/
def formatWrites (v : Vol) (volumeLength : U32) : Bool × Vol :=
  let cc := v.info.clusterCount
  andThen (writeBootRegion v volumeLength) fun v =>
  andThen (writeFatSectors v 0 v.info.fatLength.toNat) fun v =>
  andThen (exfatWriteCluster v v.info.rootDirCluster (rootCluster cc) 0) fun v =>
  andThen (writeBitmapClusters v 0 (bmpClusters cc).toNat) fun v =>
  andThen (exfatWriteCluster v (upcaseFirst cc) upcaseCluster 0) fun v =>
  (true, formatFinish v)

def formatPartStart (partStart : U32) : U32 := if partStart = 0 then 1 else partStart

def formatVolumeLength (capacity partStart : U32) : U32 := capacity - formatPartStart partStart

def exfatFormat (v : Vol) (partStart : U32) : Bool × Vol :=
  let part := formatPartStart partStart
  let volumeLength := formatVolumeLength v.mount.capacity partStart
  let v := formatPrepare v part
  if v.mount.capacity = 0 then (false, v)
  else if v.mount.capacity ≤ part + 64 then (false, v)
  else if formatClusterCount volumeLength < 16 then (false, v)
  else formatWrites (formatGeometry v volumeLength) volumeLength

end Ezos.Exfat
