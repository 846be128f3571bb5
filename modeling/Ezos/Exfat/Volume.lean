import Ezos.Types
import Ezos.Lib.ByteBitmap

/-!
# exFAT volume access (`kernel/exfat.c`)

A disk maps sectors to their contents. An access at or past the capacity fails, and so does
the one access that `fault` names; a failed access changes nothing on the disk. `site` is
not in the source: it says on whose behalf the sectors are accessed, so that a fault can
name any single access of a call.
-/

namespace Ezos.Exfat

open Lib.Memory Lib.ByteBitmap

set_option autoImplicit false

/-- The phases of `exfat_create_file`; `other` is everything else. -/
inductive Site where
  | other
  | lookup
  | growFind
  | growMark
  | growLink
  | growZero
  | growUndo
  | growBitmap
  | growRead
  | allocFind
  | allocMark
  | allocBitmap
  | allocLink
  | rollback
  | dataWrite
  | dataNext
  | dirWrite
  | dirNext
  deriving DecidableEq

structure Fault where
  site : Site
  write : Bool
  sector : U32
  nth : Nat
  deriving DecidableEq

def bytesPerSector : Nat := 512

/-- What the code uses of `exfat_info_t`. Mounting accepts only volumes with 512 bytes a
sector and at most 16 sectors a cluster. -/
structure Info where
  volumeLength : BitVec 64
  fatOffset : U32
  fatLength : U32
  clusterHeapOffset : U32
  clusterCount : U32
  rootDirCluster : U32
  sectorsPerCluster : Nat
  spc_pos : 0 < sectorsPerCluster
  spc_le : sectorsPerCluster ≤ 16

/-- The statics that mounting and formatting set, and `ata_capacity` of the drive. -/
structure Mount where
  capacity : U32
  info : Info
  partitionStart : U32
  bitmapCluster : U32
  bitmapBytes : U32
  ready : Bool

structure Cwd where
  cluster : U32
  path : List U8
  stack : Nat → U32
  depth : Nat

/-- `fatSectorNo` is `none` for the source's 0xFFFFFFFF, a sector that no disk has; `stamp`
is the packed time and date that the clock shows. -/
structure Vol where
  mount : Mount
  disk : U32 → Mem
  fatSectorNo : Option U32
  fatSector : Mem
  cwd : Cwd
  stamp : U32
  site : Site
  fault : Option Fault

theorem one_le_spc : 1 ≤ 16 := by decide

def initialVol (capacity : U32) : Vol :=
  { mount :=
      { capacity := capacity
        info := { volumeLength := 0, fatOffset := 0, fatLength := 0, clusterHeapOffset := 0,
                  clusterCount := 0, rootDirCluster := 0, sectorsPerCluster := 1,
                  spc_pos := Nat.one_pos, spc_le := one_le_spc }
        partitionStart := 0, bitmapCluster := 3, bitmapBytes := 0, ready := false }
    disk := fun _ => zeros
    fatSectorNo := none
    fatSector := zeros
    cwd := { cluster := 0, path := [0x2F], stack := fun _ => 0, depth := 0 }
    stamp := 0
    site := .other
    fault := none }

def Info.clusterSize (i : Info) : Nat := bytesPerSector * i.sectorsPerCluster

def Vol.info (v : Vol) : Info := v.mount.info
def Vol.clusterSize (v : Vol) : Nat := v.info.clusterSize
def Vol.clusterLimit (v : Vol) : U32 := v.info.clusterCount + 2

def Fault.hits (f : Fault) (site : Site) (write : Bool) (lba : U32) : Bool :=
  f.site = site && f.write = write && f.sector = lba

def Vol.access (v : Vol) (write : Bool) (lba : U32) : Bool × Vol :=
  match v.fault with
  | none => (decide (lba < v.mount.capacity), v)
  | some f =>
    if f.hits v.site write lba then
      if f.nth = 0 then (false, { v with fault := none })
      else (decide (lba < v.mount.capacity), { v with fault := some { f with nth := f.nth - 1 } })
    else (decide (lba < v.mount.capacity), v)

def sectorOf (buf : Mem) (off : Nat) : Mem := fun x => if x < 512 then buf (off + x) else 0

def exfatReadSector (v : Vol) (lba : U32) : Option Mem × Vol :=
  match v.access false lba with
  | (true, v) => (some (v.disk lba), v)
  | (false, v) => (none, v)

def exfatWriteSector (v : Vol) (lba : U32) (buffer : Mem) : Bool × Vol :=
  match v.access true lba with
  | (true, v) =>
    (true, { v with disk := fun s => if s = lba then sectorOf buffer 0 else v.disk s })
  | (false, v) => (false, v)

def exfatClusterValid (v : Vol) (cluster : U32) : Bool :=
  cluster ≥ 2 && cluster < v.clusterLimit

def firstSector (v : Vol) (cluster : U32) : U32 :=
  v.mount.partitionStart + v.info.clusterHeapOffset +
    (cluster - 2) * BitVec.ofNat 32 v.info.sectorsPerCluster

def readSectors (v : Vol) (first : U32) (buf : Mem) (off i : Nat) : Nat → Bool × Mem × Vol
  | 0 => (true, buf, v)
  | n + 1 =>
    match exfatReadSector v (first + BitVec.ofNat 32 i) with
    | (none, v) => (false, buf, v)
    | (some s, v) => readSectors v first (copyIn buf (off + i * bytesPerSector) 512 s) off (i + 1) n

def exfatReadCluster (v : Vol) (cluster : U32) (buf : Mem) (off : Nat) : Bool × Mem × Vol :=
  if exfatClusterValid v cluster = false then (false, buf, v)
  else readSectors v (firstSector v cluster) buf off 0 v.info.sectorsPerCluster

def writeSectors (v : Vol) (first : U32) (buf : Mem) (off i : Nat) : Nat → Bool × Vol
  | 0 => (true, v)
  | n + 1 =>
    match exfatWriteSector v (first + BitVec.ofNat 32 i)
        (sectorOf buf (off + i * bytesPerSector)) with
    | (false, v) => (false, v)
    | (true, v) => writeSectors v first buf off (i + 1) n

def exfatWriteCluster (v : Vol) (cluster : U32) (buf : Mem) (off : Nat) : Bool × Vol :=
  if exfatClusterValid v cluster = false then (false, v)
  else writeSectors v (firstSector v cluster) buf off 0 v.info.sectorsPerCluster

def exfatFatCacheDrop (v : Vol) : Vol := { v with fatSectorNo := none }

def fatSectorOf (v : Vol) (cluster : U32) : U32 :=
  v.mount.partitionStart + v.info.fatOffset + cluster / 128

def fatByteOf (cluster : U32) : Nat := cluster.toNat % 128 * 4

def exfatReadFatEntry (v : Vol) (cluster : U32) : U32 × Vol :=
  if v.fatSectorNo = some (fatSectorOf v cluster) then
    (read32 v.fatSector (fatByteOf cluster), v)
  else
    match exfatReadSector v (fatSectorOf v cluster) with
    | (none, v) => (0xFFFFFFFF, exfatFatCacheDrop v)
    | (some s, v) =>
      (read32 s (fatByteOf cluster),
        { v with fatSector := s, fatSectorNo := some (fatSectorOf v cluster) })

def bitInCluster (v : Vol) (bit : Nat) : Nat := bit / 8 % v.clusterSize * 8 + bit % 8

end Ezos.Exfat

/-!
# What a volume says

The FAT entry, the contents and the bitmap bit of a cluster, read off the disk without
the cache and without faults, and what a successful write does to them.
-/

namespace Ezos.Exfat

open Lib.Memory Lib.ByteBitmap

def fatAt (v : Vol) (c : U32) : U32 := read32 (v.disk (fatSectorOf v c)) (fatByteOf c)

def clusterAt (v : Vol) (c : U32) : Mem := fun x =>
  v.disk (firstSector v c + BitVec.ofNat 32 (x / bytesPerSector)) (x % bytesPerSector)

def bitmapClusterAt (v : Vol) : Nat → U32
  | 0 => v.mount.bitmapCluster
  | idx + 1 => fatAt v (bitmapClusterAt v idx)

def bitmapBit (v : Vol) (c : U32) : Bool :=
  getBit (clusterAt v (bitmapClusterAt v ((c - 2).toNat / 8 / v.clusterSize)))
    (bitInCluster v (c - 2).toNat)

@[simp] theorem sectorOf_of_lt {buf : Mem} {off x : Nat} (h : x < 512) :
    sectorOf buf off x = buf (off + x) := if_pos h

@[simp] theorem sectorOf_sectorOf (buf : Mem) (off : Nat) :
    sectorOf (sectorOf buf off) 0 = sectorOf buf off := by
  funext x
  unfold sectorOf
  split
  · rw [Nat.zero_add, if_pos ‹_›]
  · rfl

theorem read32_sectorOf (buf : Mem) {a : Nat} (h : a + 4 ≤ 512) :
    read32 (sectorOf buf 0) a = read32 buf a :=
  read32_congr fun x hlo hhi => by rw [sectorOf_of_lt (by omega), Nat.zero_add]

theorem getBit_sectorOf (buf : Mem) {i : Nat} (h : i < 4096) :
    getBit (sectorOf buf 0) i = getBit buf i :=
  getBit_congr (by rw [sectorOf_of_lt (by omega), Nat.zero_add])

theorem access_eq (v : Vol) (write : Bool) (lba : U32) :
    ∃ g, (v.access write lba).2 = { v with fault := g } := by
  unfold Vol.access
  cases v.fault with
  | none => exact ⟨v.fault, rfl⟩
  | some f =>
    dsimp only
    split
    · split
      · exact ⟨none, rfl⟩
      · exact ⟨_, rfl⟩
    · exact ⟨v.fault, rfl⟩

structure Stands (v v' : Vol) (d : U32 → Mem) : Prop where
  mount : v'.mount = v.mount
  cwd : v'.cwd = v.cwd
  disk : v'.disk = d

def putSector (d : U32 → Mem) (lba : U32) (m : Mem) : U32 → Mem := fun s =>
  if s = lba then m else d s

theorem Stands.trans {u v w : Vol} {d e : U32 → Mem} (h : Stands u v d) (h' : Stands v w e) :
    Stands u w e := ⟨h'.mount.trans h.mount, h'.cwd.trans h.cwd, h'.disk⟩

theorem exfatReadSector_stands (v : Vol) (lba : U32) :
    Stands v (exfatReadSector v lba).2 v.disk := by
  obtain ⟨g, hg⟩ := access_eq v false lba
  unfold exfatReadSector
  generalize hr : v.access false lba = r at hg
  obtain ⟨ok, u⟩ := r
  obtain rfl : u = { v with fault := g } := hg
  cases ok <;> exact ⟨rfl, rfl, rfl⟩

theorem exfatWriteSector_stands {v v' : Vol} {lba : U32} {m : Mem}
    (h : exfatWriteSector v lba m = (true, v')) :
    Stands v v' (putSector v.disk lba (sectorOf m 0)) := by
  obtain ⟨g, hg⟩ := access_eq v true lba
  unfold exfatWriteSector at h
  generalize hr : v.access true lba = r at hg h
  obtain ⟨ok, u⟩ := r
  obtain rfl : u = { v with fault := g } := hg
  cases ok with
  | true =>
    obtain rfl := (Prod.mk.inj h).2
    exact ⟨rfl, rfl, rfl⟩
  | false => exact nomatch (Prod.mk.inj h).1

end Ezos.Exfat
