import Ezos.Types
import Ezos.Lib.Memory
import Ezos.Lib.FaultyStore

/-!
# A mounted F2FS volume (`f2_validate_cp`, `f2_load_nat_journal`, `f2_read_node`, `f2fs_mount`)

A device is its sectors of 512 bytes, and reads of it succeed. A buffer holds one block of eight sectors; what lies behind
it is not modelled and reads as zeros.
-/

namespace Ezos.F2fs

open Lib.Memory

set_option autoImplicit false

abbrev U64 := BitVec 64

abbrev Device := U32 → Mem

def superMagic : U32 := 0xF2F52010
def crcPolyLe : U32 := 0xEDB88320
def checksumOffset : U32 := 4092

def cpCompactSumFlag : U32 := 4
def cpUmountFlag : U32 := 1

/-- `SUM_ENTRIES_SIZE`, `SUM_JOURNAL_SIZE`, `JENTRY_SIZE` and `NAT_JOURNAL_MAX`. -/
def sumEntriesSize : Nat := 3584
def sumJournalSize : Nat := 507
def jentrySize : Nat := 13
def natJournalMax : Nat := 38

def natEntrySize : Nat := 9
def natEntryPerBlock : U32 := 455

def sbOffLogSec : Nat := 8
def sbOffLogSpb : Nat := 12
def sbOffLogBlk : Nat := 16
def sbOffLogBps : Nat := 20
def sbOffBlockCount : Nat := 36
def sbOffSegMain : Nat := 68
def sbOffCpBlkaddr : Nat := 76
def sbOffSitBlkaddr : Nat := 80
def sbOffNatBlkaddr : Nat := 84
def sbOffSsaBlkaddr : Nat := 88
def sbOffMainBlkaddr : Nat := 92
def sbOffRootIno : Nat := 96

def cpOffVer : Nat := 0
def cpOffValidBlocks : Nat := 16
def cpOffCurNodeSeg : Nat := 36
def cpOffCurNodeBlkoff : Nat := 68
def cpOffCurDataSeg : Nat := 84
def cpOffCurDataBlkoff : Nat := 116
def cpOffCkptFlags : Nat := 132
def cpOffPackTotal : Nat := 136
def cpOffPackStartSum : Nat := 140
def cpOffValidNodes : Nat := 144
def cpOffValidInodes : Nat := 148
def cpOffSitVerBytes : Nat := 156
def cpOffCksumOff : Nat := 164
def cpOffBitmap : Nat := 192

def inoOffMode : Nat := 0

def sectorOf (part blk : U32) (i : Nat) : U32 := part + blk * 8 + BitVec.ofNat 32 i

def f2ReadBlock (d : Device) (part blk : U32) : Mem := fun x =>
  if x < 4096 then d (sectorOf part blk (x / 512)) (x % 512) else 0

def crcBit (crc : U32) : U32 := (crc >>> 1) ^^^ (if crc &&& 1 ≠ 0 then crcPolyLe else 0)

def crcByte (crc : U32) (b : Byte) : U32 := (List.range 8).foldl (fun crc _ => crcBit crc) (crc ^^^ b.setWidth 32)

def f2Crc32 (buf : Mem) (len : Nat) : U32 := (List.range len).foldl (fun crc i => crcByte crc (buf i)) superMagic

def f2TestBitBe (nr : Nat) (p : Nat → Byte) : Bool := (p (nr / 8)).getLsbD (7 - nr % 8)

/-- What the superblock says (`f2_bps`, `f2_cp_blkaddr` and so on). -/
structure Geometry where
  bps : U32
  cpBlkaddr : U32
  sitBlkaddr : U32
  natBlkaddr : U32
  ssaBlkaddr : U32
  mainBlkaddr : U32
  rootIno : U32
  totalBlocks : U32
  mainSegs : U32

def sbOf (d : Device) (part : U32) : Mem := fun x => d (part + 2 + BitVec.ofNat 32 (x / 512)) (x % 512)

def f2Geometry (d : Device) (part : U32) : Option Geometry :=
  let sb := sbOf d part
  if read32 sb 0 ≠ superMagic then none else
  if read32 sb sbOffLogBlk ≠ 12 then none else
  let logSec := read32 sb sbOffLogSec
  let logSpb := read32 sb sbOffLogSpb
  if logSec < 9 ∨ 12 < logSec then none else
  if logSec + logSpb ≠ 12 then none else
  let logBps := read32 sb sbOffLogBps
  if logBps < 1 ∨ 10 < logBps then none else
  let g : Geometry :=
    { bps := 1 <<< logBps.toNat
      cpBlkaddr := read32 sb sbOffCpBlkaddr
      sitBlkaddr := read32 sb sbOffSitBlkaddr
      natBlkaddr := read32 sb sbOffNatBlkaddr
      ssaBlkaddr := read32 sb sbOffSsaBlkaddr
      mainBlkaddr := read32 sb sbOffMainBlkaddr
      rootIno := read32 sb sbOffRootIno
      totalBlocks := (read64 sb sbOffBlockCount).setWidth 32
      mainSegs := read32 sb sbOffSegMain }
  if g.rootIno < 3 ∨ g.totalBlocks < 16 ∨ g.totalBlocks ≤ g.mainBlkaddr ∨ g.mainSegs = 0 then none else some g

def CpSound (buf : Mem) : Prop :=
  read32 buf cpOffCksumOff = checksumOffset ∧ f2Crc32 buf checksumOffset.toNat = read32 buf checksumOffset.toNat

instance (buf : Mem) : Decidable (CpSound buf) := inferInstanceAs (Decidable (_ ∧ _))

/-- `f2_validate_cp`: the version of a pack whose first and last block pass. -/
def f2ValidateCp (d : Device) (part bps cpAddr : U32) : Option U64 :=
  let head := f2ReadBlock d part cpAddr
  if ¬ CpSound head then none else
  let total := read32 head cpOffPackTotal
  if total = 0 ∨ bps < total then none else
  let tail := f2ReadBlock d part (cpAddr + total - 1)
  if ¬ CpSound tail then none else
  if read64 tail cpOffVer ≠ read64 head cpOffVer then none else some (read64 tail cpOffVer)

def packOf (g : Geometry) (ver : U64) : U32 := if ver &&& 1 ≠ 0 then g.cpBlkaddr else g.cpBlkaddr + g.bps

/-- The pack whose first block `f2fs_mount` reads to learn the version. -/
def f2PickCp (d : Device) (part : U32) (g : Geometry) : Option U32 :=
  let v1 := f2ValidateCp d part g.bps g.cpBlkaddr
  let v2 := f2ValidateCp d part g.bps (g.cpBlkaddr + g.bps)
  if v1.isSome ∧ v2.isSome then
    some (if v1.getD 0 < v2.getD 0 then g.cpBlkaddr + g.bps else g.cpBlkaddr)
  else if v1.isSome then some g.cpBlkaddr
  else if v2.isSome then some (g.cpBlkaddr + g.bps)
  else none

/-- The pack that is read as the current one (`f2_start_cp`). -/
def f2StartCp (d : Device) (part : U32) (g : Geometry) : Option U32 :=
  (f2PickCp d part g).map fun cpAddr => packOf g (read64 (f2ReadBlock d part cpAddr) cpOffVer)

def f2JournalOff (cp : Mem) : U32 :=
  if read32 cp cpOffCkptFlags &&& cpCompactSumFlag ≠ 0 then read32 cp cpOffPackStartSum
  else if read32 cp cpOffCkptFlags &&& cpUmountFlag ≠ 0 then read32 cp cpOffPackTotal - 7
  else read32 cp cpOffPackTotal - 4

/-- The two journals, `f2_natj` and `f2_sitj`. -/
def f2LoadNatJournal (d : Device) (part startCp : U32) (cp : Mem) : Mem × Mem :=
  let buf := f2ReadBlock d part (startCp + f2JournalOff cp)
  if read32 cp cpOffCkptFlags &&& cpCompactSumFlag ≠ 0 then (buf, fun i => buf (sumJournalSize + i))
  else (fun i => buf (sumEntriesSize + i), zeros)

structure Vol where
  disk : Device
  part : U32
  geo : Geometry
  startCp : U32
  /-- The low half of the version (`f2_cp_ver`). -/
  cpVer : U32
  sitBytes : U32
  cp : Mem
  natj : Mem
  sitj : Mem

/-- What `f2fs_mount` takes from the pack at `startCp`, the version being read already. -/
def loaded (d : Device) (part payload : U32) (g : Geometry) (ver : U64) (startCp : U32) : Vol :=
  let cp := f2ReadBlock d part startCp
  let j := f2LoadNatJournal d part startCp cp
  { disk := d, part, geo := g, startCp
    cpVer := ver.setWidth 32
    sitBytes := if payload = 0 then read32 cp cpOffSitVerBytes else 0
    cp, natj := j.1, sitj := j.2 }

/-- Everything that `f2fs_mount` reads before it turns to the root. The payload count stands behind the two sectors that are
read of the superblock: `payload` is what the stack held there. -/
def f2Load (d : Device) (part payload : U32) : Option Vol := do
  let g ← f2Geometry d part
  let cpAddr ← f2PickCp d part g
  let startCp ← f2StartCp d part g
  if payload = 0 ∧ 3903 < read32 (f2ReadBlock d part startCp) cpOffSitVerBytes then none
  else some (loaded d part payload g (read64 (f2ReadBlock d part cpAddr) cpOffVer) startCp)

def natJentry (i : Nat) : Nat := 2 + i * jentrySize

def natJournalCount (natj : Mem) : Nat := min (read16 natj 0).toNat natJournalMax

def f2JournalLookup (natj : Mem) (nid : U32) : U32 :=
  match (List.range (natJournalCount natj)).find? fun i => read32 natj (natJentry i) = nid with
  | some i => read32 natj (natJentry i + 9)
  | none => 0

def f2NatBitmap (v : Vol) : Nat → Byte := fun i => v.cp (cpOffBitmap + v.sitBytes.toNat + i)

def natBlockAddr (v : Vol) (blockOff : U32) : U32 :=
  v.geo.natBlkaddr + ((blockOff / v.geo.bps * v.geo.bps) <<< 1) + (blockOff &&& (v.geo.bps - 1))

def f2NatLookup (v : Vol) (nid : U32) : U32 :=
  let blkaddr := f2JournalLookup v.natj nid
  if blkaddr ≠ 0 then blkaddr else
  let blockOff := nid / natEntryPerBlock
  let addr := natBlockAddr v blockOff
  let addr := if f2TestBitBe blockOff.toNat (f2NatBitmap v) then addr + v.geo.bps else addr
  read32 (f2ReadBlock v.disk v.part addr) ((nid % natEntryPerBlock).toNat * natEntrySize + 5)

def f2ReadNode (v : Vol) (nid : U32) : Option Mem :=
  let blkaddr := f2NatLookup v nid
  if blkaddr = 0 ∨ blkaddr < v.geo.mainBlkaddr then none else some (f2ReadBlock v.disk v.part blkaddr)

def isDirNode (node : Mem) : Bool := read16 node inoOffMode &&& 0xF000 = 0x4000

def f2fsMount (d : Device) (part payload : U32) : Option Vol := do
  let v ← f2Load d part payload
  let root ← f2ReadNode v v.geo.rootIno
  if isDirNode root then some v else none

end Ezos.F2fs

/-!
## Writing a checkpoint (`f2_cp_commit`)

The sectors go out in the order of the list: first and last block of the pack, then the journals, then the summaries of the
node logs.
-/

namespace Ezos.F2fs

open Lib.Memory Lib.FaultyStore

def blockWrites (part blk : U32) (buf : Mem) : List (U32 × Mem) :=
  (List.range 8).map fun i => (sectorOf part blk i, fun x => buf (i * 512 + x))

def cpBumped (cp : Mem) (dBlocks dNodes dInodes : Int) : Mem :=
  let cp := write64 cp cpOffValidBlocks (read64 cp cpOffValidBlocks + BitVec.ofInt 64 dBlocks)
  let cp := write32 cp cpOffValidNodes (read32 cp cpOffValidNodes + BitVec.ofInt 32 dNodes)
  let cp := write32 cp cpOffValidInodes (read32 cp cpOffValidInodes + BitVec.ofInt 32 dInodes)
  let cp := write64 cp cpOffVer (read64 cp cpOffVer + 1)
  write32 cp cpOffCksumOff checksumOffset

def cpNext (cp : Mem) (dBlocks dNodes dInodes : Int) : Mem :=
  let cp := cpBumped cp dBlocks dNodes dInodes
  write32 cp checksumOffset.toNat (f2Crc32 cp checksumOffset.toNat)

def compactSum (natj sitj : Mem) : Mem := fun x =>
  if x < sumJournalSize then natj x
  else if x < sumJournalSize + sumJournalSize then sitj (x - sumJournalSize)
  else 0

def nodeSum (d : Device) (v : Vol) (cp : Mem) (t : Nat) : Mem :=
  let segno := read32 cp (cpOffCurNodeSeg + t * 4)
  if segno = 0xFFFFFFFF ∨ v.geo.mainSegs ≤ segno then fun x => if x = 4091 then 1 else 0
  else
    let buf := f2ReadBlock d v.part (v.geo.ssaBlkaddr + segno)
    if buf 4091 ≠ 1 then fun x => if x = 4091 then 1 else if sumEntriesSize ≤ x ∧ x < 4091 then 0 else buf x
    else buf

def packWrites (v : Vol) (cp : Mem) : List (U32 × Mem) :=
  let nextPack := packOf v.geo (read64 cp cpOffVer)
  blockWrites v.part nextPack cp ++
    (blockWrites v.part (nextPack + read32 cp cpOffPackTotal - 1) cp ++
      blockWrites v.part (nextPack + read32 cp cpOffPackStartSum) (compactSum v.natj v.sitj))

def sumWrites (v : Vol) (cp : Mem) : Nat → List (U32 × Mem)
  | 0 => packWrites v cp
  | t + 1 =>
    let ws := sumWrites v cp t
    ws ++ blockWrites v.part (packOf v.geo (read64 cp cpOffVer) + 2 + BitVec.ofNat 32 t) (nodeSum (put ws v.disk) v cp t)

/-- The sector writes of `f2_cp_commit` for the checkpoint `cp`. -/
def cpWrites (v : Vol) (cp : Mem) : List (U32 × Mem) := sumWrites v cp 3

def f2CpCommit (v : Vol) (dBlocks dNodes dInodes : Int) : Vol :=
  let cp := cpNext v.cp dBlocks dNodes dInodes
  { v with
    disk := put (cpWrites v cp) v.disk
    cp
    startCp := packOf v.geo (read64 cp cpOffVer)
    cpVer := (read64 cp cpOffVer).setWidth 32 }

def f2CpCrash (v : Vol) (dBlocks dNodes dInodes : Int) (k : Nat) : Device :=
  put ((cpWrites v (cpNext v.cp dBlocks dNodes dInodes)).take k) v.disk

variable {cp : Mem} {dBlocks dNodes dInodes : Int}

theorem read64_congr {m m' : Mem} {a : Nat} (h : ∀ x, a ≤ x → x < a + 8 → m' x = m x) : read64 m' a = read64 m a := by
  unfold read64
  rw [read32_congr fun x hlo hhi => h x hlo (by omega), read32_congr fun x hlo hhi => h x (by omega) (by omega)]

theorem write64_of_disjoint {m : Mem} {a x : Nat} {v : U64} (h : x < a ∨ a + 8 ≤ x) : write64 m a v x = m x := by
  unfold write64
  rw [write32_of_disjoint (by omega), write32_of_disjoint (by omega)]

theorem read64_write64_self (m : Mem) (a : Nat) (v : U64) : read64 (write64 m a v) a = v := by
  unfold read64 write64
  rw [read32_write32_self, read32_write32_of_disjoint _ _ (by omega), read32_write32_self]
  apply BitVec.eq_of_getLsbD_eq
  intro i hi
  simp only [BitVec.getLsbD_append, BitVec.getLsbD_setWidth, BitVec.getLsbD_ushiftRight]
  by_cases hlow : i < 32
  · simp [hlow]
  · have hback : 32 + (i - 32) = i := by omega
    have hhigh : i - 32 < 32 := by omega
    simp [hlow, hback, hhigh]

theorem f2Crc32_congr {m m' : Mem} {n : Nat} (h : ∀ x < n, m' x = m x) : f2Crc32 m' n = f2Crc32 m n := by
  unfold f2Crc32
  apply List.foldl_ext
  intro crc x hx
  rw [h x (List.mem_range.mp hx)]

theorem checksumOffset_nat : checksumOffset.toNat = 4092 := rfl

theorem cpNext_of_apart {x : Nat} (h : 8 ≤ x ∧ x < 16 ∨ 24 ≤ x ∧ x < 144 ∨ 152 ≤ x ∧ x < 164 ∨ 168 ≤ x ∧ x < 4092) :
    cpNext cp dBlocks dNodes dInodes x = cp x := by
  unfold cpNext cpBumped
  dsimp only [cpOffValidBlocks, cpOffValidNodes, cpOffValidInodes, cpOffVer, cpOffCksumOff, checksumOffset_nat]
  rw [write32_of_disjoint (by omega), write32_of_disjoint (by omega), write64_of_disjoint (by omega),
    write32_of_disjoint (by omega), write32_of_disjoint (by omega), write64_of_disjoint (by omega)]

theorem read32_cpNext {a : Nat} (h : 24 ≤ a ∧ a + 4 ≤ 144 ∨ 152 ≤ a ∧ a + 4 ≤ 164 ∨ 168 ≤ a ∧ a + 4 ≤ 4092) :
    read32 (cpNext cp dBlocks dNodes dInodes) a = read32 cp a :=
  read32_congr fun _ _ _ => cpNext_of_apart (by omega)

theorem read64_cpNext_ver : read64 (cpNext cp dBlocks dNodes dInodes) cpOffVer = read64 cp cpOffVer + 1 := by
  unfold cpNext cpBumped
  dsimp only [cpOffValidBlocks, cpOffValidNodes, cpOffValidInodes, cpOffVer, cpOffCksumOff, checksumOffset_nat]
  have hver : ∀ {m : Mem} {a : Nat} {v : Word}, 8 ≤ a → read64 (write32 m a v) 0 = read64 m 0 := fun ha =>
    read64_congr fun x _ hx => write32_of_disjoint (by omega)
  have hblocks : ∀ {m : Mem} {v : U64}, read64 (write64 m 16 v) 0 = read64 m 0 := fun {m v} =>
    read64_congr fun x _ hx => write64_of_disjoint (by omega)
  rw [hver (by omega), hver (by omega), read64_write64_self, hver (by omega), hver (by omega), hblocks]

theorem cpSound_cpNext : CpSound (cpNext cp dBlocks dNodes dInodes) := by
  unfold cpNext
  dsimp only
  constructor
  · rw [read32_write32_of_disjoint _ _ (Or.inr ?_)]
    · exact read32_write32_self _ _ _
    · decide
  · rw [read32_write32_self]
    exact f2Crc32_congr fun x hx => write32_of_disjoint (Or.inl hx)

end Ezos.F2fs
