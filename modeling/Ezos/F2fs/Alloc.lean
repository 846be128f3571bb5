import Ezos.F2fs.Volume

/-!
# Allocating blocks (`f2_curseg_get`, `f2_sit_update`, `f2_alloc_data_block`, `f2_free_block`)

The main area is cut into segments. The segment table (SIT) has an entry for each: the number of valid blocks and the type of
its log in one word, then a map of the valid blocks, then a time.
-/

namespace Ezos.F2fs

open Lib.Memory Lib.FaultyStore

set_option autoImplicit false

abbrev U16 := BitVec 16

def nrCursegDataType : Nat := 3
def nrCursegType : Nat := 6
def cursegHotData : Nat := 0
def cursegHotNode : Nat := 3

def sitJentrySize : Nat := 78
def sitEntrySize : Nat := 74
def sitEntryPerBlock : U32 := 55
def sitVblockMapSize : Nat := 64
def sitVblocksShift : Nat := 10
def sitVblocksMask : U16 := 0x3FF

def f2SetBitBe (nr : Nat) (m : Mem) (p : Nat) : Mem := fun x =>
  if x = p + nr / 8 then m x ||| ((1 : Byte) <<< (7 - nr % 8)) else m x

def f2ClearBitBe (nr : Nat) (m : Mem) (p : Nat) : Mem := fun x =>
  if x = p + nr / 8 then m x &&& ~~~((1 : Byte) <<< (7 - nr % 8)) else m x

def f2WriteBlock (v : Vol) (blk : U32) (buf : Mem) : Vol := { v with disk := put (blockWrites v.part blk buf) v.disk }

def f2SegnoOf (v : Vol) (blkaddr : U32) : U32 := (blkaddr - v.geo.mainBlkaddr) / v.geo.bps

def f2OffInSeg (v : Vol) (blkaddr : U32) : U32 := (blkaddr - v.geo.mainBlkaddr) % v.geo.bps

def sitBlock (v : Vol) (segno : U32) : U32 := v.geo.sitBlkaddr + segno / sitEntryPerBlock

def sitEntry (segno : U32) : Nat := (segno % sitEntryPerBlock).toNat * sitEntrySize

def curSegAt (type : Nat) : Nat :=
  if type < nrCursegDataType then cpOffCurDataSeg + type * 4 else cpOffCurNodeSeg + (type - nrCursegDataType) * 4

def curBlkoffAt (type : Nat) : Nat :=
  if type < nrCursegDataType then cpOffCurDataBlkoff + type * 2 else cpOffCurNodeBlkoff + (type - nrCursegDataType) * 2

def sitJentry (type : Nat) : Nat := 2 + type * sitJentrySize

def sitEdit (buf : Mem) (se : Nat) (off : Nat) (set : Bool) (cpVer : U32) : Mem :=
  let vblocks := read16 buf se &&& sitVblocksMask
  let type := read16 buf se &&& ~~~sitVblocksMask
  let map := if set then f2SetBitBe off buf (se + 2) else f2ClearBitBe off buf (se + 2)
  let count := if set then vblocks + 1 else if vblocks ≠ 0 then vblocks - 1 else vblocks
  write64 (write16 map se (type ||| count)) (se + 2 + sitVblockMapSize) (cpVer.setWidth 64)

def sitJournal (sitj buf : Mem) (se curType : Nat) (segno cpVer : U32) : Mem :=
  let sj := sitJentry curType
  let sitj := write32 sitj sj segno
  let sitj := write16 sitj (sj + 4) (read16 buf se)
  let sitj := copyIn sitj (sj + 6) sitVblockMapSize fun i => buf (se + 2 + i)
  write64 sitj (sj + 4 + 2 + sitVblockMapSize) (cpVer.setWidth 64)

def f2SitUpdate (v : Vol) (segno offInSeg : U32) (set : Bool) : Option Vol :=
  if v.geo.mainSegs ≤ segno then none else
  let blk := sitBlock v segno
  let se := sitEntry segno
  let old := f2ReadBlock v.disk v.part blk
  let buf := sitEdit old se offInSeg.toNat set v.cpVer
  let v := f2WriteBlock v blk buf
  let curType := (read16 old se >>> sitVblocksShift).toNat
  some (if curType < nrCursegType ∧ read32 v.cp (curSegAt curType) = segno then
    { v with sitj := sitJournal v.sitj buf se curType segno v.cpVer } else v)

def f2Vblocks (v : Vol) (segno : U32) : U16 :=
  read16 (f2ReadBlock v.disk v.part (sitBlock v segno)) (sitEntry segno) &&& sitVblocksMask

def f2ValidBit (v : Vol) (segno : U32) (off : Nat) : Bool :=
  f2TestBitBe off fun i => f2ReadBlock v.disk v.part (sitBlock v segno) (sitEntry segno + 2 + i)

def nextFree (v : Vol) (next : U32) : Option U32 :=
  ((List.range' next.toNat (v.geo.mainSegs.toNat - next.toNat)).find? fun n => f2Vblocks v (BitVec.ofNat 32 n) = 0).map
    (BitVec.ofNat 32)

def sitRetype (v : Vol) (segno : U32) (type : Nat) : Vol :=
  let blk := sitBlock v segno
  let buf := f2ReadBlock v.disk v.part blk
  f2WriteBlock v blk (write16 buf (sitEntry segno)
    ((read16 buf (sitEntry segno) &&& sitVblocksMask) ||| BitVec.ofNat 16 (type <<< sitVblocksShift)))

def cursegStep (v : Vol) (type : Nat) (segno : U32) (blkoff : U16) : U32 × Vol :=
  (v.geo.mainBlkaddr + segno * v.geo.bps + blkoff.setWidth 32,
    { v with cp := write16 v.cp (curBlkoffAt type) (blkoff + 1) })

def cursegRetype (v : Vol) (type : Nat) (segno next : U32) : Vol :=
  sitRetype (if segno ≠ 0xFFFFFFFF ∧ segno < v.geo.mainSegs then sitRetype v segno 0 else v) next type

def cursegMove (v : Vol) (type : Nat) (segno next : U32) : Vol :=
  let v := cursegRetype v type segno next
  let sj := sitJentry type
  let sitj := write32 v.sitj sj next
  let word := BitVec.ofNat 16 (type <<< sitVblocksShift) ||| (read16 sitj (sj + 4) &&& sitVblocksMask)
  { v with
    sitj := write16 sitj (sj + 4) word
    cp := write16 (write32 v.cp (curSegAt type) next) (curBlkoffAt type) 0 }

def f2CursegGet (v : Vol) (type : Nat) : U32 × Vol :=
  let segno := read32 v.cp (curSegAt type)
  let blkoff := read16 v.cp (curBlkoffAt type)
  if segno = 0xFFFFFFFF ∨ v.geo.bps ≤ blkoff.setWidth 32 then
    match nextFree v (if segno = 0xFFFFFFFF then 0 else segno + 1) with
    | none => (0, v)
    | some next => cursegStep (cursegMove v type segno next) type next 0
  else cursegStep v type segno blkoff

def f2SsaUpdate (v : Vol) (segno offInSeg nid : U32) (ofsInNode : U16) (isNode : Bool) : Vol :=
  let blk := v.geo.ssaBlkaddr + segno
  let buf := f2ReadBlock v.disk v.part blk
  let kind : Byte := if isNode then 1 else 0
  let buf := if buf 4091 ≠ kind then fun x => if x = 4091 then kind else if sumEntriesSize ≤ x ∧ x < 4091 then 0 else buf x
    else buf
  let s := offInSeg.toNat * 7
  f2WriteBlock v blk (write16 (Function.update (write32 buf s nid) (s + 4) 0) (s + 5) ofsInNode)

def f2AllocBlock (v : Vol) (type : Nat) (nid : U32) (ofsInNode : U16) (isNode : Bool) : U32 × Vol :=
  match f2CursegGet v type with
  | (blk, v) =>
    if blk = 0 then (0, v) else
    match f2SitUpdate v (f2SegnoOf v blk) (f2OffInSeg v blk) true with
    | none => (0, v)
    | some v => (blk, f2SsaUpdate v (f2SegnoOf v blk) (f2OffInSeg v blk) nid ofsInNode isNode)

def f2AllocDataBlock (v : Vol) (nid : U32) (ofsInNode : U16) : U32 × Vol :=
  f2AllocBlock v cursegHotData nid ofsInNode false

def f2AllocNodeBlock (v : Vol) (nid : U32) : U32 × Vol := f2AllocBlock v cursegHotNode nid 0 true

def f2FreeBlock (v : Vol) (blkaddr : U32) : Vol :=
  if blkaddr = 0 ∨ blkaddr < v.geo.mainBlkaddr then v else
  let segno := f2SegnoOf v blkaddr
  if segno < v.geo.mainSegs then (f2SitUpdate v segno (f2OffInSeg v blkaddr) false).getD v else v

end Ezos.F2fs
