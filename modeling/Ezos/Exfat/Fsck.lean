import Ezos.Exfat.Dir
import Ezos.Lib.Ring

/-!
# `exfat_fsck`

The checker marks every cluster that the directory tree reaches and compares the marks with
the allocation bitmap. The tree is walked breadth first through a ring buffer of 1024
directories. The head and tail indices are numbers without a bound; in the source they are
`int`.
-/

namespace Ezos.Exfat

open Lib.Memory Lib.ByteBitmap

set_option autoImplicit false

structure FsckReport where
  clustersTotal : U32
  badChain : U32
  loop : U32
  truncated : U32
  crosslink : U32
  orphan : U32
  freeButUsed : U32
  badEntry : U32
  firstBad : List U32
  deriving DecidableEq

def fsckBadMax : Nat := 8

def fsckRecordBad (r : FsckReport) (cluster : U32) : FsckReport :=
  if r.firstBad.length < fsckBadMax then { r with firstBad := r.firstBad ++ [cluster] } else r

def fsckMaxDirs : Nat := 1024

def fsckTruncated (need : U32) (checkLen : Bool) (steps : Nat) (r : FsckReport) : FsckReport :=
  if checkLen ∧ need ≠ 0 ∧ steps < need.toNat then { r with truncated := r.truncated + 1 } else r

def fsckMark (reach : Mem) (r : FsckReport) (c : U32) : Mem × FsckReport :=
  if getBit reach (c - 2).toNat then
    (reach, fsckRecordBad { r with crosslink := r.crosslink + 1 } c)
  else (setBit reach (c - 2).toNat, r)

/-- The loop of `exfat_fsck_chain` at cluster `c` after `steps` clusters; `left` is how many
more there may be until the chain counts as a loop. -/
def fsckChainLoop (v : Vol) (c need : U32) (nofat checkLen : Bool) (reach : Mem) (r : FsckReport)
    (steps left : Nat) : Mem × FsckReport × Vol :=
  if c < 2 ∨ c ≥ v.clusterLimit then
    (reach, fsckRecordBad { r with badChain := r.badChain + 1 } c, v)
  else
    let (reach, r) := fsckMark reach r c
    match left with
    | 0 => (reach, fsckRecordBad { r with loop := r.loop + 1 } c, v)
    | left + 1 =>
      if nofat then
        if steps + 1 ≥ need.toNat then (reach, fsckTruncated need checkLen (steps + 1) r, v)
        else fsckChainLoop v (c + 1) need nofat checkLen reach r (steps + 1) left
      else
        match exfatReadFatEntry v c with
        | (nxt, v) =>
          if nxt ≥ 0xFFFFFFF8 then (reach, fsckTruncated need checkLen (steps + 1) r, v)
          else if nxt = 0 then
            (reach, fsckRecordBad { r with freeButUsed := r.freeButUsed + 1 } c, v)
          else if nxt < 2 ∨ nxt ≥ v.clusterLimit then
            (reach, fsckRecordBad { r with badChain := r.badChain + 1 } c, v)
          else fsckChainLoop v nxt need nofat checkLen reach r (steps + 1) left

def exfatFsckChain (v : Vol) (first need : U32) (nofat checkLen : Bool) (reach : Mem)
    (r : FsckReport) : Mem × FsckReport × Vol :=
  if first < 2 then (reach, r, v)
  else fsckChainLoop v first need nofat checkLen reach r 0 v.info.clusterCount.toNat

/-- The bitmap's chain, read into `alloc`; the last argument is the guard. `none` is an
unreadable cluster. What the chain does not cover counts as free. -/
def readBitmap (v : Vol) (bmBytes cur off : Nat) (alloc dirbuf : Mem) : Nat → Option Mem × Mem × Vol
  | 0 => (some (fill alloc off (bmBytes - off) 0), dirbuf, v)
  | guard + 1 =>
    if off < bmBytes ∧ cur ≥ 2 ∧ cur < v.clusterLimit.toNat then
      match exfatReadCluster v (BitVec.ofNat 32 cur) dirbuf 0 with
      | (false, dirbuf, v) => (none, dirbuf, v)
      | (true, dirbuf, v) =>
        let n := min (bmBytes - off) v.clusterSize
        let alloc := copyIn alloc off n dirbuf
        match exfatReadFatEntry v (BitVec.ofNat 32 cur) with
        | (nxt, v) =>
          if nxt ≥ 0xFFFFFFF8 then
            (some (fill alloc (off + n) (bmBytes - (off + n)) 0), dirbuf, v)
          else readBitmap v bmBytes nxt.toNat (off + n) alloc dirbuf guard
    else (some (fill alloc off (bmBytes - off) 0), dirbuf, v)

structure FsckSet where
  first : U32
  dlen : BitVec 64
  nofat : Bool
  isDir : Bool
  slots : Nat

def isCritical (et : U8) : Bool :=
  et = 0x81 || et = 0x82 || et = 0x83 || et = 0x85 || et = 0xA0 || et = 0xA1 || et = 0xA2

def fsckReadSet (buf : Mem) (totalBytes off : Nat) : Option FsckSet :=
  let haveEc0 := decide (off + 32 ≤ totalBytes) && (buf (off + 32) == 0xC0)
  let nofat := buf (off + 33) &&& 0x02 != 0
  if buf off = 0x85 then
    if haveEc0 = false ∨ secCount buf off < 2 ∨ secCount buf off > 20 ∨
        off + (secCount buf off + 1) * 32 > totalBytes then none
    else
      some { first := read32 buf (off + 32 + 0x14), dlen := read64 buf (off + 32 + 0x18),
             nofat := nofat, isDir := buf (off + 4) &&& attrDirectory != 0,
             slots := secCount buf off + 1 }
  else if haveEc0 then
    some { first := read32 buf (off + 32 + 0x14), dlen := read64 buf (off + 32 + 0x18),
           nofat := nofat, isDir := false, slots := 2 }
  else
    some { first := read32 buf (off + 0x14), dlen := read64 buf (off + 0x18),
           nofat := false, isDir := false, slots := 1 }

def fsckNeed (s : FsckSet) (csize : Nat) : U32 :=
  let nn := (s.dlen + BitVec.ofNat 64 csize - 1) / BitVec.ofNat 64 csize
  let need : U32 := if s.dlen = 0 then 0 else if nn > 0xFFFFFFFF then 0xFFFFFFFF else nn.setWidth 32
  if s.nofat ∧ need = 0 then 1 else need

structure FsckState where
  vol : Vol
  reach : Mem
  report : FsckReport
  queue : Nat → U32
  head : Nat
  tail : Nat

def fsckPush (s : FsckState) (first : U32) : Option FsckState :=
  if s.tail - s.head ≥ fsckMaxDirs then none
  else some { s with queue := Lib.Ring.put s.queue (s.tail % fsckMaxDirs) first, tail := s.tail + 1 }

def fsckMarkSet (s : FsckState) (e : FsckSet) : FsckState :=
  match exfatFsckChain s.vol e.first (fsckNeed e s.vol.clusterSize) e.nofat (!e.isDir) s.reach
      s.report with
  | (reach, report, vol) => { s with reach := reach, report := report, vol := vol }

/-- The entry sets of one directory from `off` on; `fuel` is a bound on their number. The
first component is false when the queue overflows. -/
def fsckEntries (s : FsckState) (buf : Mem) (totalBytes off : Nat) : Nat → Bool × FsckState
  | 0 => (true, s)
  | fuel + 1 =>
    if off + 32 > totalBytes ∨ buf off = 0x00 then (true, s)
    else if isCritical (buf off) = false then fsckEntries s buf totalBytes (off + 32) fuel
    else
      match fsckReadSet buf totalBytes off with
      | none => (true, { s with report := { s.report with badEntry := s.report.badEntry + 1 } })
      | some e =>
        let s := fsckMarkSet s e
        if e.isDir ∧ e.first ≥ 2 ∧ e.first < s.vol.clusterLimit then
          match fsckPush s e.first with
          | none => (false, s)
          | some s => fsckEntries s buf totalBytes (off + e.slots * 32) fuel
        else fsckEntries s buf totalBytes (off + e.slots * 32) fuel

def fsckBfs (s : FsckState) (dirbuf : Mem) : Nat → Option (Bool × FsckState)
  | 0 => none
  | fuel + 1 =>
    if s.head < s.tail then
      if s.tail - s.head > fsckMaxDirs then some (false, s)
      else
        let d := s.queue (s.head % fsckMaxDirs)
        match exfatReadDirChain s.vol d dirbuf with
        | (n, dirbuf, vol) =>
          let s := { s with vol := vol, head := s.head + 1 }
          if n = 0 then fsckBfs s dirbuf fuel
          else
            match fsckEntries s dirbuf (n * vol.clusterSize) 0 (n * vol.clusterSize / 32 + 1) with
            | (false, s) => some (false, s)
            | (true, s) => fsckBfs s dirbuf fuel
    else some (true, s)

def fsckCompare (alloc reach : Mem) (r : FsckReport) (c : Nat) : Nat → FsckReport
  | 0 => r
  | n + 1 =>
    let r :=
      match getBit alloc (c - 2), getBit reach (c - 2) with
      | true, false => fsckRecordBad { r with orphan := r.orphan + 1 } (BitVec.ofNat 32 c)
      | false, true => fsckRecordBad { r with freeButUsed := r.freeButUsed + 1 } (BitVec.ofNat 32 c)
      | _, _ => r
    fsckCompare alloc reach r (c + 1) n

structure FsckBuffers where
  reach : Option Mem
  alloc : Option Mem
  dirbuf : Option Mem
  queue : Option (Nat → U32)

def bmBytes (v : Vol) : U32 := (v.info.clusterCount + 7) / 8

def fsckRun (v : Vol) (r : FsckReport) (reach alloc dirbuf : Mem) (queue : Nat → U32) (fuel : Nat) :
    Option (Int × FsckReport × Vol) :=
  let bm := (bmBytes v).toNat
  let reach := fill reach 0 bm 0
  let alloc := fill alloc 0 bm 0
  match readBitmap v bm v.mount.bitmapCluster.toNat 0 alloc dirbuf (v.clusterLimit.toNat + 1) with
  | (none, _, v) => some (-3, r, v)
  | (some alloc, dirbuf, v) =>
    let root := v.info.rootDirCluster
    match exfatFsckChain v root 0 false false reach r with
    | (reach, r, v) =>
      let s : FsckState := { vol := v, reach := reach, report := r,
                             queue := Lib.Ring.put queue 0 root, head := 0, tail := 1 }
      match fsckBfs s dirbuf fuel with
      | none => none
      | some (false, s) => some (-2, s.report, s.vol)
      | some (true, s) =>
        some (0, fsckCompare alloc s.reach s.report 2 (s.vol.clusterLimit.toNat - 2), s.vol)

/-- `exfat_fsck`; the traversal has served `fuel` directories when the result is `none`. -/
def exfatFsck (v : Vol) (r : FsckReport) (m : FsckBuffers) (fuel : Nat) :
    Option (Int × FsckReport × Vol) :=
  if v.mount.ready = false then some (-1, r, v)
  else
    let r := { r with clustersTotal := v.info.clusterCount }
    if v.info.clusterCount = 0 then some (-1, r, v)
    else
      match m.reach, m.alloc, m.dirbuf, m.queue with
      | some reach, some alloc, some dirbuf, some queue => fsckRun v r reach alloc dirbuf queue fuel
      | _, _, _, _ => some (-2, r, v)

end Ezos.Exfat
