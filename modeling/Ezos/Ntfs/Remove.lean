import Ezos.Lib.FaultyStore
import Ezos.Ntfs.Index

/-!
# Removing a directory (`nt_write_record`, `nt_maps_load`, `nt_maps_save`, `nt_remove_entry`, `nt_indx_remove`,
`ntfs_rmdir`)

A function that changes a buffer returns it. The images of `ntfs_rmdir` are the buffers of its target.
-/

namespace Ezos.Ntfs

open Lib.Memory Lib.FaultyStore Exfat

set_option autoImplicit false

structure St where
  dev : Store U32 Mem
  usn : U32

def setUsn (buf : Mem) (usn : U32) : Mem := write16 buf (usaOff buf) (usn.setWidth 16)

def stampTails (pu : Nat) (l : List Nat) (buf : Mem) : Mem :=
  l.foldl (fun buf i => copy2 (copy2 buf (pu + 2 + i * 2) (i * 512 + 510)) (i * 512 + 510) pu) buf

def writeSecs (lba : Nat → Option U32) (buf : Mem) : List Nat → Store U32 Mem → Bool × Store U32 Mem
  | [], dev => (true, dev)
  | s :: l, dev =>
    match lba s with
    | none => (false, dev)
    | some a =>
      match dev.write a fun i => buf (s * 512 + i) with
      | (false, dev) => (false, dev)
      | (true, dev) => writeSecs lba buf l dev

def ntWriteRecord (m : Mnt) (st : St) (mftno : U32) (buf : Mem) : Bool × Mem × St :=
  if read32 buf 0 ≠ fileMagic then (false, buf, st) else
  let cnt := usaCount buf
  if cnt = 0 ∨ (cnt - 1) * 512 ≠ m.recBytes then (false, buf, st) else
  let pu := usaOff buf
  let usn := st.usn + 1
  let buf := stampTails pu (List.range (cnt - 1)) (setUsn buf usn)
  let (ok, dev) := writeSecs (m.recLba mftno) buf (List.range m.recSecs) st.dev
  (ok, buf, { dev, usn })

def ntWriteIndx (m : Mnt) (st : St) (rec : Mem) (vcn : Nat) (indx : Mem) : Bool × St :=
  match indxSecs m rec vcn with
  | none => (false, st)
  | some lbas =>
    let usn := st.usn + 1
    let pu := usaOff indx
    let indx := setUsn indx usn
    let indx := stampTails pu (List.range (usaCount indx - 1)) indx
    let (ok, dev) := writeSecs (fun s => lbas[s]?) indx (List.range m.idxSecs) st.dev
    (ok, { dev, usn })

/-- `nt_vbmp` with its length, and `nt_mbmp`. -/
structure Maps where
  vbmp : Mem
  vbmpLen : Nat
  mbmp : Mem

def ntMftRecMax : Nat := 64

def ntMbmpBytes : Nat := ntMftRecMax / 8

def bitmapValue (rec : Mem) (type : U32) : Option Nat :=
  match ntFindAttr rec type none with
  | none => none
  | some a => if resident rec a then some a else none

def valueBytes (rec : Mem) (a len : Nat) : Mem := fun i => if i < len then rec (valueOff rec a + i) else 0

/-- `nt_maps_load`, with `nt_child` as it is left. -/
def ntMapsLoad (m : Mnt) (disk : Device) (child : Mem) : Option (Maps × Mem) :=
  match ntReadRecord m disk ntBitmapFile child with
  | none => none
  | some rec6 =>
    match bitmapValue rec6 ntAtData with
    | none => none
    | some a6 =>
      match ntReadRecord m disk 0 rec6 with
      | none => none
      | some rec0 =>
        match bitmapValue rec0 ntAtBitmap with
        | none => none
        | some a0 =>
          let len := min (valueLen rec6 a6).toNat ntBitmapCap
          some
            ({ vbmp := valueBytes rec6 a6 len
               vbmpLen := len
               mbmp := valueBytes rec0 a0 (min (valueLen rec0 a0).toNat ntMbmpBytes) }, rec0)

/-- Half of `nt_maps_save`: a bitmap into the value of its record. -/
def saveMap (m : Mnt) (st : St) (child : Mem) (mftno type : U32) (bmp : Mem) (room : Nat) : Bool × Mem × St :=
  match ntReadRecord m st.dev.cells mftno child with
  | none => (false, child, st)
  | some rec =>
    match bitmapValue rec type with
    | none => (false, rec, st)
    | some a =>
      ntWriteRecord m st mftno (copyIn rec (valueOff rec a) (min (valueLen rec a).toNat room) bmp)

def ntMapsSave (m : Mnt) (st : St) (child : Mem) (maps : Maps) : Bool × Mem × St :=
  match saveMap m st child ntBitmapFile ntAtData maps.vbmp maps.vbmpLen with
  | (false, child, st) => (false, child, st)
  | (true, child, st) => saveMap m st child 0 ntAtBitmap maps.mbmp ntMbmpBytes

def clearBit (bmp : Mem) (i : Nat) : Mem := write8 bmp (i / 8) (bmp (i / 8) &&& ~~~((1 : U8) <<< (i % 8)))

def ntFreeMft (maps : Maps) (mftno : U32) : Maps :=
  if mftno.toNat < ntMftRecMax then { maps with mbmp := clearBit maps.mbmp mftno.toNat } else maps

def ntFreeCluster (maps : Maps) (lcn : Nat) : Maps :=
  if lcn / 8 < maps.vbmpLen then { maps with vbmp := clearBit maps.vbmp lcn } else maps

def ntFreeRunsFrom (m : Mnt) (rec : Mem) (fin : Nat) : Nat → Nat → U64 → Maps → Maps
  | 0, _, _, maps => maps
  | n + 1, run, lcn, maps =>
    if fin ≤ run then maps else
    let c1 := runLenBytes rec run
    let c2 := runOffBytes rec run
    if c1 = 0 then maps
    else if fin - (run + 1) < c1 + c2 then maps else
    let len := ntRunRead rec (run + 1) c1 false
    let off := ntRunRead rec (run + 1 + c1) c2 true
    let lcn := lcn + off
    let count := if off = 0 then 0 else min len.toNat (m.totalClusters - lcn.toNat)
    ntFreeRunsFrom m rec fin n (run + 1 + c1 + c2) lcn
      ((List.range count).foldl (fun maps i => ntFreeCluster maps (lcn.toNat + i)) maps)

/-- `nt_free_data_runs` of an attribute of a record. -/
def ntFreeDataRuns (m : Mnt) (rec : Mem) (a : Option Nat) (maps : Maps) : Maps :=
  match a with
  | none => maps
  | some a =>
    if resident rec a then maps
    else ntFreeRunsFrom m rec (runOff rec a + ntAttrRunMax m rec a) (ntAttrRunMax m rec a + 1) (runOff rec a) 0 maps

def cutOut (buf : Mem) (off : Nat) (len fin : U32) : Mem := fun x =>
  if (fin - len).toNat ≤ x ∧ x < fin.toNat then 0
  else if off ≤ x ∧ x + len.toNat < fin.toNat then buf (x + len.toNat)
  else buf x

def ntRemoveEntry (dirrec : Mem) (off : Nat) : Option Mem :=
  match ntGetIndexRoot dirrec with
  | none => none
  | some root =>
    let rootAlen := read32 dirrec (root + 4)
    let used := read32 dirrec 0x18
    let eLen : U32 := (read16 dirrec (off + 8)).setWidth 32
    let dirrec := cutOut dirrec off eLen used
    let dirrec := write32 dirrec (root + 4) (rootAlen - eLen)
    let dirrec := write32 dirrec 0x18 (used - eLen)
    let ir := valueOff dirrec root
    let dirrec := write32 dirrec (ir + 0x14) (read32 dirrec (ir + 0x14) - eLen)
    some (write32 dirrec (ir + 0x18) (read32 dirrec (ir + 0x18) - eLen))

def indxWithout (indx : Mem) (off : Nat) : Mem :=
  let eLen : U32 := (read16 indx (off + 8)).setWidth 32
  let idxLen := read32 indx 0x1C
  write32 (cutOut indx off eLen (0x18 + idxLen)) 0x1C (idxLen - eLen)

def ntIndxRemove (m : Mnt) (st : St) (rec indx : Mem) (vcn off : Nat) : Bool × St :=
  match ntReadIndx m st.dev.cells rec vcn indx with
  | none => (false, st)
  | some indx => ntWriteIndx m st rec vcn (indxWithout indx off)

/-- What `nt_rec`, `nt_child` and `nt_indx` hold when the call begins. -/
structure Scratch where
  ntRec : Mem
  ntChild : Mem
  ntIndx : Mem

def dot : U8 := 0x2E

def ntUtf16Units (name : List U8) : Nat :=
  match utf8ToUtf16 name 256 with
  | none => 0
  | some us => if 255 < us.length then 0 else us.length

/-- What the checks of the call find: the parent and its record, the entry, the record of the child, the bitmaps. -/
structure Target where
  parent : U32
  parentSave : Mem
  loc : Loc
  childSave : Mem
  maps : Maps

def rmdirTarget (m : Mnt) (disk : Device) (sc : Scratch) (path : List U8) : Option Target :=
  match ntSplitPath path with
  | none => none
  | some (parentPath, fname) =>
    if fname = [dot] ∨ fname = [dot, dot] then none
    else if ntUtf16Units fname = 0 then none else
    match ntMapsLoad m disk sc.ntChild with
    | none => none
    | some (maps, child) =>
      match ntResolveDir m disk sc.ntIndx sc.ntRec parentPath with
      | none => none
      | some (parent, rec) =>
        match ntFindLoc m disk sc.ntIndx rec fname m.idxBytes with
        | none => none
        | some loc =>
          match ntReadRecord m disk loc.ref child with
          | none => none
          | some child =>
            if ¬ ntRecIsDir child then none else
            match ntDirWalk m disk sc.ntIndx child ntRmdirCountCb 0 with
            | none => none
            | some n =>
              if 0 < n then none
              else if m.recBytes = 0 ∨ ntMaxRec < m.recBytes then none
              else if maps.vbmpLen = 0 ∨ ntBitmapCap < maps.vbmpLen then none
              else some { parent, parentSave := rec, loc, childSave := child, maps }

def takeEntry (m : Mnt) (indx : Mem) (t : Target) (st : St) : Bool × Mem × St :=
  if t.loc.inIndx then
    let (ok, st) := ntIndxRemove m st t.parentSave indx t.loc.vcn t.loc.off
    (ok, t.parentSave, st)
  else
    match ntRemoveEntry t.parentSave t.loc.off with
    | none => (false, t.parentSave, st)
    | some rec => (true, rec, st)

def rollback (m : Mnt) (t : Target) (rec child : Mem) (st : St) : St :=
  match ntWriteRecord m st t.parent (copyIn rec 0 m.recBytes t.parentSave) with
  | (false, _, st) => st
  | (true, _, st) =>
    let (_, child, st) := ntWriteRecord m st t.loc.ref (copyIn child 0 m.recBytes t.childSave)
    (ntMapsSave m st child t.maps).2.2

def freedMaps (m : Mnt) (t : Target) : Maps :=
  ntFreeMft (ntFreeDataRuns m t.childSave (ntFindAttr t.childSave ntAtIndexAlloc (some i30)) t.maps) t.loc.ref

/-- The child marked unused and everything written, `rec` being the record of the parent without the entry. -/
def commitWrites (m : Mnt) (t : Target) (rec : Mem) (st : St) : Bool × St :=
  match ntWriteRecord m st t.parent rec with
  | (false, rec, st) => (false, rollback m t rec (write16 t.childSave 0x16 0) st)
  | (true, rec, st) =>
    match ntWriteRecord m st t.loc.ref (write16 t.childSave 0x16 0) with
    | (false, child, st) => (false, rollback m t rec child st)
    | (true, child, st) =>
      match ntMapsSave m st child (freedMaps m t) with
      | (false, child, st) => (false, rollback m t rec child st)
      | (true, _, st) => (true, st)

def rmdirCommit (m : Mnt) (indx : Mem) (t : Target) (st : St) : Bool × St :=
  match takeEntry m indx t st with
  | (false, _, st) => (false, st)
  | (true, rec, st) => commitWrites m t rec st

def ntfsRmdir (m : Mnt) (heap : Nat → Bool) (sc : Scratch) (path : List U8) (st : St) : Bool × St :=
  match rmdirTarget m st.dev.cells sc path with
  | none => (false, st)
  | some t => if (List.range 4).all heap then rmdirCommit m sc.ntIndx t st else (false, st)

end Ezos.Ntfs
