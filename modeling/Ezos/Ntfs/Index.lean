import Ezos.Ntfs.Volume

/-!
# Directories and paths (`nt_walk_entries`, `nt_dir_walk`, `nt_resolve`, `nt_find_loc`, `nt_split_path`)

A callback takes its context and an entry to a new context, and says whether the walk of this node ends; the walk of
the directory goes on with the next node in either case.
-/

namespace Ezos.Ntfs

open Lib.Memory Exfat

set_option autoImplicit false

structure Ent where
  name : List U8
  ref : U32
  isDir : Bool
deriving DecidableEq

def ntAttrDirectory : U32 := 0x10000000

/-- `nt_utf16_to_ascii` into a buffer of 256 bytes; a name that has no room there is empty. -/
def ntUtf16ToAscii (buf : Mem) (a n : Nat) : List U8 := cstr ((utf16ToUtf8 (unitsAt buf a n) 256).getD [])

def entLen (buf : Mem) (pos : Nat) : Nat := (read16 buf (pos + 8)).toNat
def entLast (buf : Mem) (pos : Nat) : Bool := read16 buf (pos + 0xC) &&& 2 != 0
def entInner (buf : Mem) (pos : Nat) : Bool := read16 buf (pos + 0xC) &&& 1 != 0
def entNameLen (buf : Mem) (pos : Nat) : Nat := (buf (pos + 0x50)).toNat
def entDos (buf : Mem) (pos : Nat) : Bool := buf (pos + 0x51) == 2
def entRef (buf : Mem) (pos : Nat) : U32 := (read64 buf pos &&& 0xFFFFFFFFFFFF).setWidth 32
def entName (buf : Mem) (pos : Nat) : List U8 := ntUtf16ToAscii buf (pos + 0x52) (entNameLen buf pos)

def entAt (buf : Mem) (pos : Nat) : Ent :=
  { name := entName buf pos
    ref := entRef buf pos
    isDir := read32 buf (pos + 0x48) &&& ntAttrDirectory != 0 }

/-- `nt_index_entries`: where the entries behind the index header at `ih` begin. -/
def ntIndexEntries (buf : Mem) (fin ih : Nat) : Option Nat :=
  if fin ≤ ih then none
  else if fin - ih < 0x10 then none
  else if fin - ih - 0x10 < (read32 buf ih).toNat then none
  else some (ih + (read32 buf ih).toNat)

/-- The loop of `nt_walk_entries`. A round takes 16 bytes at least, so `fin` rounds are enough. -/
def ntWalkFrom {σ : Type} (buf : Mem) (fin : Nat) (cb : σ → Ent → σ × Bool) : Nat → Nat → σ → Option σ
  | 0, _, _ => none
  | n + 1, pos, ctx =>
    if fin < pos + 0x10 then none
    else if entLen buf pos < 0x10 ∨ fin - pos < entLen buf pos then none
    else if entLast buf pos then some ctx
    else if entInner buf pos then ntWalkFrom buf fin cb n (pos + entLen buf pos) ctx
    else if fin - pos < 0x52 then none
    else if 0 < entNameLen buf pos ∧ ¬ entDos buf pos then
      if fin - pos < 0x52 + entNameLen buf pos * 2 then none else
      match cb ctx (entAt buf pos) with
      | (ctx, true) => some ctx
      | (ctx, false) => ntWalkFrom buf fin cb n (pos + entLen buf pos) ctx
    else ntWalkFrom buf fin cb n (pos + entLen buf pos) ctx

def ntWalkEntries {σ : Type} (buf : Mem) (pos fin : Nat) (cb : σ → Ent → σ × Bool) (ctx : σ) : Option σ :=
  ntWalkFrom buf fin cb fin pos ctx

/-- `nt_get_index_root`: the attribute of the index root of a directory. -/
def ntGetIndexRoot (rec : Mem) : Option Nat :=
  match ntFindAttr rec ntAtIndexRoot (some i30) with
  | none => none
  | some root =>
    if ¬ resident rec root then none
    else if read32 rec (valueOff rec root) ≠ ntAtFilename then none
    else some root

/-- `nt_read_nres`, byte by byte: sparse runs are zeros. -/
def ntReadNres (m : Mnt) (disk : Device) (rec : Mem) (a : Nat) : Mem := fun i =>
  let run := a + (read16 rec (a + 0x20)).toNat
  match m.clusterLba (ntRunMap rec run (ntAttrRunMax m rec a) (BitVec.ofNat 32 (i / m.clusterBytes))) with
  | none => 0
  | some lba => disk (lba + BitVec.ofNat 32 (i % m.clusterBytes / 512)) (i % 512)

/-- `nt_load_bitmap`: the bytes of the bitmap of a directory and their number, 0 when there is none. -/
def ntLoadBitmap (m : Mnt) (disk : Device) (rec : Mem) : Mem × Nat :=
  match ntFindAttr rec ntAtBitmap (some i30) with
  | none => (zeros, 0)
  | some a =>
    if resident rec a then
      (fun i => rec (valueOff rec a + i), min (valueLen rec a).toNat ntBitmapCap)
    else (ntReadNres m disk rec a, min (read32 rec (a + 0x28)).toNat ntBitmapCap)

def bitAt (bmp : Mem) (i : Nat) : Bool := (bmp (i / 8)).getLsbD (i % 8)

def usedBlocks (bmp : Mem) (len : Nat) : List Nat := (List.range (8 * len)).filter fun i => bitAt bmp i

def runOff (rec : Mem) (a : Nat) : Nat := a + (read16 rec (a + 0x20)).toNat

def walkSecs (m : Mnt) (rec : Mem) (alloc blk : Nat) : Option (List U32) :=
  let b := blk * m.idxBytes
  let run := runOff rec alloc
  (m.clusterLba (ntRunMap rec run (ntRunMax m run) (BitVec.ofNat 32 (b / m.clusterBytes)))).map fun lba =>
    (List.range m.idxSecs).map fun s => lba + BitVec.ofNat 32 (b % m.clusterBytes / 512) + BitVec.ofNat 32 s

def walkBlock {σ : Type} (m : Mnt) (disk : Device) (indx rec : Mem) (alloc : Nat) (cb : σ → Ent → σ × Bool) (ctx : σ)
    (blk : Nat) : Option σ :=
  match walkSecs m rec alloc blk with
  | none => none
  | some lbas =>
    match ntFixup (gather disk lbas indx) m.idxBytes indxMagic with
    | none => none
    | some buf =>
      match ntIndexEntries buf m.idxBytes 0x18 with
      | none => none
      | some pos => ntWalkEntries buf pos m.idxBytes cb ctx

def ntDirWalk {σ : Type} (m : Mnt) (disk : Device) (indx rec : Mem) (cb : σ → Ent → σ × Bool) (ctx : σ) : Option σ :=
  match ntGetIndexRoot rec with
  | none => none
  | some root =>
    match ntIndexEntries rec m.recBytes (valueOff rec root + 0x10) with
    | none => none
    | some pos =>
      match ntWalkEntries rec pos m.recBytes cb ctx with
      | none => none
      | some ctx =>
        match ntFindAttr rec ntAtIndexAlloc (some i30) with
        | none => some ctx
        | some alloc =>
          if resident rec alloc then none else
          let (bmp, len) := ntLoadBitmap m disk rec
          if len = 0 then none
          else (usedBlocks bmp len).foldlM (walkBlock m disk indx rec alloc cb) ctx

def collect (acc : List Ent) (e : Ent) : List Ent × Bool := (acc ++ [e], false)

def ntLookupCb (name : List U8) (c : Option Ent) (e : Ent) : Option Ent × Bool :=
  if ntNameEq e.name name then (some e, true) else (c, false)

def ntRmdirCountCb (c : Nat) (_e : Ent) : Nat × Bool := (c + 1, true)

def slash : U8 := 0x2F

/-- The walks of the components of a path; `accept` is what the caller asks of an entry and of its record. -/
def walkPath (m : Mnt) (disk : Device) (indx : Mem) (accept : Ent → Mem → Bool) (cut : Nat) :
    List (List U8) → U32 → Mem → Option (U32 × Mem)
  | [], cur, rec => some (cur, rec)
  | comp :: comps, _, rec =>
    match ntDirWalk m disk indx rec (ntLookupCb (comp.take cut)) none with
    | none => none
    | some none => none
    | some (some e) =>
      match ntReadRecord m disk e.ref rec with
      | none => none
      | some rec => if accept e rec then walkPath m disk indx accept cut comps e.ref rec else none

def comps (path : List U8) : List (List U8) := (path.splitOn slash).filter (· ≠ [])

/-- `nt_resolve`: the record of an absolute path, in `nt_rec`. -/
def ntResolve (m : Mnt) (disk : Device) (indx rec : Mem) (path : List U8) : Option Mem :=
  if path.head? ≠ some slash then none
  else if ∃ c ∈ comps path, 255 < c.length then none else
  match ntReadRecord m disk ntRootFile rec with
  | none => none
  | some rec =>
    (walkPath m disk indx (fun _ rec => recInUse rec) 255 (comps path) ntRootFile rec).map Prod.snd

/-- `nt_resolve_dir`: the number of a directory's record, and the record in `nt_rec`. -/
def ntResolveDir (m : Mnt) (disk : Device) (indx rec : Mem) (path : List U8) : Option (U32 × Mem) :=
  match ntResolve m disk indx rec path with
  | none => none
  | some rec =>
    if ¬ ntRecIsDir rec then none else
    match ntReadRecord m disk ntRootFile rec with
    | none => none
    | some rec =>
      match walkPath m disk indx (fun e _ => e.isDir) 255 (comps path) ntRootFile rec with
      | none => none
      | some (cur, rec) => if cur = 0 then none else some (cur, rec)

def splitLast (path : List U8) : List U8 × List U8 :=
  let leaf := (path.reverse.takeWhile (· ≠ slash)).reverse
  (path.take (path.length - leaf.length - 1), leaf)

/-- `nt_split_path` with a buffer of 256 bytes for the parent. -/
def ntSplitPath (path : List U8) : Option (List U8 × List U8) :=
  if path.head? ≠ some slash then none else
  let (parent, leaf) := splitLast path
  if leaf = [] then none
  else if parent = [] then some ([slash], leaf.take 255)
  else if 256 ≤ parent.length then none
  else some (parent, leaf.take 255)

structure Loc where
  inIndx : Bool
  vcn : Nat
  off : Nat
  ref : U32

def ntFindEntryFrom (buf : Mem) (fin : Nat) (name : List U8) : Nat → Nat → Option Nat
  | 0, _ => none
  | n + 1, pos =>
    if fin < pos + 0x10 then none
    else if entLen buf pos < 0x10 ∨ fin - pos < entLen buf pos then none
    else if entLast buf pos then none
    else if entInner buf pos then ntFindEntryFrom buf fin name n (pos + entLen buf pos)
    else if fin - pos < 0x52 then none
    else if 0 < entNameLen buf pos ∧ ¬ entDos buf pos then
      if fin - pos < 0x52 + entNameLen buf pos * 2 then none
      else if ntNameEq (entName buf pos) name then some pos
      else ntFindEntryFrom buf fin name n (pos + entLen buf pos)
    else ntFindEntryFrom buf fin name n (pos + entLen buf pos)

/-- `nt_find_entry`: an entry of the index root. -/
def ntFindEntry (m : Mnt) (rec : Mem) (name : List U8) : Option Nat :=
  match ntGetIndexRoot rec with
  | none => none
  | some root =>
    match ntIndexEntries rec m.recBytes (valueOff rec root + 0x10) with
    | none => none
    | some pos => ntFindEntryFrom rec m.recBytes name m.recBytes pos

def ntDirIsLarge (rec : Mem) : Bool := (ntFindAttr rec ntAtIndexAlloc (some i30)).isSome

def indxSecs (m : Mnt) (rec : Mem) (vcn : Nat) : Option (List U32) :=
  match ntFindAttr rec ntAtIndexAlloc (some i30) with
  | none => none
  | some alloc =>
    if resident rec alloc then none else
    let run := runOff rec alloc
    (m.clusterLba (ntRunMap rec run (ntRunMax m run) (BitVec.ofNat 32 vcn))).map fun lba =>
      (List.range m.idxSecs).map fun s => lba + BitVec.ofNat 32 s

def ntReadIndx (m : Mnt) (disk : Device) (rec : Mem) (vcn : Nat) (indx : Mem) : Option Mem :=
  match indxSecs m rec vcn with
  | none => none
  | some lbas => ntFixup (gather disk lbas indx) m.idxBytes indxMagic

/-- `nt_i30_bitmap_test` of a bit below 32: the offset of the value is read as 32 bits here. -/
def ntI30BitmapTest (rec : Mem) (bit : Nat) : Bool :=
  match ntFindAttr rec ntAtBitmap (some i30) with
  | none => false
  | some a =>
    if ¬ resident rec a then false
    else (rec (a + (read32 rec (a + 0x14)).toNat + bit / 8)).getLsbD (bit % 8)

/-- The search of one index block in `nt_find_loc`, from `pos` on; it has no bound but the last entry, and `none` is
a search that did not end in `n` rounds. -/
def ntFindIndxFrom (buf : Mem) (name : List U8) : Nat → Nat → Option (Option Nat)
  | 0, _ => none
  | n + 1, pos =>
    if entLast buf pos then some none
    else if 0 < entNameLen buf pos ∧ ¬ entDos buf pos ∧ ntNameEq (entName buf pos) name then some (some pos)
    else ntFindIndxFrom buf name n (pos + entLen buf pos)

def ntIndxBlocks : Nat := 4

/-- The blocks of `nt_find_loc`, each of at most `fuel` entries. -/
def ntFindBlocks (m : Mnt) (disk : Device) (rec : Mem) (name : List U8) (fuel : Nat) : List Nat → Mem → Option Loc
  | [], _ => none
  | b :: bs, indx =>
    if ¬ ntI30BitmapTest rec b then ntFindBlocks m disk rec name fuel bs indx else
    match ntReadIndx m disk rec b indx with
    | none => none
    | some buf =>
      match ntFindIndxFrom buf name fuel (0x18 + (read32 buf 0x18).toNat) with
      | none => none
      | some none => ntFindBlocks m disk rec name fuel bs buf
      | some (some off) => some { inIndx := true, vcn := b, off, ref := entRef buf off }

/-- `nt_find_loc`: `none` is also an index block that cannot be read. -/
def ntFindLoc (m : Mnt) (disk : Device) (indx rec : Mem) (name : List U8) (fuel : Nat) : Option Loc :=
  match ntFindEntry m rec name with
  | some off => some { inIndx := false, vcn := 0, off, ref := entRef rec off }
  | none =>
    if ¬ ntDirIsLarge rec then none
    else ntFindBlocks m disk rec name fuel (List.range ntIndxBlocks) indx

end Ezos.Ntfs
