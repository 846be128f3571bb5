import Ezos.Erofs.Volume
import Ezos.Erofs.Decompress

/-!
# Compressed files (`er_z_load_cluster`, `er_z_do_map`, `er_read_z`)

Positions inside a file are below 1 GB, and differences of them are those of 64 bits. The page of indexes that a map caches is
that of the last block asked for, so every look at it reads the block.
-/

namespace Ezos.Erofs

open Lib.Memory

set_option autoImplicit false

def ltypePlain : Nat := 0
def ltypeHead1 : Nat := 1
def ltypeNonhead : Nat := 2
def ltypeHead2 : Nat := 3

def d0Cblkcnt : Nat := 0x800
def adviseCompacted2b : U16 := 0x1
def adviseBigPcluster1 : U16 := 0x2
def adviseInlinePcluster : U16 := 0x8
def adviseInterlaced : U16 := 0x10
def adviseFragmentPcluster : U16 := 0x20

def comprLz4 : Nat := 0
def comprLzma : Nat := 1
def comprDeflate : Nat := 2
def comprShifted : Nat := 4

def erZbuf : Nat := 65536

/-- The fields of `er_inode_t` that the first read of a compressed file fills in. -/
structure ZInfo where
  advise : U16
  alg0 : Nat
  alg1 : Nat
  lclusterbits : Nat
deriving DecidableEq

def ZInfo.bigPcluster (zi : ZInfo) : Bool := zi.advise &&& adviseBigPcluster1 ≠ 0

def ZInfo.lclustersz (zi : ZInfo) : Nat := 2 ^ zi.lclusterbits

def Inode.zHeader (ino : Inode) : Nat := (ino.tail + 7) / 8 * 8

def erZFillLazy (v : Vol) (ino : Inode) : Option ZInfo :=
  let h := v.read ino.zHeader zeros 0 8
  if h 7 &&& 0x80 ≠ 0 then none else
  let advise := read16 h 4
  let alg0 := (h 6 &&& 15).toNat
  let alg1 := (h 6 >>> 4).toNat
  if alg0 = comprLzma ∨ comprDeflate < alg0 then none else
  if alg1 = comprLzma ∨ comprDeflate < alg1 then none else
  if advise &&& (adviseInlinePcluster ||| adviseFragmentPcluster ||| adviseInterlaced) ≠ 0 then none else
  some { advise, alg0, alg1, lclusterbits := v.blkszbits + (h 7 &&& 7).toNat }

/-! ## The indexes -/

/-- `er_zrec_t`. Loading an index only sets what the index tells. -/
structure ZRec where
  lcn : Nat
  type : Nat
  headtype : Nat
  clusterofs : Nat
  delta : Nat
  pblk : U32
  compressedblks : Nat

def ZRec.empty : ZRec := ⟨0, 0, 0, 0, 0, 0, 0⟩

def nonheadOfs (zi : ZInfo) : Nat := 2 ^ zi.lclusterbits % 2 ^ 16

def legacyAt (v : Vol) (ino : Inode) (lcn : Nat) : Mem := v.read (ino.zHeader + 16 + lcn * 8) zeros 0 8

def erZLoadLegacy (v : Vol) (ino : Inode) (zi : ZInfo) (m : ZRec) (lcn : Nat) : Option ZRec :=
  let d := legacyAt v ino lcn
  let type := (read16 d 0).toNat % 4
  if type = ltypeNonhead then
    let delta := (read16 d 4).toNat
    if delta / d0Cblkcnt % 2 = 1 then
      if ¬ zi.bigPcluster then none
      else some { m with lcn, type, clusterofs := nonheadOfs zi, compressedblks := delta % d0Cblkcnt, delta := 1 }
    else some { m with lcn, type, clusterofs := nonheadOfs zi, delta }
  else if type = ltypePlain ∨ type = ltypeHead1 then
    some { m with lcn, type, clusterofs := (read16 d 2).toNat, pblk := read32 d 4 }
  else none

def erZDecodeBits (lobits : Nat) (pack : Mem) (pos : Nat) : Nat × Nat :=
  let v := (read32 pack (pos / 8) >>> (pos % 8)).toNat
  (v % 2 ^ lobits, v / 2 ^ lobits % 4)

def nblkFrom (entry : Nat → Nat × Nat) : Nat → Int → Nat → Nat
  | 0, _, nblk => nblk
  | n + 1, i, nblk =>
    if 0 < i then
      let (lo, type) := entry (i - 1).toNat
      let i := if type = ltypeNonhead then i - 1 - lo else i - 1
      nblkFrom entry n i (if 0 ≤ i then nblk + 1 else nblk)
    else nblk

def nblkBigFrom (entry : Nat → Nat × Nat) : Nat → Int → Nat → Option Nat
  | 0, _, nblk => some nblk
  | n + 1, i, nblk =>
    if 0 < i then
      let (lo, type) := entry (i - 1).toNat
      if type = ltypeNonhead then
        if lo / d0Cblkcnt % 2 = 1 then nblkBigFrom entry n (i - 2) (nblk + lo % d0Cblkcnt)
        else if lo ≤ 1 then none
        else nblkBigFrom entry n (i - 1 - (lo - 2)) nblk
      else nblkBigFrom entry n (i - 1) (nblk + 1)
    else some nblk

def unpackEntry (zi : ZInfo) (m : ZRec) (vcnt i : Nat) (entry : Nat → Nat × Nat) (base : U32) : Option ZRec :=
  let lo := (entry i).1
  let type := (entry i).2
  if type = ltypeNonhead then
    let m := { m with type, clusterofs := nonheadOfs zi }
    if lo / d0Cblkcnt % 2 = 1 then
      if ¬ zi.bigPcluster then none else some { m with compressedblks := lo % d0Cblkcnt, delta := 1 }
    else if i + 1 ≠ vcnt then some { m with delta := lo }
    else
      let before := (entry (i - 1)).1
      let before :=
        if (entry (i - 1)).2 ≠ ltypeNonhead then 0 else if before / d0Cblkcnt % 2 = 1 then 1 else before
      some { m with delta := before + 1 }
  else
    let nblk := if ¬ zi.bigPcluster then some (nblkFrom entry vcnt i 1) else nblkBigFrom entry vcnt i 0
    match nblk with
    | none => none
    | some nblk => some { m with type, clusterofs := lo, delta := 0, pblk := base + BitVec.ofNat 32 nblk }

def packCount (amortizedshift : Nat) : Nat := if amortizedshift = 2 then 2 else 16

def packSize (amortizedshift : Nat) : Nat := packCount amortizedshift * 2 ^ amortizedshift

def encodebits (amortizedshift : Nat) : Nat := (packSize amortizedshift - 4) * 8 / packCount amortizedshift

def packMem (v : Vol) (amortizedshift pos : Nat) : Mem := fun x =>
  v.read (pos / v.blksz % 2 ^ 32 * v.blksz) zeros 0 v.blksz
    (pos % v.blksz / packSize amortizedshift * packSize amortizedshift + x)

def packIndex (v : Vol) (amortizedshift pos : Nat) : Nat :=
  (pos % v.blksz - pos % v.blksz / packSize amortizedshift * packSize amortizedshift) / 2 ^ amortizedshift

def erZUnpackCompacted (v : Vol) (zi : ZInfo) (m : ZRec) (amortizedshift pos : Nat) : Option ZRec :=
  if ¬ (amortizedshift = 2 ∨ amortizedshift = 1 ∧ zi.lclusterbits = 12) then none
  else
    unpackEntry zi m (packCount amortizedshift) (packIndex v amortizedshift pos)
      (fun k => erZDecodeBits zi.lclusterbits (packMem v amortizedshift pos) (encodebits amortizedshift * k))
      (read32 (packMem v amortizedshift pos) (packSize amortizedshift - 4))

def Inode.ebase (ino : Inode) : Nat := ino.zHeader + 8

def totalidx (v : Vol) (ino : Inode) : Nat := (ino.size + v.blksz - 1) / v.blksz

def compacted4bInitial (ino : Inode) : Nat := if ino.ebase % 32 = 0 then 0 else (32 - ino.ebase % 32) / 4

def compacted2b (v : Vol) (ino : Inode) (zi : ZInfo) : Nat :=
  if zi.advise &&& adviseCompacted2b ≠ 0 ∧ compacted4bInitial ino < totalidx v ino then
    (totalidx v ino - compacted4bInitial ino) / 16 * 16
  else 0

def compactedAt (v : Vol) (ino : Inode) (zi : ZInfo) (lcn : Nat) : Nat × Nat :=
  let initial := compacted4bInitial ino
  let twos := compacted2b v ino zi
  if lcn < initial then (2, ino.ebase + lcn * 4)
  else if lcn - initial < twos then (1, ino.ebase + initial * 4 + (lcn - initial) * 2)
  else (2, ino.ebase + initial * 4 + twos * 2 + (lcn - initial - twos) * 4)

def erZLoadCompacted (v : Vol) (ino : Inode) (zi : ZInfo) (m : ZRec) (lcn : Nat) : Option ZRec :=
  if zi.lclusterbits ≠ 12 then none else
  if totalidx v ino ≤ lcn then none else
  erZUnpackCompacted v zi { m with lcn } (compactedAt v ino zi lcn).1 (compactedAt v ino zi lcn).2

def erZLoadCluster (v : Vol) (ino : Inode) (zi : ZInfo) (m : ZRec) (lcn : Nat) : Option ZRec :=
  if ino.datalayout = compressedFull then erZLoadLegacy v ino zi m lcn
  else if ino.datalayout = compressedCompact then erZLoadCompacted v ino zi m lcn
  else none

def headLa (zi : ZInfo) (m : ZRec) : Nat := m.lcn * zi.lclustersz ||| m.clusterofs

def erZLookback (v : Vol) (ino : Inode) (zi : ZInfo) : Nat → ZRec → Nat → Option ZRec
  | 0, _, _ => none
  | n + 1, m, dist =>
    if m.lcn < dist then none else
    match erZLoadCluster v ino zi m (m.lcn - dist) with
    | none => none
    | some m =>
      if m.type = ltypeNonhead then if m.delta = 0 then none else erZLookback v ino zi n m m.delta
      else if m.type = ltypePlain ∨ m.type = ltypeHead1 then some { m with headtype := m.type }
      else none

def erZComplen (v : Vol) (ino : Inode) (zi : ZInfo) (m : ZRec) : Option Nat :=
  if m.headtype = ltypePlain ∨ ¬ zi.bigPcluster then some zi.lclustersz
  else if m.compressedblks ≠ 0 then some (m.compressedblks * v.blksz)
  else
    match erZLoadCluster v ino zi m (m.lcn + 1) with
    | none => none
    | some m =>
      if m.type = ltypePlain ∨ m.type = ltypeHead1 then some (2 ^ (zi.lclusterbits - v.blkszbits) * v.blksz)
      else if m.type = ltypeNonhead then
        if m.delta ≠ 1 ∨ m.compressedblks = 0 then none else some (m.compressedblks * v.blksz)
      else none

def sub64 (a b : Nat) : Nat := (a + 2 ^ 64 - b) % 2 ^ 64

/-- The fields of `er_zmap_t` that a map sets; what it maps is always there. -/
structure ZMap where
  la : Nat
  llen : Nat
  pa : Nat
  plen : Nat
  algfmt : Nat

def erZHead (v : Vol) (ino : Inode) (zi : ZInfo) (ofs : Nat) : Option (ZRec × Nat) :=
  match erZLoadCluster v ino zi ZRec.empty (ofs / zi.lclustersz) with
  | none => none
  | some m =>
    if m.type = ltypePlain ∨ m.type = ltypeHead1 then
      if m.clusterofs ≤ ofs % zi.lclustersz then some ({ m with headtype := m.type }, (m.lcn + 1) * zi.lclustersz)
      else if m.lcn = 0 then none
      else
        match erZLookback v ino zi 65 { m with delta := 1 } 1 with
        | none => none
        | some head => some (head, headLa zi m)
    else if m.type = ltypeNonhead then
      match erZLookback v ino zi 65 m m.delta with
      | none => none
      | some head => some (head, (m.lcn + 1) * zi.lclustersz)
    else none

def erZDoMap (v : Vol) (ino : Inode) (zi : ZInfo) (ofs : Nat) : Option ZMap :=
  match erZHead v ino zi ofs with
  | none => none
  | some (m, stop) =>
    match erZComplen v ino zi m with
    | none => none
    | some plen =>
      some
        { la := headLa zi m, llen := sub64 stop (headLa zi m), pa := m.pblk.toNat * v.blksz, plen
          algfmt := if m.headtype = ltypePlain then comprShifted else if m.headtype = ltypeHead2 then zi.alg1 else zi.alg0 }

def erDecompress (z : Inflate) (algfmt : Nat) (cbuf : Mem) (plen : Nat) : Inflate × Option (List Byte) :=
  if algfmt = comprLz4 then (z, erLz4Decompress cbuf plen erZbuf)
  else if algfmt = comprDeflate then erInflate z cbuf plen erZbuf
  else (z, none)

/-- The bytes that go to `buf[la]` on, `copy` of them. -/
def erZBytes (z : Inflate) (map : ZMap) (cbuf : Mem) (copy : Nat) : Inflate × Option Mem :=
  if map.algfmt = comprShifted then (z, some fun k => if k < min copy map.plen then cbuf k else 0)
  else
    match erDecompress z map.algfmt cbuf map.plen with
    | (z, none) => (z, none)
    | (z, some out) => if out.length < copy then (z, none) else (z, some fun k => out.getD k 0)

/-- The loop of `er_read_z` from `la` on. On a sound index every turn gets further, so `size` turns are enough. -/
def erReadZFrom (v : Vol) (ino : Inode) (zi : ZInfo) (max : Nat) : Nat → Nat → Mem → Inflate → Inflate × Option Mem
  | 0, la, buf, z => if la < ino.size ∧ la < max then (z, none) else (z, some buf)
  | n + 1, la, buf, z =>
    if la < ino.size ∧ la < max then
      match erZDoMap v ino zi la with
      | none => (z, none)
      | some map =>
        if map.llen = 0 ∨ map.plen = 0 ∨ erZbuf < map.plen then (z, none) else
        let cbuf := v.read map.pa zeros 0 map.plen
        let copy := min (min (map.llen % 2 ^ 32) (sub64 ino.size map.la)) (max - la)
        match erZBytes z map cbuf copy with
        | (z, none) => (z, none)
        | (z, some bytes) =>
          erReadZFrom v ino zi max n ((map.la + map.llen) % 2 ^ 64) (copyIn buf la copy bytes) z
    else (z, some buf)

def erReadZ (v : Vol) (ino : Inode) (buf : Mem) (max : Nat) (z : Inflate) : Inflate × Option (Mem × Nat) :=
  match erZFillLazy v ino with
  | none => (z, none)
  | some zi =>
    match erReadZFrom v ino zi max ino.size 0 buf z with
    | (z, none) => (z, none)
    | (z, some buf) => (z, some (buf, min ino.size max))

end Ezos.Erofs
