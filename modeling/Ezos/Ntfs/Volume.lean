import Ezos.Exfat.Names
import Ezos.Lib.Memory

/-!
# A mounted NTFS volume (`ntfs_mount`, `nt_fixup`, `nt_run_map`, `nt_find_attr`, `nt_read_record`)

A device is its sectors of 512 bytes, and reads of it succeed. A buffer is longer than the record or the index block
that is read into it, so a read takes what the buffer held before.
-/

namespace Ezos.Ntfs

open Lib.Memory Exfat

set_option autoImplicit false

abbrev U64 := BitVec 64

abbrev Device := U32 → Mem

def wide (x : U32) : U64 := x.setWidth 64

def ntMaxRec : Nat := 4096
def ntMaxIdx : Nat := 4096
def ntBitmapCap : Nat := 8192
def ntMaxClusterBytes : Nat := 4096

def ntAtFilename : U32 := 0x30
def ntAtData : U32 := 0x80
def ntAtIndexRoot : U32 := 0x90
def ntAtIndexAlloc : U32 := 0xA0
def ntAtBitmap : U32 := 0xB0

def ntRootFile : U32 := 5
def ntBitmapFile : U32 := 6

def ntNoLcn : U64 := 0xFFFFFFFFFFFFFFFF

structure Mnt where
  /-- First sector of the volume (`nt_part_lba`). -/
  part : U32
  spc : Nat
  clusterBytes : Nat
  recBytes : Nat
  idxBytes : Nat
  /-- Where the run list of `$MFT` begins in `mmft`. -/
  mftRunOff : Nat
  totalClusters : Nat
  /-- Record 0 as it was when the volume was mounted. -/
  mmft : Mem

def write8 (m : Mem) (a : Nat) (v : Byte) : Mem := fun x => if x = a then v else m x

def copy2 (m : Mem) (dst src : Nat) : Mem :=
  let m := write8 m dst (m src)
  write8 m (dst + 1) (m (src + 1))

def fileMagic : U32 := 0x454C4946
def indxMagic : U32 := 0x58444E49

def usaOff (buf : Mem) : Nat := (read16 buf 4).toNat
def usaCount (buf : Mem) : Nat := (read16 buf 6).toNat

/-- The loop of `nt_fixup`, over the sectors of `l`. -/
def restoreTails (pu : Nat) (us : U16) : List Nat → Mem → Option Mem
  | [], buf => some buf
  | i :: l, buf =>
    if read16 buf (i * 512 + 510) ≠ us then none
    else restoreTails pu us l (copy2 buf (i * 512 + 510) (pu + 2 + i * 2))

def ntFixup (buf : Mem) (bytes : Nat) (magic : U32) : Option Mem :=
  if read32 buf 0 ≠ magic then none else
  let cnt := usaCount buf
  if cnt = 0 ∨ (cnt - 1) * 512 ≠ bytes then none else
  let pu := usaOff buf
  restoreTails pu (read16 buf pu) (List.range (cnt - 1)) buf

/-- `nt_run_read`: `nn` bytes, the sign of the last one extended when `sig`. -/
def ntRunRead (buf : Mem) (run nn : Nat) (sig : Bool) : U64 :=
  let r : U64 := if sig ∧ nn ≠ 0 ∧ buf (run + nn - 1) &&& 0x80 ≠ 0 then 0xFFFFFFFFFFFFFFFF else 0
  (List.range nn).reverse.foldl (fun r i => (r <<< 8) ||| (buf (run + i)).setWidth 64) r

def runLenBytes (buf : Mem) (run : Nat) : Nat := (buf run &&& 7).toNat
def runOffBytes (buf : Mem) (run : Nat) : Nat := ((buf run >>> 4) &&& 7).toNat

/-- The loop of `nt_run_map`: a run takes two bytes at least, so `fin` rounds are enough. -/
def ntRunMapFrom (buf : Mem) (fin : Nat) (vcn : U64) : Nat → Nat → U64 → U64 → U64
  | 0, _, _, _ => ntNoLcn
  | n + 1, run, currVcn, lcn =>
    if fin ≤ run then ntNoLcn else
    let c1 := runLenBytes buf run
    let c2 := runOffBytes buf run
    if c1 = 0 then ntNoLcn
    else if fin - (run + 1) < c1 + c2 then ntNoLcn else
    let len := ntRunRead buf (run + 1) c1 false
    let off := ntRunRead buf (run + 1 + c1) c2 true
    if currVcn < currVcn + len ∧ currVcn ≤ vcn ∧ vcn < currVcn + len then
      if off = 0 then ntNoLcn else lcn + off + (vcn - currVcn)
    else if 0x100000000 < currVcn + len then ntNoLcn
    else ntRunMapFrom buf fin vcn n (run + 1 + c1 + c2) (currVcn + len) (lcn + off)

def ntRunMap (buf : Mem) (run maxBytes : Nat) (vcn : U32) : U64 :=
  ntRunMapFrom buf (run + maxBytes) (wide vcn) (maxBytes + 1) run 0 0

/-- `nt_run_max`: what is left of the record after the start of the run list. -/
def ntRunMax (m : Mnt) (run : Nat) : Nat := m.recBytes - run

/-- `nt_attr_run_max`: what is left of the attribute at `a`. -/
def ntAttrRunMax (m : Mnt) (rec : Mem) (a : Nat) : Nat :=
  let alen := (read32 rec (a + 4)).toNat
  let roff := (read16 rec (a + 0x20)).toNat
  let rem := alen - roff
  if rem = 0 ∨ m.recBytes < rem then m.recBytes else rem

def Mnt.clusterLba (m : Mnt) (lcn : U64) : Option U32 :=
  if lcn = ntNoLcn ∨ 0x0FFFFFFF < lcn then none
  else some (m.part + lcn.setWidth 32 * BitVec.ofNat 32 m.spc)

def ntLower (c : U8) : U8 := if 0x41 ≤ c ∧ c ≤ 0x5A then c + 32 else c

/-- `nt_name_eq`: equal up to the case of ASCII letters. -/
def ntNameEq (a b : List U8) : Bool := a.map ntLower == b.map ntLower

def unitsAt (buf : Mem) (a n : Nat) : List U16 := (List.range n).map fun i => read16 buf (a + 2 * i)

/-- Whether an attribute has the name asked for; `none` is a name that cannot be converted, which ends the search. -/
def attrNamed (rec : Mem) (a : Nat) (len : U32) : Option (List U8) → Option Bool
  | none => some ((rec (a + 9)).toNat = 0)
  | some name =>
    let nameLen := (rec (a + 9)).toNat
    if nameLen = 0 then some false else
    let noff : U32 := (read16 rec (a + 0xA)).setWidth 32
    if len < noff then none
    else (utf16ToUtf8 (unitsAt rec (a + noff.toNat) nameLen) 512).map fun tmp => ntNameEq (cstr tmp) name

def foundOr (a : Nat) (rest : Option Nat) : Option Bool → Option Nat
  | none => none
  | some true => some a
  | some false => rest

/-- The loop of `nt_find_attr`. An attribute takes 16 bytes at least; `off` and `len` are added as 32-bit numbers. -/
def ntFindAttrFrom (rec : Mem) (fin : U32) (type : U32) (name : Option (List U8)) : Nat → U32 → Option Nat
  | 0, _ => none
  | n + 1, off =>
    if ¬ (off + 16 ≤ fin ∧ off + 16 ≤ BitVec.ofNat 32 ntMaxRec) then none else
    let a := off.toNat
    let t := read32 rec a
    let len := read32 rec (a + 4)
    if t = 0xFFFFFFFF then none
    else if len < 16 ∨ fin < off + len then none
    else if t = type then foundOr a (ntFindAttrFrom rec fin type name n (off + len)) (attrNamed rec a len name)
    else ntFindAttrFrom rec fin type name n (off + len)

/-- `nt_find_attr`; no name asks for an attribute without one. -/
def ntFindAttr (rec : Mem) (type : U32) (name : Option (List U8)) : Option Nat :=
  let used := read32 rec 0x18
  let fin : U32 := if BitVec.ofNat 32 ntMaxRec < used then BitVec.ofNat 32 ntMaxRec else used
  ntFindAttrFrom rec fin type name ntMaxRec ((read16 rec 0x14).setWidth 32)

def i30 : List U8 := [0x24, 0x49, 0x33, 0x30]

def valueOff (rec : Mem) (a : Nat) : Nat := a + (read16 rec (a + 0x14)).toNat
def valueLen (rec : Mem) (a : Nat) : U32 := read32 rec (a + 0x10)

def resident (rec : Mem) (a : Nat) : Bool := rec (a + 8) == 0

def Mnt.recLba (m : Mnt) (mftno : U32) (s : Nat) : Option U32 :=
  let b := mftno.toNat * m.recBytes + s * 512
  let vcn := BitVec.ofNat 32 (b / m.clusterBytes)
  (m.clusterLba (ntRunMap m.mmft m.mftRunOff (ntRunMax m m.mftRunOff) vcn)).map fun lba =>
    lba + BitVec.ofNat 32 (b % m.clusterBytes / 512)

def Mnt.recSecs (m : Mnt) : Nat := m.recBytes / 512
def Mnt.idxSecs (m : Mnt) : Nat := m.idxBytes / 512

def gather (disk : Device) (lbas : List U32) (buf : Mem) : Mem := fun i =>
  match lbas[i / 512]? with
  | some lba => disk lba (i % 512)
  | none => buf i

def ntReadRecord (m : Mnt) (disk : Device) (mftno : U32) (buf : Mem) : Option Mem :=
  match (List.range m.recSecs).mapM (m.recLba mftno) with
  | none => none
  | some lbas => ntFixup (gather disk lbas buf) m.recBytes fileMagic

def recInUse (rec : Mem) : Bool := read16 rec 0x16 &&& 1 != 0

def ntRecIsDir (rec : Mem) : Bool := read16 rec 0x16 &&& 2 != 0

def secsOf (c : U8) (spc : Nat) : Option Nat :=
  if 0 < c.toInt then some (c.toNat * spc)
  else if c.toInt < -9 ∧ -31 < c.toInt then some (1 <<< (-c.toInt - 9).toNat)
  else none

/-- `buf` is what `nt_mmft` and `nt_rec` hold before. -/
def ntfsMount (disk : Device) (part : U32) (buf : Mem) : Option Mnt :=
  let sec := disk part
  if read32 sec 3 ≠ 0x5346544E then none
  else if read16 sec 0x0B ≠ 512 then none else
  let spc := (sec 0x0D).toNat
  if spc = 0 ∨ spc &&& (spc - 1) ≠ 0 then none else
  let totalSecs := read64 sec 0x28
  let mftLcn := read64 sec 0x30
  match secsOf (sec 0x40) spc, secsOf (sec 0x41) spc with
  | some recSecs, some idxSecs =>
    if recSecs * 512 < 512 ∨ ntMaxRec < recSecs * 512 then none
    else if idxSecs * 512 < 512 ∨ ntMaxIdx < idxSecs * 512 then none
    else if 0x0FFFFFFF < mftLcn ∨ totalSecs < 64 ∨ 0x0FFFFFFF < totalSecs then none
    else if ntMaxClusterBytes < spc * 512 then none else
    let mftLba := part + mftLcn.setWidth 32 * BitVec.ofNat 32 spc
    match ntFixup (gather disk ((List.range recSecs).map fun s => mftLba + BitVec.ofNat 32 s) buf) (recSecs * 512)
        fileMagic with
    | none => none
    | some mmft =>
      match ntFindAttr mmft ntAtData none with
      | none => none
      | some a =>
        if resident mmft a then none
        else if mmft (a + 0xC) &&& 1 ≠ 0 then none else
        let mftRunOff := a + (read16 mmft (a + 0x20)).toNat
        if recSecs * 512 < mftRunOff + 8 then none else
        let m : Mnt :=
          { part, spc, mftRunOff, mmft
            clusterBytes := spc * 512
            recBytes := recSecs * 512
            idxBytes := idxSecs * 512
            totalClusters := totalSecs.toNat / spc }
        match ntReadRecord m disk ntRootFile buf with
        | none => none
        | some rec => if recInUse rec ∧ ntRecIsDir rec then some m else none
  | _, _ => none

structure Mnt.Geometry (m : Mnt) : Prop where
  spc : 0 < m.spc
  cluster : m.clusterBytes = m.spc * 512
  record : m.recBytes = m.recSecs * 512
  index : m.idxBytes = m.idxSecs * 512
  recPos : 0 < m.recSecs
  recMax : m.recBytes ≤ ntMaxRec
  idxPos : 0 < m.idxSecs
  idxMax : m.idxBytes ≤ ntMaxIdx

theorem ntfsMount_geometry {disk : Device} {part : U32} {buf : Mem} {m : Mnt} (h : ntfsMount disk part buf = some m) :
    m.Geometry := by
  unfold ntfsMount at h
  simp only [Option.ite_none_left_eq_some, not_or] at h
  obtain ⟨-, -, ⟨hspc, -⟩, h⟩ := h
  split at h
  · rename_i recSecs idxSecs hrec hidx
    simp only [Option.ite_none_left_eq_some, not_or] at h
    obtain ⟨⟨hrec0, hrecMax⟩, ⟨hidx0, hidxMax⟩, -, -, h⟩ := h
    split at h
    · contradiction
    · split at h
      · contradiction
      · simp only [Option.ite_none_left_eq_some] at h
        obtain ⟨-, -, -, h⟩ := h
        split at h
        · contradiction
        · split at h
          · injection h with h
            subst h
            have hdiv (n : Nat) : n * 512 / 512 = n := Nat.mul_div_cancel n (by omega)
            constructor
            case record => exact congrArg (· * 512) (hdiv recSecs).symm
            case index => exact congrArg (· * 512) (hdiv idxSecs).symm
            case recPos => exact Nat.lt_of_lt_of_eq (by omega) (hdiv recSecs).symm
            case idxPos => exact Nat.lt_of_lt_of_eq (by omega) (hdiv idxSecs).symm
            case recMax => exact Nat.le_of_not_lt hrecMax
            case idxMax => exact Nat.le_of_not_lt hidxMax
            case spc => exact Nat.pos_of_ne_zero hspc
            case cluster => rfl
          · contradiction
  · contradiction

end Ezos.Ntfs
