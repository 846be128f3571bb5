import Ezos.Types
import Ezos.Lib.Memory

/-!
# A mounted EROFS volume (`er_read_bytes`, `er_load_inode`, `erofs_mount`)

A device is its sectors of 512 bytes, and reads of it succeed. Offsets into the volume are natural numbers: the driver keeps
them in 64 bits, and none that it forms comes near the end of these.
-/

namespace Ezos.Erofs

open Lib.Memory

set_option autoImplicit false

abbrev U64 := BitVec 64

abbrev Device := U32 → Mem

def erofsMagic : U32 := 0xE0F5E1E2
def compatChksum : U32 := 1
def incompatOk : U32 := 0xF

def flatPlain : Nat := 0
def compressedFull : Nat := 1
def flatInline : Nat := 2
def compressedCompact : Nat := 3
def chunkBased : Nat := 4

def ftDir : Byte := 2
def nullAddr : U32 := 0xFFFFFFFF

def volByte (d : Device) (part : U32) (off : Nat) : Byte := d (part + BitVec.ofNat 32 (off / 512)) (off % 512)

/-- The loop of `er_read_bytes` into `buf` from `pos` on. A turn reads one byte at least, so `len` turns are enough. -/
def erReadFrom (d : Device) (part : U32) (pos len : Nat) : Nat → Nat → Nat → Mem → Mem
  | 0, _, _, buf => buf
  | n + 1, off, done, buf =>
    if done < len then
      let inSec := off % 512
      let chunk := min (512 - inSec) (len - done)
      let sec := d (part + BitVec.ofNat 32 (off / 512))
      erReadFrom d part pos len n (off + chunk) (done + chunk) (copyIn buf (pos + done) chunk fun i => sec (inSec + i))
    else buf

def erReadBytes (d : Device) (part : U32) (off : Nat) (buf : Mem) (pos len : Nat) : Mem :=
  erReadFrom d part pos len len off 0 buf

structure Vol where
  disk : Device
  part : U32
  blkszbits : Nat
  metaBlkaddr : U32
  rootNid : U32
  inos : U64

def Vol.blksz (v : Vol) : Nat := 2 ^ v.blkszbits

def Vol.metaOff (v : Vol) : Nat := v.metaBlkaddr.toNat * v.blksz

def Vol.byte (v : Vol) (off : Nat) : Byte := volByte v.disk v.part off

def Vol.read (v : Vol) (off : Nat) (buf : Mem) (pos len : Nat) : Mem := erReadBytes v.disk v.part off buf pos len

def crcBit (crc : U32) : U32 := (crc >>> 1) ^^^ (0x82F63B78 &&& (0 - (crc &&& 1)))

def crcByte (crc : U32) (b : Byte) : U32 := (List.range 8).foldl (fun crc _ => crcBit crc) (crc ^^^ b.setWidth 32)

def erCrc32c (crc : U32) (p : Mem) (len : Nat) : U32 :=
  ~~~(List.range len).foldl (fun crc i => crcByte crc (p i)) (~~~crc)

def chksumBytes (sb : Mem) : Mem := fun i => if 4 ≤ i ∧ i < 8 then 0 else sb i

/-- The variables that `erofs_mount` sets from the superblock. -/
def volumeOf (d : Device) (part : U32) : Vol where
  disk := d
  part := part
  blkszbits := (d (part + 2) 12).toNat
  metaBlkaddr := read32 (d (part + 2)) 40
  rootNid := (read16 (d (part + 2)) 14).setWidth 32
  inos := read64 (d (part + 2)) 16

/-- What `erofs_mount` asks of the superblock, before it looks at the root. -/
def erSuper (d : Device) (part : U32) : Option Vol :=
  let sb := d (part + 2)
  if read32 sb 0 ≠ erofsMagic then none else
  if sb 12 < 9 ∨ 12 < sb 12 then none else
  let featCompat := read32 sb 8
  let featIncompat := read32 sb 80
  if featIncompat &&& ~~~incompatOk ≠ 0 then none else
  if 0 < read16 sb 86 then none else
  if featCompat &&& compatChksum ≠ 0 ∧ erCrc32c 0 (chksumBytes sb) 128 ≠ read32 sb 4 then none else
  some (volumeOf d part)

/-- `er_inode_t`, its fields for compressed files apart. -/
structure Inode where
  nid : U32
  iloc : Nat
  mode : U16
  size : Nat
  datalayout : Nat
  inodeIsize : Nat
  xattrIsize : Nat
  iU : U32

def xattrIsizeOf (icnt : Nat) : Nat := if icnt = 0 then 0 else 12 + (icnt - 1) * 4

def inodeAt (v : Vol) (nid : U32) : Inode :=
  let iloc := v.metaOff + nid.toNat * 32
  let hdr := v.read iloc zeros 0 32
  let fmt := read16 hdr 0
  let ext := v.read iloc zeros 0 64
  { nid, iloc
    mode := read16 hdr 4
    size := if fmt &&& 1 ≠ 0 then (read64 ext 8).toNat else (read32 hdr 8).toNat
    datalayout := ((fmt >>> 1) &&& 7).toNat
    inodeIsize := if fmt &&& 1 ≠ 0 then 64 else 32
    xattrIsize := xattrIsizeOf (read16 hdr 2).toNat
    iU := if fmt &&& 1 ≠ 0 then read32 ext 16 else read32 hdr 16 }

def sizeMax : Nat := 0x40000000

def erLoadInode (v : Vol) (nid : U32) : Option Inode :=
  if sizeMax < (inodeAt v nid).size then none else some (inodeAt v nid)

def Inode.isDir (ino : Inode) : Bool := ino.mode &&& 0xF000 = 0x4000

def Inode.isReg (ino : Inode) : Bool := ino.mode &&& 0xF000 = 0x8000

/-- Where the inode and its attributes end (`iloc + inode_isize + xattr_isize`). -/
def Inode.tail (ino : Inode) : Nat := ino.iloc + ino.inodeIsize + ino.xattrIsize

def erofsMount (d : Device) (part : U32) : Option Vol :=
  match erSuper d part with
  | none => none
  | some v =>
    if v.inos ≤ v.rootNid.setWidth 64 then none
    else
      match erLoadInode v v.rootNid with
      | none => none
      | some root => if root.isDir then some v else none

theorem erReadFrom_eq {d : Device} {part : U32} {pos len : Nat} {n off done : Nat} {buf : Mem} (hn : len - done ≤ n) (x : Nat) :
    erReadFrom d part pos len n off done buf x =
      if pos + done ≤ x ∧ x < pos + len then volByte d part (off + (x - (pos + done))) else buf x := by
  induction n generalizing off done buf with
  | zero =>
    rw [erReadFrom, if_neg (by omega)]
  | succ n ih =>
    unfold erReadFrom
    by_cases hlt : done < len
    · rw [if_pos hlt]
      have hin : off % 512 < 512 := Nat.mod_lt _ (by decide)
      generalize hchunk : min (512 - off % 512) (len - done) = chunk
      have hpos : 0 < chunk := by omega
      rw [ih (by omega)]
      by_cases hx : pos + (done + chunk) ≤ x ∧ x < pos + len
      · have hoff : off + chunk + (x - (pos + (done + chunk))) = off + (x - (pos + done)) := by omega
        rw [if_pos hx, if_pos (by omega), hoff]
      · rw [if_neg hx, copyIn]
        by_cases hy : pos + done ≤ x ∧ x < pos + done + chunk
        -- This sector.
        · have hdiv : (off + (x - (pos + done))) / 512 = off / 512 := by omega
          have hmod : (off + (x - (pos + done))) % 512 = off % 512 + (x - (pos + done)) := by omega
          rw [if_pos hy, if_pos (by omega), volByte, hdiv, hmod]
        · rw [if_neg hy, if_neg (by omega)]
    · rw [if_neg hlt, if_neg (by omega)]

theorem Vol.read_eq (v : Vol) (off : Nat) (buf : Mem) (pos len : Nat) :
    v.read off buf pos len = copyIn buf pos len fun i => v.byte (off + i) := by
  funext x
  have h := @erReadFrom_eq v.disk v.part pos len len off 0 buf (by omega) x
  rwa [Nat.add_zero] at h

theorem Vol.read_zero (v : Vol) (off : Nat) (buf : Mem) {len x : Nat} (hx : x < len) :
    v.read off buf 0 len x = v.byte (off + x) := by
  rw [v.read_eq, copyIn, if_pos (by omega), Nat.sub_zero]

theorem Vol.read32_read (v : Vol) (off : Nat) (buf : Mem) {len a : Nat} (ha : a + 4 ≤ len) :
    read32 (v.read off buf 0 len) a = read32 v.byte (off + a) := by
  unfold read32
  rw [v.read_zero off buf (by omega : a < len), v.read_zero off buf (by omega : a + 1 < len),
    v.read_zero off buf (by omega : a + 2 < len), v.read_zero off buf (by omega : a + 3 < len)]
  rfl

theorem Vol.read16_read (v : Vol) (off : Nat) (buf : Mem) {len a : Nat} (ha : a + 2 ≤ len) :
    read16 (v.read off buf 0 len) a = read16 v.byte (off + a) := by
  unfold read16
  rw [v.read_zero off buf (by omega : a < len), v.read_zero off buf (by omega : a + 1 < len)]
  rfl

theorem Vol.blksz_pos (v : Vol) : 0 < v.blksz := Nat.two_pow_pos _

theorem erLoadInode_some {v : Vol} {nid : U32} {ino : Inode} (h : erLoadInode v nid = some ino) :
    ino = inodeAt v nid ∧ ino.size ≤ sizeMax := by
  unfold erLoadInode at h
  by_cases hlt : sizeMax < (inodeAt v nid).size
  · rw [if_pos hlt] at h
    cases h
  · rw [if_neg hlt] at h
    obtain rfl := Option.some.inj h
    exact ⟨rfl, Nat.le_of_not_lt hlt⟩

theorem erLoadInode_of_le {v : Vol} {nid : U32} (h : (inodeAt v nid).size ≤ sizeMax) :
    erLoadInode v nid = some (inodeAt v nid) := if_neg (Nat.not_lt.mpr h)

end Ezos.Erofs
