import Ezos.Ext4.Dirs
import Ezos.Ext4.Extents

/-!
# When reading a file gives its contents

The contents of a file are what its inode maps by the format, up to its 64-bit size. The driver loses the blocks
below an index record whose child is at 65536 or beyond and those of an extent of 32768 blocks, reads unwritten
extents as if they were data, and knows only the low half of a size.
-/

namespace Ezos.Ext4

open Lib.Memory Lib.KeyTree Lib.Fanout

set_option autoImplicit false

def fileSize (ino : Mem) : Nat := (read32 ino 4).toNat + (read32 ino 108).toNat * 2 ^ 32

def fileByte (v : Vol) (ino : Mem) (d k : Nat) : Byte :=
  if hasFlag ino extentsFl then extentByte v ino d (k / v.blksize.toNat) (k % v.blksize.toNat)
  else legacyByte v ino (k / v.blksize.toNat) (k % v.blksize.toNat)

def fileBytes (v : Vol) (ino : Mem) (d n : Nat) : List Byte := (List.range n).map (fileByte v ino d)

/-! ## The copying loop -/

def readByte (v : Vol) (ino : Mem) (k : Nat) : Byte :=
  let pb := e4MapBlock v ino (BitVec.ofNat 32 (k / v.blksize.toNat))
  if pb = 0 then 0 else v.block pb (k % v.blksize.toNat)

section Loop

variable {v : Vol} (g : Geometry v) (ino : Mem)
include g

theorem readChunk_eq {done chunk : U32} (h : done.toNat % v.blksize.toNat + chunk.toNat ≤ v.blksize.toNat) :
    readChunk v ino done chunk = (List.range chunk.toNat).map fun i => readByte v ino (done.toNat + i) := by
  have hpos : 0 < v.blksize.toNat := by
    have := g.size_nat
    omega
  have hlblk : done / v.blksize = BitVec.ofNat 32 (done.toNat / v.blksize.toNat) := by
    apply BitVec.eq_of_toNat_eq
    have hle : done.toNat / v.blksize.toNat ≤ done.toNat := Nat.div_le_self _ _
    have := done.isLt
    rw [BitVec.toNat_udiv, BitVec.toNat_ofNat, Nat.mod_eq_of_lt (by omega)]
  have hbyte : ∀ i < chunk.toNat, readByte v ino (done.toNat + i) =
      if e4MapBlock v ino (done / v.blksize) = 0 then 0
      else v.block (e4MapBlock v ino (done / v.blksize)) ((done % v.blksize).toNat + i) := by
    intro i hi
    have hsplit := Nat.div_add_mod done.toNat v.blksize.toNat
    have hin : done.toNat % v.blksize.toNat + i < v.blksize.toNat := by omega
    have hform : done.toNat + i =
        v.blksize.toNat * (done.toNat / v.blksize.toNat) + (done.toNat % v.blksize.toNat + i) := by omega
    have hdiv : (done.toNat + i) / v.blksize.toNat = done.toNat / v.blksize.toNat := by
      rw [hform, Nat.mul_add_div hpos, Nat.div_eq_of_lt hin, Nat.add_zero]
    have hmod : (done.toNat + i) % v.blksize.toNat = done.toNat % v.blksize.toNat + i := by
      rw [hform, Nat.mul_add_mod, Nat.mod_eq_of_lt hin]
    rw [readByte, hdiv, hmod, ← hlblk, BitVec.toNat_umod]
  unfold readChunk
  dsimp only
  by_cases h0 : e4MapBlock v ino (done / v.blksize) = 0
  · rw [if_pos h0]
    apply List.ext_getElem
    · simp
    · intro i hi _
      have hlt : i < chunk.toNat := by simpa using hi
      simp [hbyte i hlt, h0]
  · rw [if_neg h0]
    apply List.map_congr_left
    intro i hi
    rw [hbyte i (List.mem_range.mp hi), if_neg h0]

theorem readLoop_eq (size : U32) : ∀ (fuel : Nat) (done : U32), done.toNat ≤ size.toNat →
    size.toNat - done.toNat ≤ fuel → readLoop v ino size fuel done =
      (List.range (size.toNat - done.toNat)).map fun i => readByte v ino (done.toNat + i) := by
  have hpos : 0 < v.blksize.toNat := by
    have := g.size_nat
    omega
  intro fuel
  induction fuel with
  | zero =>
    intro done _ hfuel
    have hend : size.toNat - done.toNat = 0 := Nat.le_zero.mp hfuel
    rw [hend]
    rfl
  | succ fuel ih =>
    intro done hle hfuel
    unfold readLoop
    by_cases hlt : done < size
    · have hltn := BitVec.lt_def.mp hlt
      have hrem : (done % v.blksize).toNat = done.toNat % v.blksize.toNat := BitVec.toNat_umod
      have hmodlt := Nat.mod_lt done.toNat hpos
      have hwhole : (v.blksize - done % v.blksize).toNat = v.blksize.toNat - done.toNat % v.blksize.toNat := by
        rw [BitVec.toNat_sub_of_le (BitVec.le_def.mpr (by omega)), hrem]
      have hleft : (size - done).toNat = size.toNat - done.toNat :=
        BitVec.toNat_sub_of_le (BitVec.le_def.mpr (by omega))
      rw [if_pos hlt]
      dsimp only
      generalize hc : (if size - done < v.blksize - done % v.blksize then size - done
        else v.blksize - done % v.blksize) = chunk
      have hchunk : chunk.toNat ≤ size.toNat - done.toNat ∧ 0 < chunk.toNat ∧
          done.toNat % v.blksize.toNat + chunk.toNat ≤ v.blksize.toNat := by
        split at hc
        · rename_i hsmall
          have := BitVec.lt_def.mp hsmall
          subst hc
          omega
        · rename_i hbig
          have := Nat.le_of_not_lt fun h => hbig (BitVec.lt_def.mpr h)
          subst hc
          omega
      have hadd : (done + chunk).toNat = done.toNat + chunk.toNat := by
        have := size.isLt
        rw [BitVec.toNat_add, Nat.mod_eq_of_lt (by omega)]
      have hcount : size.toNat - done.toNat = chunk.toNat + (size.toNat - (done + chunk).toNat) := by omega
      rw [readChunk_eq g ino hchunk.2.2, ih (done + chunk) (by omega) (by omega), hcount, List.range_add, List.map_append,
        List.map_map, hadd]
      simp only [Function.comp_def, Nat.add_assoc]
    · have hend : size.toNat - done.toNat = 0 :=
        Nat.sub_eq_zero_of_le (Nat.le_of_not_lt fun h => hlt (BitVec.lt_def.mpr h))
      rw [if_neg hlt, hend]
      rfl

end Loop

def ByteAgrees (v : Vol) (l k : Nat) (r : List Index × Extent) : Prop :=
  lost r = r.2.unwritten ∨ v.block (r.2.blockOf l) k = 0

section Bytes

variable {v : Vol} {ino : Mem} {d : Nat}

theorem extentByte_iff (ht : ExtentTree v ino d) {lblk : U32} (hl : lblk.toNat < 2 ^ 22) (k : Nat) :
    (if e4MapExtent v ino lblk = 0 then 0 else v.block (e4MapExtent v ino lblk) k) = extentByte v ino d lblk.toNat k ↔
      ∀ r, extentOf v ino d lblk.toNat = some r → ByteAgrees v lblk.toNat k r := by
  unfold extentByte
  cases hfound : extentOf v ino d lblk.toNat with
  | none =>
    rw [if_pos (e4MapExtent_none ht hl hfound)]
    exact iff_of_true rfl (fun r hr => by cases hr)
  | some r =>
    have hone : (∀ r', some r = some r' → ByteAgrees v lblk.toNat k r') ↔ ByteAgrees v lblk.toNat k r := by
      constructor
      · exact fun h => h r rfl
      · intro h r' hr'
        injection hr' with hr'
        exact hr' ▸ h
    rw [hone, ByteAgrees, e4MapExtent_some ht hl hfound]
    cases hlost : lost r with
    | true =>
      simp only [if_true]
      cases r.2.unwritten with
      | true => exact iff_of_true rfl (Or.inl rfl)
      | false => simp [Extent.blockOf, eq_comm]
    | false =>
      simp only [Bool.false_eq_true, if_false]
      rw [if_neg (blockOf_nat ht hfound).2]
      cases r.2.unwritten with
      | true => simp
      | false => exact iff_of_true rfl (Or.inl rfl)

theorem legacyByte_eq (g : Geometry v) (ino : Mem) {lblk : U32} (hl : lblk.toNat < 2 ^ 22) (k : Nat) :
    (if e4MapLegacy v ino lblk = 0 then 0 else v.block (e4MapLegacy v ino lblk) k) = legacyByte v ino lblk.toNat k := by
  rw [e4MapLegacy_eq g ino hl]
  rfl

end Bytes

def SizeKnown (ino : Mem) (maxSize : U32) : Prop := read32 ino 108 = 0 ∨ maxSize ≤ e4InoSizeOf ino

theorem sizeKnown_iff (ino : Mem) (maxSize : U32) :
    SizeKnown ino maxSize ↔ min (e4InoSizeOf ino).toNat maxSize.toNat = min (fileSize ino) maxSize.toNat := by
  have hlow : (e4InoSizeOf ino).toNat = (read32 ino 4).toNat := rfl
  have := (read32 ino 4).isLt
  have := maxSize.isLt
  unfold SizeKnown fileSize
  rw [eq_zero_iff, BitVec.le_def, hlow]
  omega

def BytesAgree (v : Vol) (ino : Mem) (d n : Nat) : Prop :=
  hasFlag ino extentsFl = true → ∀ k < n, ∀ r, extentOf v ino d (k / v.blksize.toNat) = some r →
    ByteAgrees v (k / v.blksize.toNat) (k % v.blksize.toNat) r

theorem readByte_iff {v : Vol} (g : Geometry v) {ino : Mem} {d : Nat} (ht : hasFlag ino extentsFl = true → ExtentTree v ino d)
    {k : Nat} (hk : k < 2 ^ 32) : readByte v ino k = fileByte v ino d k ↔ (hasFlag ino extentsFl = true →
      ∀ r, extentOf v ino d (k / v.blksize.toNat) = some r → ByteAgrees v (k / v.blksize.toNat) (k % v.blksize.toNat) r) := by
  have hsize := g.size_nat
  have hsmall : k / v.blksize.toNat < 2 ^ 22 := Nat.div_lt_of_lt_mul (by
    have : 1024 * 2 ^ 22 ≤ v.blksize.toNat * 2 ^ 22 := Nat.mul_le_mul_right _ (by omega)
    omega)
  have hback : (BitVec.ofNat 32 (k / v.blksize.toNat)).toNat = k / v.blksize.toNat := by
    rw [BitVec.toNat_ofNat, Nat.mod_eq_of_lt (by omega)]
  unfold readByte fileByte e4MapBlock
  dsimp only
  cases hflag : hasFlag ino extentsFl with
  | true =>
    have hone := extentByte_iff (ht hflag) (by rw [hback]; exact hsmall) (k % v.blksize.toNat)
    rw [hback] at hone
    simp only [if_true, forall_const]
    exact hone
  | false =>
    have hleg := legacyByte_eq g ino (by rw [hback]; exact hsmall) (k % v.blksize.toNat)
    rw [hback] at hleg
    exact iff_of_true hleg (fun h => by cases h)

theorem ext4ReadFile_eq {v : Vol} (g : Geometry v) {path : List Byte} {n : U32} {ino : Mem}
    (hr : e4Resolve v path = some (n, ino)) (hreg : inoIsReg ino = true) (hplain : hasFlag ino inlineDataFl = false)
    (maxSize : U32) : ext4ReadFile v path maxSize =
      some ((List.range (min (e4InoSizeOf ino).toNat maxSize.toNat)).map (readByte v ino)) := by
  have hsize : (if maxSize < e4InoSizeOf ino then maxSize else e4InoSizeOf ino).toNat =
      min (e4InoSizeOf ino).toNat maxSize.toNat := by
    split
    · rename_i hlt
      have := BitVec.lt_def.mp hlt
      omega
    · rename_i hge
      have := Nat.le_of_not_lt fun h => hge (BitVec.lt_def.mpr h)
      omega
  have hloop := readLoop_eq g ino (if maxSize < e4InoSizeOf ino then maxSize else e4InoSizeOf ino)
    (if maxSize < e4InoSizeOf ino then maxSize else e4InoSizeOf ino).toNat 0 (Nat.zero_le _) (Nat.sub_le _ _)
  have hzero : (0 : U32).toNat = 0 := rfl
  unfold ext4ReadFile
  simp only [hr, hreg, hplain, Bool.true_eq_false, Bool.false_eq_true, if_false]
  rw [hloop, hsize, hzero, Nat.sub_zero]
  simp only [Nat.zero_add]

def imageOf (l : List (Nat × Byte)) : Device := fun lba i => (l.lookup (lba.toNat * 512 + i)).getD 0

/-- 64 blocks of 1024 bytes: descriptors in block 2, inodes in block 3, the root directory in block 5. Its one entry is
`a`, inode 3, a file of one byte in an extent with the stored length `raw` that begins at block 6. -/
def oneFile (raw : U16) : Device :=
  imageOf [(1028, 64), (1044, 1), (1057, 0x20), (1064, 16), (1080, 0x53), (1081, 0xEF), (1112, 128), (1120, 0x42),
    (2056, 3),
    (3200, 0xED), (3201, 0x41), (3205, 4), (3240, 5),
    (3328, 0xA4), (3329, 0x81), (3332, 1), (3362, 8), (3368, 0x0A), (3369, 0xF3), (3370, 1), (3372, 4),
    (3384, raw.setWidth 8), (3385, (raw >>> 8).setWidth 8), (3388, 6),
    (5120, 3), (5125, 4), (5126, 1), (5127, 1), (5128, 0x61),
    (6144, 0x41)]

theorem files_mount : (ext4Mount (oneFile 1) 128 0 zeros).isSome = true ∧
    (ext4Mount (oneFile 0x8000) 128 0 zeros).isSome = true := by decide

theorem oneFile_mounts : (ext4Mount (oneFile 1) 128 0 zeros).isSome = true := files_mount.1
theorem fullFile_mounts : (ext4Mount (oneFile 0x8000) 128 0 zeros).isSome = true := files_mount.2

def oneVol : Vol := (ext4Mount (oneFile 1) 128 0 zeros).get oneFile_mounts
def fullVol : Vol := (ext4Mount (oneFile 0x8000) 128 0 zeros).get fullFile_mounts

def onePath : List Byte := [slash, 0x61]

theorem vols_resolve : (e4Resolve oneVol onePath).isSome = true ∧ (e4Resolve fullVol onePath).isSome = true := by
  decide

theorem oneVol_resolves : (e4Resolve oneVol onePath).isSome = true := vols_resolve.1
theorem fullVol_resolves : (e4Resolve fullVol onePath).isSome = true := vols_resolve.2

theorem some_pair {α β : Type} {o : Option (α × β)} (h : o.isSome = true) : o = some ((o.get h).1, (o.get h).2) :=
  (Option.some_get h).symm

def oneIno : Mem := ((e4Resolve oneVol onePath).get oneVol_resolves).2
def fullIno : Mem := ((e4Resolve fullVol onePath).get fullVol_resolves).2

theorem oneVol_mounted : ext4Mount (oneFile 1) 128 0 zeros = some oneVol := (Option.some_get oneFile_mounts).symm

theorem fullVol_mounted : ext4Mount (oneFile 0x8000) 128 0 zeros = some fullVol :=
  (Option.some_get fullFile_mounts).symm

theorem oneVol_resolved : e4Resolve oneVol onePath = some (((e4Resolve oneVol onePath).get oneVol_resolves).1, oneIno) :=
  some_pair oneVol_resolves

theorem fullVol_resolved :
    e4Resolve fullVol onePath = some (((e4Resolve fullVol onePath).get fullVol_resolves).1, fullIno) :=
  some_pair fullVol_resolves

theorem inos_compute : (NodeOk oneVol 0 (iBlock oneIno) 60 ∧
      Within Extent.block Extent.finish Index.block 0 0 (2 ^ 32) (decode oneVol 0 (iBlock oneIno)) ∧
      min (e4InoSizeOf oneIno).toNat (16 : U32).toNat = 1 ∧
      extentOf oneVol oneIno 0 0 = some ([], { block := 0, raw := 1, start := 6 }) ∧
      inoIsReg oneIno = true ∧ hasFlag oneIno inlineDataFl = false ∧ SizeKnown oneIno 16) ∧
    NodeOk fullVol 0 (iBlock fullIno) 60 ∧
      Within Extent.block Extent.finish Index.block 0 0 (2 ^ 32) (decode fullVol 0 (iBlock fullIno)) ∧
      inoIsReg fullIno = true ∧ hasFlag fullIno inlineDataFl = false ∧
      fileBytes fullVol fullIno 0 (min (fileSize fullIno) (16 : U32).toNat) = [0x41] ∧
      ext4ReadFile fullVol onePath 16 = some [0] := by
  unfold NodeOk Within SizeKnown
  decide

theorem oneIno_tree : ExtentTree oneVol oneIno 0 := ⟨Nat.zero_le 5, inos_compute.1.1, inos_compute.1.2.1⟩

theorem fullIno_tree : ExtentTree fullVol fullIno 0 := ⟨Nat.zero_le 5, inos_compute.2.1, inos_compute.2.2.1⟩

theorem oneIno_agrees : BytesAgree oneVol oneIno 0 (min (e4InoSizeOf oneIno).toNat (16 : U32).toNat) := by
  obtain ⟨-, -, hcount, hfirst, -⟩ := inos_compute.1
  rw [hcount]
  intro _ k hk r hr
  obtain rfl : k = 0 := by omega
  rw [Nat.zero_div, hfirst] at hr
  injection hr with hr
  subst hr
  exact Or.inl (by decide)

end Ezos.Ext4
