import Mathlib.Data.List.GetD
import Ezos.Erofs.ReadZ
import Ezos.Erofs.Packs

/-!
# Compressed files of an image

A well-formed compressed file has an index in one of the two formats. It is read back when what every turn makes of a physical
cluster are the bytes of the file there.
-/

namespace Ezos.Erofs

open Lib.Memory Lib.Segments

set_option autoImplicit false

def lclusters (ino : Inode) (zi : ZInfo) : Nat := (ino.size + zi.lclustersz - 1) / zi.lclustersz

/-- A compressed file without the refused features: its extents, of at most 64 KB each, cover it with what they decompress to, and
its index tells where they begin. -/
structure ZSound (v : Vol) (ino : Inode) (zi : ZInfo) (heads : Heads) (data : Nat → List Byte) : Prop where
  fill : erZFillLazy v ino = some zi
  cut : Cut heads zi.lclustersz ino.size
  clusters : Clusters v zi heads
  blocks : ∀ c h, heads c = some h → h.blocks < d0Cblkcnt
  short : ∀ x < ino.size, x - headStart heads zi.lclustersz (owner heads zi.lclustersz x) < 65536
  covers : ∀ x < ino.size,
    x - headStart heads zi.lclustersz (owner heads zi.lclustersz x) < (data (owner heads zi.lclustersz x)).length
  index : LegacyIndex v ino zi heads (lclusters ino zi) ∨ CompactIndex v ino zi heads (lclusters ino zi)

variable {v : Vol} {ino : Inode} {zi : ZInfo} {heads : Heads} {data : Nat → List Byte}

theorem lt_lclusters_iff {c : Nat} : c < lclusters ino zi ↔ c * zi.lclustersz < ino.size := lt_blocks_iff zi.lclustersz_pos

theorem ZSound.lclustersz_bounds (h : ZSound v ino zi heads data) (hlo : 9 ≤ v.blkszbits) (hhi : v.blkszbits ≤ 12) :
    512 ≤ zi.lclustersz ∧ zi.lclustersz ≤ 524288 := by
  have hbits : zi.lclusterbits ≤ v.blkszbits + 7 := by
    have hfill := h.fill
    unfold erZFillLazy at hfill
    dsimp only at hfill
    split at hfill
    · cases hfill
    · split at hfill
      · cases hfill
      · split at hfill
        · cases hfill
        · split at hfill
          · cases hfill
          · obtain rfl := Option.some.inj hfill
            dsimp only
            have hmask : (v.read ino.zHeader zeros 0 8 7 &&& 7).toNat ≤ 7 := by
              rw [BitVec.toNat_and]
              exact Nat.and_le_right
            omega
  have hlow := h.clusters.bits
  constructor
  · exact Nat.pow_le_pow_right (by decide : 0 < 2) (by omega : 9 ≤ zi.lclusterbits)
  · exact Nat.pow_le_pow_right (by decide : 0 < 2) (by omega : zi.lclusterbits ≤ 19)

theorem ZSound.tellable (h : ZSound v ino zi heads data) (hlo : 9 ≤ v.blkszbits) (hhi : v.blkszbits ≤ 12) :
    Tellable heads (lclusters ino zi) := by
  refine ⟨h.blocks, fun c hc => ?_⟩
  have hlt := lt_lclusters_iff.mp hc
  obtain ⟨hmin, _⟩ := h.lclustersz_bounds hlo hhi
  cases hhead : heads c with
  | some hd =>
    rw [lastHead_of_some hhead, Nat.sub_self]
    decide
  | none =>
    have h0 := h.cut.isSome_zero hlt
    have hclt := lastHead_lt_of_none h0 hhead
    have hdiv : c * zi.lclustersz / zi.lclustersz = c := Nat.mul_div_cancel _ zi.lclustersz_pos
    have howner : owner heads zi.lclustersz (c * zi.lclustersz) = lastHead heads c := by
      obtain ⟨k, rfl⟩ : ∃ k, c = k + 1 := ⟨c - 1, by omega⟩
      rw [owner, begun_of_none (by rw [hdiv, hhead]), if_neg Bool.false_ne_true, hdiv, lastHead_succ_of_none hhead,
        Nat.add_sub_cancel]
    obtain ⟨hd, hd0⟩ := lastHead_some h0 c
    have hofs := h.cut.ofs_lt _ _ hd0
    have hshort := h.short _ hlt
    rw [howner, headStart, hd0, Option.map_some, Option.getD_some] at hshort
    -- `(c - lastHead - 1)` whole logical clusters lie between.
    obtain ⟨d, hd⟩ : ∃ d, c = lastHead heads c + 1 + d := ⟨c - lastHead heads c - 1, by omega⟩
    have hmul : c * zi.lclustersz = lastHead heads c * zi.lclustersz + zi.lclustersz + d * zi.lclustersz := by
      calc c * zi.lclustersz = (lastHead heads c + 1 + d) * zi.lclustersz := by rw [← hd]
        _ = _ := by rw [Nat.add_mul, Nat.succ_mul]
    have hd512 : d * 512 ≤ d * zi.lclustersz := Nat.mul_le_mul_left d hmin
    unfold d0Cblkcnt
    omega

theorem ZSound.loads (h : ZSound v ino zi heads data) (hlo : 9 ≤ v.blkszbits) (hhi : v.blkszbits ≤ 12) :
    Loads v ino zi heads (lclusters ino zi) := by
  have ht := h.tellable hlo hhi
  rcases h.index with hi | hi
  · exact hi.loads ht
  · rcases Nat.eq_zero_or_pos ino.size with hzero | hpos
    · have hnone : ∀ c, ¬ c < lclusters ino zi := fun c hc => by
        have hlt := lt_lclusters_iff.mp hc
        omega
      exact ⟨fun _ c _ hc _ => absurd hc (hnone c), fun _ c hc _ => absurd hc (hnone c)⟩
    · exact hi.loads hlo ht (h.cut.isSome_zero hpos)

theorem ZSound.compressed (h : ZSound v ino zi heads data) (hlo : 9 ≤ v.blkszbits) (hhi : v.blkszbits ≤ 12)
    (hsize : ino.size ≤ sizeMax) : Compressed v ino zi heads (lclusters ino zi) := by
  obtain ⟨_, hmax⟩ := h.lclustersz_bounds hlo hhi
  refine ⟨h.fill, h.cut, fun x hx => ?_, h.clusters, h.loads hlo hhi, ?_⟩
  · exact lt_lclusters_iff.mpr (Nat.lt_of_le_of_lt (Nat.div_mul_le_self _ _) hx)
  · unfold sizeMax at hsize
    omega

theorem ZSound.layout (h : ZSound v ino zi heads data) :
    ino.datalayout = compressedFull ∨ ino.datalayout = compressedCompact :=
  h.index.imp (fun hi => hi.layout) fun hi => hi.layout

def ZReadsBack (v : Vol) (path : List Byte) (size : Nat) (f : Nat → Byte) (buf : Mem) (max : Nat) (z : Inflate) : Prop :=
  ∃ out, (erofsReadFile v path buf max z).2 = some (out, min size max) ∧ ∀ k < min size max, out k = f k

/-- The file is one that the driver loads, and what every turn makes of a physical cluster are the bytes of the file there. -/
structure ZFits (v : Vol) (nid : U32) (zi : ZInfo) (heads : Heads) (data : Nat → List Byte) (max : Nat) (z : Inflate) : Prop where
  named : nid ≠ 0
  size : (inodeAt v nid).size ≤ sizeMax
  turns : TurnsFit v (inodeAt v nid) zi heads data (lclusters (inodeAt v nid) zi) max (inodeAt v nid).size 0 z

def Repeats (ino : Inode) (zi : ZInfo) (heads : Heads) (data : Nat → List Byte) (max : Nat) : Prop :=
  ∀ c, c * zi.lclustersz < min ino.size max → RepeatsAt ino heads zi.lclustersz data max (c * zi.lclustersz)

theorem erReadFileData_of_compressed (h : ZSound v ino zi heads data) (buf : Mem) (max : Nat) (z : Inflate) :
    (erReadFileData v ino buf max z).2 =
      (erReadZFrom v ino zi max ino.size 0 buf z).2.map fun out => (out, min ino.size max) := by
  have hdata : erReadFileData v ino buf max z = erReadZ v ino buf max z := by
    unfold erReadFileData
    rcases h.layout with hl | hl
    · rw [hl, if_neg (by decide), if_neg (by decide), if_pos (by decide)]
    · rw [hl, if_neg (by decide), if_neg (by decide), if_pos (by decide)]
  rw [hdata, erReadZ, h.fill]
  dsimp only
  generalize erReadZFrom v ino zi max ino.size 0 buf z = r
  obtain ⟨z', out⟩ := r
  cases out with
  | none => rfl
  | some out => rfl

variable {nid : U32} {path : List Byte} {max : Nat}

theorem zReadsBack_iff (hlo : 9 ≤ v.blkszbits) (hhi : v.blkszbits ≤ 12)
    (hroot : erLoadInode v v.rootNid = some (inodeAt v v.rootNid)) (hpath : Leads v (segs slash path) v.rootNid nid)
    (hreg : (inodeAt v nid).isReg = true) (h : ZSound v (inodeAt v nid) zi heads data) (buf : Mem) (z : Inflate) :
    ZReadsBack v path (inodeAt v nid).size (fileByte heads zi.lclustersz data) buf max z ↔ ZFits v nid zi heads data max z := by
  by_cases hno : nid = 0 ∨ sizeMax < (inodeAt v nid).size
  · have hread : erofsReadFile v path buf max z = (z, none) := by
      rw [erofsReadFile_eq hroot hpath, if_pos (hno.imp_right Or.inl)]
    refine iff_of_false ?_ fun hfits => hno.elim hfits.named (Nat.not_lt.mpr hfits.size)
    rintro ⟨out, hout, _⟩
    rw [hread] at hout
    cases hout
  · obtain ⟨hnid, hbig⟩ := not_or.mp hno
    have hsize := Nat.le_of_not_lt hbig
    have hc := h.compressed hlo hhi hsize
    have hread : (erofsReadFile v path buf max z).2 =
        (erReadZFrom v (inodeAt v nid) zi max (inodeAt v nid).size 0 buf z).2.map
          fun out => (out, min (inodeAt v nid).size max) := by
      rw [erofsReadFile_eq hroot hpath, if_neg (not_or.mpr ⟨hnid, not_or.mpr ⟨hbig, by rw [hreg]; exact Bool.noConfusion⟩⟩)]
      exact erReadFileData_of_compressed h buf max z
    have hcount : min (inodeAt v nid).size max - 0 ≤ (inodeAt v nid).size :=
      Nat.le_trans (Nat.sub_le _ _) (Nat.min_le_left _ _)
    have hiff : _ ↔ TurnsFit v (inodeAt v nid) zi heads data _ max _ 0 z := hc.delivers_iff hcount buf z
    constructor
    · rintro ⟨out, hout, hbytes⟩
      rw [hread] at hout
      obtain ⟨out', hout', heq⟩ := Option.map_eq_some_iff.mp hout
      obtain rfl := congrArg Prod.fst heq
      exact ⟨hnid, hsize, hiff.mp ⟨out', hout', fun x _ hx => hbytes x hx⟩⟩
    · intro hfits
      obtain ⟨out, hout, hbytes⟩ := hiff.mpr hfits.turns
      exact ⟨out, by rw [hread, hout, Option.map_some], fun k hk => hbytes k (Nat.zero_le k) hk⟩

theorem repeatsAt_of_head {lsz t : Nat} {h : Head} (hh : heads (t / lsz) = some h) (hofs : t % lsz = h.ofs) :
    RepeatsAt ino heads lsz data max t := by
  have hbegun : begun heads lsz t = true := by
    rw [begun_of_some hh, hofs]
    exact decide_eq_true (Nat.le_refl _)
  have hstart : headStart heads lsz (owner heads lsz t) = t := by
    rw [owner, if_pos hbegun, headStart, hh, Option.map_some, Option.getD_some, ← hofs]
    exact Nat.div_add_mod' t lsz
  intro x _ _
  rw [hstart]

theorem ZSound.turnsFit_iff (h : ZSound v ino zi heads data) (hlo : 9 ≤ v.blkszbits) (hhi : v.blkszbits ≤ 12)
    (hsize : ino.size ≤ sizeMax) {z : Inflate} (hd : Decodes v ino zi heads data (lclusters ino zi) z) :
    TurnsFit v ino zi heads data (lclusters ino zi) max ino.size 0 z ↔ Repeats ino zi heads data max := by
  have hc := h.compressed hlo hhi hsize
  rw [hc.turnsFit_iff hd .start (Nat.le_trans (Nat.sub_le _ _) (Nat.min_le_left _ _)) (Or.inl (Nat.zero_mod _))]
  constructor
  · intro hall c hlt
    exact hall _ (Nat.zero_le _) hlt (Or.inl (Nat.mul_mod_left _ _))
  · intro hall t _ hlt hturn
    rcases hturn with hzero | ⟨hd, hh, hofs⟩
    · have hmul : t / zi.lclustersz * zi.lclustersz = t := Nat.div_mul_cancel (Nat.dvd_of_mod_eq_zero hzero)
      have hrep := hall (t / zi.lclustersz) (by rw [hmul]; exact hlt)
      rwa [hmul] at hrep
    · exact repeatsAt_of_head hh hofs

theorem ZFits.repeats {z : Inflate} (hf : ZFits v nid zi heads data max z) (hz : ZSound v (inodeAt v nid) zi heads data)
    (hlo : 9 ≤ v.blkszbits) (hhi : v.blkszbits ≤ 12) (hd : Decodes v (inodeAt v nid) zi heads data (lclusters (inodeAt v nid) zi) z) :
    Repeats (inodeAt v nid) zi heads data max :=
  (hz.turnsFit_iff hlo hhi hf.size hd).mp hf.turns

variable {d : Device} {part : U32}

/-- In a mounted image a compressed file is read back exactly when it fits; where the decompressor is right, this says that its
extents repeat their first bytes in every logical cluster that begins inside them. -/
theorem compressed_read_iff (h : WellFormed d part) (hv : erofsMount d part = some v)
    (hpath : Leads v (segs slash path) v.rootNid nid) (hreg : (inodeAt v nid).isReg = true)
    (hz : ZSound v (inodeAt v nid) zi heads data) (buf : Mem) (max : Nat) (z : Inflate) :
    (ZReadsBack v path (inodeAt v nid).size (fileByte heads zi.lclustersz data) buf max z ↔ ZFits v nid zi heads data max z) ∧
      (Decodes v (inodeAt v nid) zi heads data (lclusters (inodeAt v nid) zi) z →
        (ZFits v nid zi heads data max z ↔
          nid ≠ 0 ∧ (inodeAt v nid).size ≤ sizeMax ∧ Repeats (inodeAt v nid) zi heads data max)) := by
  obtain ⟨rfl, hfits⟩ := h.mount_iff.mp hv
  have hlo : 9 ≤ (volumeOf d part).blkszbits := h.accepted.blkszbits.1
  have hhi : (volumeOf d part).blkszbits ≤ 12 := h.accepted.blkszbits.2
  refine ⟨zReadsBack_iff hlo hhi (erLoadInode_of_le hfits.size) hpath hreg hz buf z, fun hd => ⟨fun hf => ?_, fun hf => ?_⟩⟩
  · exact ⟨hf.named, hf.size, hf.repeats hz hlo hhi hd⟩
  · exact ⟨hf.1, hf.2.1, (hz.turnsFit_iff hlo hhi hf.2.1 hd).mpr hf.2.2⟩

/-! ## Images -/

def packedFile (size : U16) : List Byte :=
  [2, 0, 0, 0, 0xA4, 0x81, 1, 0, size.setWidth 8, (size >>> 8).setWidth 8] ++ List.replicate 38 0 ++
  [1, 0, 0, 0, 4, 0, 0, 0] ++ [2, 0, 0, 0, 1, 0, 1, 0]

def packedBlock : List Byte := [0x2E, 0x61, 0x62, 2, 0, 0xF0, 255, 234] ++ List.replicate 504 0

def packedData : List Byte := (List.replicate 10 [0x61, 0x62]).flatten ++ List.replicate 504 0

def packedImage (size : U16) : Device := fun lba =>
  if lba = 2 then writeBytes zeros 0 (superBytes 9 1 3)
  else if lba = 3 then writeBytes zeros 32 (inodeArea 1 (packedFile size))
  else if lba = 4 then writeBytes zeros 0 packedBlock
  else zeros

def oneHead : Heads := fun c => if c = 0 then some ⟨0, false, 4, 1⟩ else none

def packedInfo : ZInfo := ⟨0, 0, 0, 9⟩

abbrev packedInode (size : U16) : Inode := inodeAt (volumeOf (packedImage size) 0) 4

structure PackedSound (len : U16) : Prop where
  small : SmallSound (packedImage len) 1
  mounted : (volumeOf (packedImage len) 0).rootNid.setWidth 64 < (volumeOf (packedImage len) 0).inos
  chksum : read32 (packedImage len 2) 8 &&& compatChksum = 0
  isReg : (packedInode len).isReg = true
  size : (packedInode len).size = len.toNat
  blkszbits : (volumeOf (packedImage len) 0).blkszbits = 9
  layout : (packedInode len).datalayout = compressedFull
  fill : erZFillLazy (volumeOf (packedImage len) 0) (packedInode len) = some packedInfo
  head : (read16 (volumeOf (packedImage len) 0).byte ((packedInode len).zHeader + 16)).toNat % 4 = ltypeHead1 ∧
    (read16 (volumeOf (packedImage len) 0).byte ((packedInode len).zHeader + 18)).toNat = 0 ∧
    read32 (volumeOf (packedImage len) 0).byte ((packedInode len).zHeader + 20) = 4
  nonhead : (read16 (volumeOf (packedImage len) 0).byte ((packedInode len).zHeader + 24)).toNat % 4 = ltypeNonhead ∧
    (read16 (volumeOf (packedImage len) 0).byte ((packedInode len).zHeader + 28)).toNat = 1
  block : erLz4Decompress (clusterMem (volumeOf (packedImage len) 0) ⟨0, false, 4, 1⟩ 512) 512 erZbuf = some packedData

theorem clusterMem_packed (len : U16) :
    clusterMem (volumeOf (packedImage len) 0) ⟨0, false, 4, 1⟩ 512 = writeBytes zeros 0 packedBlock := by
  have hlen : packedBlock.length = 512 := by
    rw [packedBlock, List.length_append, List.length_replicate]
    rfl
  have hoff : (4 : U32).toNat * (volumeOf (packedImage len) 0).blksz = 2048 := rfl
  have hlba : (volumeOf (packedImage len) 0).part + BitVec.ofNat 32 4 = 4 := rfl
  rw [clusterMem, hoff, Vol.read_eq, writeBytes, hlen]
  apply copyIn_congr
  intro i hi
  have hblk : (2048 + i) / 512 = 4 := by omega
  have hin : (2048 + i) % 512 = i := by omega
  have hbyte : ∀ off, (volumeOf (packedImage len) 0).byte off =
      packedImage len ((volumeOf (packedImage len) 0).part + BitVec.ofNat 32 (off / 512)) (off % 512) :=
    fun _ => rfl
  rw [hbyte, hblk, hin, hlba, packedImage, if_neg (by decide), if_neg (by decide), if_pos rfl, writeBytes, copyIn,
    if_pos ⟨Nat.zero_le i, by omega⟩, Nat.sub_zero]

theorem lz4From_match {src : Mem} {srclen dstcap fuel sp ll lit ml next : Nat} {out : List Byte} (hsp : sp < srclen)
    (hll : lz4Field src srclen (sp + 1) ((src sp).toNat / 16) = some (ll, lit))
    (hfits : out.length + ll ≤ dstcap ∧ lit + ll + 2 ≤ srclen)
    (hoff : (read16 src (lit + ll)).toNat ≠ 0 ∧ (read16 src (lit + ll)).toNat ≤ out.length + ll)
    (hml : lz4Field src srclen (lit + ll + 2) ((src sp).toNat % 16) = some (ml, next))
    (hroom : out.length + ll + (ml + 4) ≤ dstcap) :
    lz4From src srclen dstcap (fuel + 1) sp out = lz4From src srclen dstcap fuel next
      (copyBack (read16 src (lit + ll)).toNat (ml + 4) (out ++ bytesAt src lit ll)) := by
  have hlen : (out ++ bytesAt src lit ll).length = out.length + ll := by rw [List.length_append, length_bytesAt]
  rw [lz4From, if_neg (by omega)]
  simp only [hll]
  rw [if_neg (by omega), if_neg (by omega), if_neg (by omega), hlen, if_neg (by omega)]
  simp only [hml]
  rw [if_neg (by omega)]

theorem lz4From_last {src : Mem} {srclen dstcap fuel sp ll lit : Nat} {out : List Byte} (hsp : sp < srclen)
    (hll : lz4Field src srclen (sp + 1) ((src sp).toNat / 16) = some (ll, lit)) (hfits : out.length + ll ≤ dstcap)
    (hend : lit + ll = srclen) :
    lz4From src srclen dstcap (fuel + 1) sp out = some (out ++ bytesAt src lit ll) := by
  rw [lz4From, if_neg (by omega)]
  simp only [hll]
  rw [if_neg (by omega), if_pos hend]

theorem bytesAt_packed : bytesAt (writeBytes zeros 0 packedBlock) 8 504 = List.replicate 504 0 := by
  refine List.eq_replicate_iff.mpr ⟨length_bytesAt, fun b hb => ?_⟩
  obtain ⟨i, hi, rfl⟩ := List.mem_map.mp hb
  have hi := List.mem_range.mp hi
  have hlen : packedBlock.length = 512 := by
    rw [packedBlock, List.length_append, List.length_replicate]
    rfl
  have hin : 8 + i < packedBlock.length := by
    rw [hlen]
    omega
  have hat := writeBytes_inside (m := zeros) (a := 0) hin
  rw [Nat.zero_add] at hat
  rw [hat, packedBlock, List.getD_append_right _ _ _ _ (by simp), List.getD_replicate 0 (by simp only [List.length_cons, List.length_nil]; omega)]

theorem packedBlock_decodes : erLz4Decompress (writeBytes zeros 0 packedBlock) 512 erZbuf = some packedData := by
  have hall : lz4Field (writeBytes zeros 0 packedBlock) 512 (0 + 1) ((writeBytes zeros 0 packedBlock 0).toNat / 16) =
        some (2, 1) ∧
      lz4Field (writeBytes zeros 0 packedBlock) 512 (1 + 2 + 2) ((writeBytes zeros 0 packedBlock 0).toNat % 16) =
        some (14, 5) ∧
      lz4Field (writeBytes zeros 0 packedBlock) 512 (5 + 1) ((writeBytes zeros 0 packedBlock 5).toNat / 16) =
        some (504, 8) ∧
      (read16 (writeBytes zeros 0 packedBlock) (1 + 2)).toNat = 2 ∧
      copyBack 2 (14 + 4) ([] ++ bytesAt (writeBytes zeros 0 packedBlock) 1 2) =
        (List.replicate 10 [0x61, 0x62]).flatten := by decide +kernel
  obtain ⟨hfirst, hmatch, hlast, hoff, hout⟩ := hall
  have hroom : (List.replicate 10 [(0x61 : Byte), 0x62]).flatten.length + 504 ≤ erZbuf := by decide
  have htwo := @lz4From_match _ 512 erZbuf 512 0 2 1 14 5 [] (by decide) hfirst (by decide) (by rw [hoff]; decide) hmatch
    (by decide)
  have hrest := @lz4From_last _ 512 erZbuf 511 5 504 8 _ (by decide) hlast hroom rfl
  rw [erLz4Decompress, htwo, hoff, hout, hrest, bytesAt_packed, packedData]

theorem packed_sound {len : U16} (hlen : len = 524 ∨ len = 10) : PackedSound len := by
  rcases hlen with rfl | rfl
  all_goals
    refine ⟨⟨⟨?_, ?_, ?_, ?_⟩, ?_, ?_, ?_, ?_, ?_, ?_, ?_, ?_, ?_⟩, ?_, ?_, ?_, ?_, ?_, ?_, ?_, ?_, ?_, ?_⟩
    case refine_23 => rw [clusterMem_packed, packedBlock_decodes]
    all_goals decide +kernel

theorem packed524_sound : PackedSound 524 := packed_sound (.inl rfl)

theorem packed10_sound : PackedSound 10 := packed_sound (.inr rfl)

section Packed

variable {len : U16}

theorem PackedSound.lclusters_le (h : PackedSound len) (hle : len.toNat ≤ 524) : lclusters (packedInode len) packedInfo ≤ 2 := by
  have hlsz : packedInfo.lclustersz = 512 := rfl
  rw [lclusters, h.size, hlsz]
  omega

theorem owner_oneHead {x : Nat} (hx : x < 1024) : owner oneHead 512 x = 0 := by
  have hcases : x / 512 = 0 ∨ x / 512 = 1 := by omega
  rcases hcases with h0 | h1
  · unfold owner
    rw [h0]
    split <;> rfl
  · have hnone : oneHead (x / 512) = none := by
      rw [h1]
      rfl
    rw [owner, begun_of_none hnone, if_neg Bool.false_ne_true, h1]
    rfl

theorem headStart_oneHead : headStart oneHead 512 0 = 0 := rfl

theorem oneHead_some {c : Nat} {h : Head} (hh : oneHead c = some h) : c = 0 ∧ h = ⟨0, false, 4, 1⟩ := by
  unfold oneHead at hh
  by_cases hc : c = 0
  · rw [if_pos hc] at hh
    exact ⟨hc, (Option.some.inj hh).symm⟩
  · rw [if_neg hc] at hh
    cases hh

theorem PackedSound.zSound (h : PackedSound len) (hpos : 0 < len.toNat) (hle : len.toNat ≤ 524) :
    ZSound (volumeOf (packedImage len) 0) (packedInode len) packedInfo oneHead fun _ => packedData := by
  have hlsz : packedInfo.lclustersz = 512 := rfl
  have hblksz : (volumeOf (packedImage len) 0).blksz = 512 := by
    rw [Vol.blksz, h.blkszbits]
    rfl
  have hstart : ∀ x < (packedInode len).size, x - headStart oneHead 512 (owner oneHead 512 x) = x := fun x hx => by
    rw [h.size] at hx
    rw [owner_oneHead (by omega), headStart_oneHead, Nat.sub_zero]
  have hdata : packedData.length = 524 := by decide +kernel
  constructor
  · exact h.fill
  · constructor
    · exact fun _ => ⟨_, rfl, rfl⟩
    · intro c hd hh
      obtain ⟨rfl, rfl⟩ := oneHead_some hh
      rw [hlsz]
      decide
    · intro c hd hh
      obtain ⟨rfl, rfl⟩ := oneHead_some hh
      rw [h.size]
      change 0 * packedInfo.lclustersz + 0 < len.toNat
      omega
  · constructor
    · rw [h.blkszbits]
      decide
    · intro c hd hh _
      obtain ⟨rfl, rfl⟩ := oneHead_some hh
      rw [hblksz]
      rfl
    · intro c hd hh
      obtain ⟨rfl, rfl⟩ := oneHead_some hh
      decide
  · intro c hd hh
    obtain ⟨rfl, rfl⟩ := oneHead_some hh
    decide
  · intro x hx
    rw [hlsz, hstart x hx]
    rw [h.size] at hx
    omega
  · intro x hx
    rw [hlsz, hstart x hx, hdata]
    rw [h.size] at hx
    omega
  · have hn := h.lclusters_le hle
    refine Or.inl ⟨h.layout, fun c hd hc hh => ?_, fun c hc hnone => ?_⟩
    · obtain ⟨rfl, rfl⟩ := oneHead_some hh
      exact h.head
    · have hone : c = 1 := by
        have hne : c ≠ 0 := fun hz => by
          rw [hz] at hnone
          cases hnone
        omega
      subst hone
      exact h.nonhead

theorem PackedSound.decodes (h : PackedSound len) (hpos : 0 < len.toNat) (hle : len.toNat ≤ 524) (z : Inflate) :
    Decodes (volumeOf (packedImage len) 0) (packedInode len) packedInfo oneHead (fun _ => packedData)
      (lclusters (packedInode len) packedInfo) z := by
  have hblksz : (volumeOf (packedImage len) 0).blksz = 512 := by
    rw [Vol.blksz, h.blkszbits]
    rfl
  refine ⟨fun c hd hh => ?_, (h.zSound hpos hle).covers⟩
  obtain ⟨rfl, rfl⟩ := oneHead_some hh
  refine ⟨512, ?_, by decide, by decide, fun hplain => Bool.noConfusion hplain, fun _ z' _ => ?_⟩
  · have hbig : packedInfo.bigPcluster = false := rfl
    rw [plenAt, if_pos (Or.inr (Or.inl hbig)), hblksz]
    rfl
  · exact h.block

theorem PackedSound.wellFormed (h : PackedSound len) : WellFormed (packedImage len) 0 := h.small.wellFormed

theorem PackedSound.mount (h : PackedSound len) :
    erofsMount (packedImage len) 0 = some (volumeOf (packedImage len) 0) := by
  refine h.wellFormed.mount_iff.mpr ⟨rfl, h.mounted, fun hbit => absurd h.chksum hbit, ?_⟩
  rw [h.small.rootNid, h.small.size]
  decide

theorem PackedSound.leads (h : PackedSound len) :
    Leads (volumeOf (packedImage len) 0) (segs slash [slash, 0x61]) (volumeOf (packedImage len) 0).rootNid 4 := by
  rw [h.small.rootNid]
  exact h.small.leads (by decide)

end Packed

def noTables : Inflate := ⟨⟨fun _ => 0, fun _ => 0⟩, ⟨fun _ => 0, fun _ => 0⟩, false⟩

/-- A file of 10 bytes is read back: its extent does not reach another logical cluster. -/
theorem packed10_readsBack :
    ZReadsBack (volumeOf (packedImage 10) 0) [slash, 0x61] (packedInode 10).size
      (fileByte oneHead 512 fun _ => packedData) zeros 10 noTables := by
  have hs := packed10_sound
  obtain ⟨hread, hright⟩ := compressed_read_iff hs.wellFormed hs.mount hs.leads hs.isReg (hs.zSound (by decide) (by decide))
    zeros 10 noTables
  refine hread.mpr ((hright (hs.decodes (by decide) (by decide) noTables)).mpr ⟨by decide, ?_, fun c hc => ?_⟩)
  · change (packedInode 10).size ≤ sizeMax
    rw [hs.size]
    decide
  · have hzero : c = 0 := by
      have hlsz : packedInfo.lclustersz = 512 := rfl
      rw [hlsz] at hc
      omega
    subst hzero
    exact repeatsAt_of_head (by rw [Nat.zero_mul, Nat.zero_div]; rfl) (by rw [Nat.zero_mul, Nat.zero_mod])

/-- In a file of 524 bytes the extent reaches into the second logical cluster, and there its first bytes are put. -/
theorem packed524_not_readsBack :
    WellFormed (packedImage 524) 0 ∧
      erofsMount (packedImage 524) 0 = some (volumeOf (packedImage 524) 0) ∧
      Leads (volumeOf (packedImage 524) 0) (segs slash [slash, 0x61]) (volumeOf (packedImage 524) 0).rootNid 4 ∧
      ZSound (volumeOf (packedImage 524) 0) (packedInode 524) packedInfo oneHead (fun _ => packedData) ∧
      ¬ ZReadsBack (volumeOf (packedImage 524) 0) [slash, 0x61] (packedInode 524).size
        (fileByte oneHead 512 fun _ => packedData) zeros 524 noTables := by
  have hs := packed524_sound
  have hz := hs.zSound (by decide) (by decide)
  have hlo : 9 ≤ (volumeOf (packedImage 524) 0).blkszbits := Nat.le_of_eq hs.blkszbits.symm
  have hhi : (volumeOf (packedImage 524) 0).blkszbits ≤ 12 := Nat.le_trans (Nat.le_of_eq hs.blkszbits) (by decide)
  refine ⟨hs.wellFormed, hs.mount, hs.leads, hz, fun hread => ?_⟩
  have hroot : (inodeAt (volumeOf (packedImage 524) 0) (volumeOf (packedImage 524) 0).rootNid).size ≤ sizeMax := by
    rw [hs.small.rootNid, hs.small.size]
    decide
  have hfits := (zReadsBack_iff hlo hhi (erLoadInode_of_le hroot) hs.leads hs.isReg hz zeros noTables).mp hread
  have hrep := hfits.repeats hz hlo hhi (hs.decodes (by decide) (by decide) noTables)
  have hsize : (packedInode 524).size = 524 := hs.size
  have hlsz : packedInfo.lclustersz = 512 := rfl
  have hlt : 1 * packedInfo.lclustersz < min (packedInode 524).size 524 := by
    rw [hsize, hlsz]
    omega
  have hlt' : 512 < min (packedInode 524).size 524 := by
    rw [hsize]
    omega
  have hnext : 512 < nextTurn oneHead packedInfo.lclustersz (1 * packedInfo.lclustersz) :=
    lt_nextTurn packedInfo.lclustersz_pos _
  have hat := hrep 1 hlt 512 (by rw [hlsz]) (Nat.lt_min.mpr ⟨hnext, hlt'⟩)
  rw [hlsz, Nat.one_mul, owner_oneHead (by decide), headStart_oneHead] at hat
  exact absurd hat (by decide +kernel)

end Ezos.Erofs
