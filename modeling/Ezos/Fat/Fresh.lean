import Ezos.Fat.Geometry
import Ezos.Fat.TreeRuns

/-!
# The volume that `fat_format` makes

What the driver reads back from the boot sector is what was put there, every entry of the FAT is free (but the one of
a FAT32 root directory), and the root directory is empty.
-/

namespace Ezos.Fat

open Lib.Memory Lib.Chains Lib.Forests

set_option autoImplicit false

variable {d d' : Disk} {k : Kind} {part total fatSize : U32} {buf bs : Mem} {a n i j c : Nat} {v : Vol} {s : Sys}

structure BootHolds (k : Kind) (total fatSize : U32) (bs : Mem) : Prop where
  bps : read16 bs 11 = 512
  spc : bs 13 = k.spc.setWidth 8
  reserved : read16 bs 14 = k.reserved.setWidth 16
  nfats : bs 16 = 2
  rootEntries : read16 bs 17 = k.rootEntries.setWidth 16
  total16 : read16 bs 19 = if total < 0x10000 then total.setWidth 16 else 0
  total32 : ¬ total < 0x10000 → read32 bs 32 = total
  size16 : k ≠ .fat32 → read16 bs 22 = fatSize.setWidth 16
  size0 : k = .fat32 → read16 bs 22 = 0
  size32 : k = .fat32 → read32 bs 36 = fatSize
  rootCluster : k = .fat32 → read32 bs 44 = 2

theorem labelOf_length (k : Kind) : (labelOf k).length = 19 := by
  cases k <;> rfl

theorem bootSector_holds : BootHolds k total fatSize (bootSector k part total fatSize) := by
  have hge : total ≥ 0x10000 ↔ ¬ total < 0x10000 := BitVec.not_lt.symm
  by_cases htotal : total < 0x10000 <;> constructor <;> unfold bootSector <;> cases k <;>
    simp only [hge, htotal, if_true, if_false, reduceCtorEq, ne_eq, not_true_eq_false, not_false_eq_true, true_implies,
      false_implies] <;>
    simp (disch := simp [labelOf_length]) only [read16_writeBytes_of_disjoint, read16_write32_of_disjoint,
      read16_write16_of_disjoint, read16_write16_self, read32_write32_self, read32_writeBytes_of_disjoint,
      read32_write16_of_disjoint, read32_write32_of_disjoint, writeBytes_of_disjoint, write16_of_disjoint,
      write32_of_disjoint] <;>
    rfl

structure BpbHolds (k : Kind) (total fatSize : U32) (b : Bpb) : Prop where
  bps : b.bps = 512
  spc : b.spc = k.spc
  reserved : b.reserved = k.reserved
  nfats : b.nfats = Fat.nfats
  rootEntries : b.rootEntries = k.rootEntries
  total : b.total = total
  fatSize : b.fatSize = fatSize
  rootCluster : k = .fat32 → b.rootCluster = 2

theorem narrow_word {x : U32} (h : x.toNat < 2 ^ 16) : (x.setWidth 16).setWidth 32 = x := by
  apply BitVec.eq_of_toNat_eq
  rw [BitVec.toNat_setWidth, BitVec.toNat_setWidth, Nat.mod_eq_of_lt h, Nat.mod_eq_of_lt x.isLt]

theorem BootHolds.bpb (h : BootHolds k total fatSize bs) (hfits : Fits k total fatSize) (htotal : total ≠ 0) :
    BpbHolds k total fatSize (bpbOf bs) := by
  have hsize : fatSize ≠ 0 := by
    rintro rfl
    exact absurd hfits.pos (by decide)
  refine ⟨?_, ?_, ?_, ?_, ?_, ?_, ?_, fun hk => h.rootCluster hk⟩
  · unfold bpbOf
    dsimp only
    rw [h.bps]
    rfl
  · unfold bpbOf
    dsimp only
    rw [h.spc]
    cases k <;> rfl
  · unfold bpbOf
    dsimp only
    rw [h.reserved]
    cases k <;> rfl
  · unfold bpbOf
    dsimp only
    rw [h.nfats]
    rfl
  · unfold bpbOf
    dsimp only
    rw [h.rootEntries]
    cases k <;> rfl
  · unfold bpbOf
    dsimp only
    rw [h.total16]
    by_cases hlt : total < 0x10000
    · rw [if_pos hlt, narrow_word hlt, if_neg htotal]
    · rw [if_neg hlt]
      exact h.total32 hlt
  · unfold bpbOf
    dsimp only
    by_cases hk : k = .fat32
    · rw [h.size0 hk]
      exact h.size32 hk
    · rw [h.size16 hk, narrow_word (hfits.narrow hk), if_pos hsize]

theorem part_add (a b : Nat) : part + BitVec.ofNat 32 a + BitVec.ofNat 32 b = part + BitVec.ofNat 32 (a + b) := by
  rw [BitVec.add_assoc, BitVec.ofNat_add]

theorem part_inj (hi : i < 2 ^ 32) (hj : j < 2 ^ 32) :
    part + BitVec.ofNat 32 i = part + BitVec.ofNat 32 j ↔ i = j := by
  rw [BitVec.add_right_inj]
  refine ⟨fun h => ?_, fun h => by rw [h]⟩
  have hn := congrArg BitVec.toNat h
  rwa [BitVec.toNat_ofNat, BitVec.toNat_ofNat, Nat.mod_eq_of_lt hi, Nat.mod_eq_of_lt hj] at hn

theorem writeSectors_at (ha : a + n ≤ 2 ^ 32) (hj : j < 2 ^ 32) :
    writeSectors d (part + BitVec.ofNat 32 a) buf n (part + BitVec.ofNat 32 j) =
      if a ≤ j ∧ j < a + n then buf else d (part + BitVec.ofNat 32 j) := by
  induction n with
  | zero => rw [if_neg (by omega), writeSectors]
  | succ n ih =>
    unfold writeSectors ataWriteSector
    rw [part_add, ih (by omega)]
    by_cases heq : j = a + n
    · rw [if_pos ((part_inj hj (by omega)).mpr heq), if_pos (by omega)]
    · rw [if_neg (fun h => heq ((part_inj hj (by omega)).mp h))]
      by_cases hin : a ≤ j ∧ j < a + n
      · rw [if_pos hin, if_pos (by omega)]
      · rw [if_neg hin, if_neg (by omega)]

theorem ataWriteSector_at (ha : a < 2 ^ 32) (hj : j < 2 ^ 32) :
    ataWriteSector d (part + BitVec.ofNat 32 a) buf (part + BitVec.ofNat 32 j) =
      if j = a then buf else d (part + BitVec.ofNat 32 j) := by
  unfold ataWriteSector
  by_cases heq : j = a
  · rw [if_pos heq, if_pos ((part_inj hj ha).mpr heq)]
  · rw [if_neg heq, if_neg (fun h => heq ((part_inj hj ha).mp h))]

theorem writeFat_at (hpos : 1 ≤ fatSize.toNat) (ha : a + fatSize.toNat ≤ 2 ^ 32) (hj : j < 2 ^ 32) :
    writeFat d k (part + BitVec.ofNat 32 a) fatSize (part + BitVec.ofNat 32 j) =
      if j = a then fat0 k else if a ≤ j ∧ j < a + fatSize.toNat then zeros else d (part + BitVec.ofNat 32 j) := by
  unfold writeFat
  have hone : (1 : U32) = BitVec.ofNat 32 1 := rfl
  rw [hone, part_add, writeSectors_at (by omega) hj, ataWriteSector_at (by omega) hj]
  by_cases heq : j = a
  · rw [if_pos heq, if_pos heq, if_neg (by omega)]
  · rw [if_neg heq, if_neg heq]
    by_cases hin : a ≤ j ∧ j < a + fatSize.toNat
    · rw [if_pos hin, if_pos (by omega)]
    · rw [if_neg hin, if_neg (by omega)]

def Kind.cleared (k : Kind) : Nat := if k = .fat32 then 1 else 32

structure Blank (d : Disk) (k : Kind) (part total fatSize : U32) : Prop where
  boot : BootHolds k total fatSize (d part)
  first : d (part + k.reserved) = fat0 k
  rest : ∀ i, 1 ≤ i → i < fatSize.toNat → d (part + BitVec.ofNat 32 (k.reserved.toNat + i)) = zeros
  second : ∀ i, i < fatSize.toNat → d (part + BitVec.ofNat 32 (k.reserved.toNat + fatSize.toNat + i)) =
    d (part + BitVec.ofNat 32 (k.reserved.toNat + i))
  area : ∀ i, i < k.cleared → d (part + BitVec.ofNat 32 (k.reserved.toNat + 2 * fatSize.toNat + i)) = zeros

theorem reserved_pos (k : Kind) : 1 ≤ k.reserved.toNat ∧ k.reserved.toNat ≤ 32 := by
  cases k <;> decide

theorem cleared_le (k : Kind) : k.cleared ≤ 32 := by
  cases k <;> decide

theorem area_lba (h : fatSize.toNat < fatSizeMax) :
    part + (k.reserved + nfats * fatSize) = part + BitVec.ofNat 32 (k.reserved.toNat + 2 * fatSize.toNat) := by
  have hsize : (k.reserved + nfats * fatSize).toNat = k.reserved.toNat + 2 * fatSize.toNat := by
    have htwo : nfats.toNat = 2 := rfl
    have hres := reserved_pos k
    unfold fatSizeMax at h
    rw [BitVec.toNat_add, BitVec.toNat_mul, htwo]
    omega
  rw [← hsize, BitVec.ofNat_toNat, BitVec.setWidth_eq]

theorem firstData_fat32 : Kind.fat32.firstData fatSize = Kind.fat32.reserved + nfats * fatSize :=
  BitVec.add_zero (Kind.fat32.reserved + nfats * fatSize)

theorem clearRoot_eq (h : fatSize.toNat < fatSizeMax) :
    (if k = .fat32 then writeSectors d (part + k.firstData fatSize) zeros k.spc.toNat
      else writeSectors d (part + k.reserved + nfats * fatSize) zeros k.rootSectors.toNat) =
      writeSectors d (part + BitVec.ofNat 32 (k.reserved.toNat + 2 * fatSize.toNat)) zeros k.cleared := by
  rw [← area_lba h]
  cases k
  · rw [if_neg (by decide), BitVec.add_assoc]
    rfl
  · rw [if_neg (by decide), BitVec.add_assoc]
    rfl
  · rw [if_pos rfl, firstData_fat32]
    rfl

theorem blank_of_writes (hfits : Fits k total fatSize) : Blank
    (writeSectors
      (writeFat (writeFat (ataWriteSector d part (bootSector k part total fatSize)) k (part + k.reserved) fatSize) k
        (part + k.reserved + fatSize) fatSize)
      (part + BitVec.ofNat 32 (k.reserved.toNat + 2 * fatSize.toNat)) zeros k.cleared) k part total fatSize := by
  have hres := reserved_pos k
  have hclear := cleared_le k
  have hpos := hfits.pos
  have hsmall := hfits.small
  unfold fatSizeMax at hsmall
  have hpart : part = part + BitVec.ofNat 32 0 := (BitVec.add_zero part).symm
  have hfirst : part + k.reserved = part + BitVec.ofNat 32 k.reserved.toNat := by
    rw [BitVec.ofNat_toNat, BitVec.setWidth_eq]
  have hsecond : part + k.reserved + fatSize = part + BitVec.ofNat 32 (k.reserved.toNat + fatSize.toNat) := by
    rw [← part_add, BitVec.ofNat_toNat, BitVec.ofNat_toNat, BitVec.setWidth_eq, BitVec.setWidth_eq]
  have hsector : ∀ j, j < 2 ^ 32 → ∀ (d : Disk) (buf : Mem),
      ataWriteSector d part buf (part + BitVec.ofNat 32 j) = if j = 0 then buf else d (part + BitVec.ofNat 32 j) := by
    intro j hj d buf
    have hzero := @ataWriteSector_at d part buf 0 j (by decide) hj
    rwa [← hpart] at hzero
  -- what a sector of the volume holds in the end
  have hat : ∀ j, j < 2 ^ 32 → writeSectors
      (writeFat (writeFat (ataWriteSector d part (bootSector k part total fatSize)) k (part + k.reserved) fatSize) k
        (part + k.reserved + fatSize) fatSize)
      (part + BitVec.ofNat 32 (k.reserved.toNat + 2 * fatSize.toNat)) zeros k.cleared (part + BitVec.ofNat 32 j) =
      if k.reserved.toNat + 2 * fatSize.toNat ≤ j ∧ j < k.reserved.toNat + 2 * fatSize.toNat + k.cleared then zeros
      else if j = k.reserved.toNat + fatSize.toNat then fat0 k
      else if k.reserved.toNat + fatSize.toNat ≤ j ∧ j < k.reserved.toNat + fatSize.toNat + fatSize.toNat then zeros
      else if j = k.reserved.toNat then fat0 k
      else if k.reserved.toNat ≤ j ∧ j < k.reserved.toNat + fatSize.toNat then zeros
      else if j = 0 then bootSector k part total fatSize
      else d (part + BitVec.ofNat 32 j) := by
    intro j hj
    rw [writeSectors_at (by omega) hj, hsecond, writeFat_at hpos (by omega) hj, hfirst, writeFat_at hpos (by omega) hj,
      hsector j hj]
  refine ⟨?_, ?_, fun i h1 hi => ?_, fun i hi => ?_, fun i hi => ?_⟩
  · have hboot := hat 0 (by decide)
    rw [← hpart] at hboot
    rw [hboot, if_neg (by omega), if_neg (by omega), if_neg (by omega), if_neg (by omega), if_neg (by omega), if_pos rfl]
    exact bootSector_holds
  · have hfat := hat k.reserved.toNat (by omega)
    rw [← hfirst] at hfat
    rw [hfat, if_neg (by omega), if_neg (by omega), if_neg (by omega), if_pos rfl]
  · rw [hat _ (by omega), if_neg (by omega), if_neg (by omega), if_neg (by omega), if_neg (by omega), if_pos (by omega)]
  · have hone := hat (k.reserved.toNat + i) (by omega)
    have htwo := hat (k.reserved.toNat + fatSize.toNat + i) (by omega)
    rw [if_neg (by omega), if_neg (by omega), if_neg (by omega)] at hone
    rw [if_neg (by omega)] at htwo
    rw [hone, htwo]
    by_cases hzero : i = 0
    · rw [if_pos (by omega), if_pos (by omega)]
    · rw [if_neg (by omega), if_pos (by omega), if_neg (by omega), if_pos (by omega)]
  · rw [hat _ (by omega), if_pos (by omega)]

theorem fatFormat_blank {cap : U32} (h : fatFormat d cap part k = some s) : ∃ d' part' total fatSize,
    Fits k total fatSize ∧ k.minClusters ≤ k.clusters total fatSize ∧ Blank d' k part' total fatSize ∧
      fatMount d' part' = some s ∧ s.vol.kind = k := by
  unfold fatFormat at h
  dsimp only at h
  generalize (if part = 0 then 1 else part) = part' at h
  obtain ⟨total, fatSize, hshrink, hsettled⟩ := shrink_settled k (cap - part')
  have hfits := hsettled.fits
  rw [hshrink] at h
  dsimp only at h
  rw [clearRoot_eq hfits.small] at h
  by_cases hno : cap = 0 ∨ cap ≤ part' + 64 ∨ k.clusters total fatSize < k.minClusters
  · rcases hno with hno | hno | hno
    · rw [if_pos hno] at h
      contradiction
    · rw [if_pos hno, ite_self] at h
      contradiction
    · rw [if_pos hno, ite_self, ite_self] at h
      contradiction
  · obtain ⟨hcap, hrest⟩ := not_or.mp hno
    obtain ⟨hroom, hmin⟩ := not_or.mp hrest
    rw [if_neg hcap, if_neg hroom, if_neg hmin] at h
    split at h
    · contradiction
    · rename_i s' hmount
      split at h
      · rename_i hkind
        obtain rfl := Option.some.inj h
        exact ⟨_, part', total, fatSize, hfits, BitVec.not_lt.mp hmin, blank_of_writes hfits, hmount, hkind⟩
      · contradiction

/-! ## The volume -/

structure Empty (v : Vol) : Prop where
  formed : Formed v
  fat : ∀ c, Within v c → v.fat c = if v.kind = .fat32 ∧ c = 2 then 0x0FFFFFFF else 0
  rootCluster : v.info.rootCluster = if v.kind = .fat32 then 2 else 0
  area : v.kind ≠ .fat32 → ∀ i, i < v.info.rootDirSectors → v.root i = zeros
  root : v.kind = .fat32 → v.data 2 = zeros

theorem fatMount_eq (h : fatMount d part = some s) : ∃ root, (root = if s.vol.kind = .fat32 then (bpbOf (d part)).rootCluster else 0) ∧
    s = { vol := volumeOf d part s.vol.kind (bpbOf (d part))
          cwd := { ready := true, root := root, cur := root, below := [], path := [Fs.slash] } } := by
  unfold fatMount at h
  dsimp only at h
  split at h
  · contradiction
  · rename_i k _
    split at h
    · contradiction
    · obtain rfl := Option.some.inj h
      exact ⟨_, rfl, rfl⟩

theorem rootDirSectors_eq {b : Bpb} (hb : BpbHolds k total fatSize b) : b.rootDirSectors = k.rootSectors := by
  unfold Bpb.rootDirSectors
  rw [hb.rootEntries, hb.bps]
  cases k <;> rfl

theorem firstData_eq {b : Bpb} (hb : BpbHolds k total fatSize b) : b.firstData = k.firstData fatSize := by
  unfold Bpb.firstData Kind.firstData
  rw [hb.reserved, hb.nfats, hb.fatSize, rootDirSectors_eq hb]

theorem clusters_eq {b : Bpb} (hb : BpbHolds k total fatSize b) (hmin : k.minClusters ≤ k.clusters total fatSize) :
    b.clusters = k.clusters total fatSize := by
  unfold Bpb.clusters
  rw [hb.total, firstData_eq hb, hb.spc]
  unfold Kind.clusters at hmin ⊢
  split at hmin
  · rename_i hlt
    rw [if_pos hlt]
  · cases k <;> exact absurd hmin (by decide)

theorem fat_byte (h : Blank d k part total fatSize) (hi : i < fatSize.toNat * 512) :
    d.fatBytes (part + k.reserved) 512 i = if i < 512 then fat0 k i else 0 := by
  unfold Disk.fatBytes Disk.byte
  have hsector : i % 512 / 512 = 0 := by omega
  have hzero : part + k.reserved + BitVec.ofNat 32 (i / 512) + BitVec.ofNat 32 0 =
      part + k.reserved + BitVec.ofNat 32 (i / 512) := BitVec.add_zero _
  rw [hsector, hzero, Nat.mod_mod]
  by_cases hlt : i < 512
  · have hdiv : i / 512 = 0 := by omega
    have hmod : i % 512 = i := by omega
    have hfirst : part + k.reserved + BitVec.ofNat 32 0 = part + k.reserved := BitVec.add_zero _
    rw [if_pos hlt, hdiv, hmod, hfirst, h.first]
  · have hres : part + k.reserved = part + BitVec.ofNat 32 k.reserved.toNat := by
      rw [BitVec.ofNat_toNat, BitVec.setWidth_eq]
    rw [if_neg hlt, hres, part_add, h.rest _ (by omega) (by omega)]
    rfl

def Kind.marks : Kind → Nat
  | .fat12 => 3
  | .fat16 => 4
  | .fat32 => 12

theorem fat0_at (h : k.marks ≤ i) : fat0 k i = 0 := by
  unfold Kind.marks at h
  cases k
  · exact (writeBytes_of_disjoint (Or.inr h)).trans rfl
  · exact (writeBytes_of_disjoint (Or.inr h)).trans rfl
  · unfold fat0
    dsimp only at h ⊢
    rw [write32_of_disjoint (Or.inr h), write32_of_disjoint (Or.inr (by omega)), write32_of_disjoint (Or.inr (by omega))]
    rfl

theorem entryAt_blank {bytes : Nat → Byte} (hc : 2 ≤ c) (hcovers : k.sizeFor n ≤ fatSize.toNat) (hcn : c < n + 2)
    (hb : ∀ i, i < fatSize.toNat * 512 → bytes i = if i < 512 then fat0 k i else 0) :
    entryAt k bytes c = if k = .fat32 ∧ c = 2 then 0x0FFFFFFF else 0 := by
  have hin := entry_inside hcovers hcn
  have hzero : ∀ i, i < fatSize.toNat * 512 → k.marks ≤ i → bytes i = 0 := by
    intro i hi hge
    rw [hb i hi]
    split
    · exact fat0_at hge
    · rfl
  unfold Kind.marks at hzero
  cases k
  · dsimp only at hin
    have h0 : bytes (c + c / 2) = 0 := hzero _ (by omega) (by dsimp only; omega)
    have h1 : bytes (c + c / 2 + 1) = 0 := hzero _ (by omega) (by dsimp only; omega)
    unfold entryAt
    dsimp only
    rw [h0, h1]
    split <;> rfl
  · dsimp only at hin
    have h0 : bytes (c * 2) = 0 := hzero _ (by omega) (by dsimp only; omega)
    have h1 : bytes (c * 2 + 1) = 0 := hzero _ (by omega) (by dsimp only; omega)
    unfold entryAt read16
    dsimp only
    rw [h0, h1]
    rfl
  · dsimp only at hin
    by_cases h2 : c = 2
    · subst h2
      have hword : read32 bytes (2 * 4) = read32 (fat0 .fat32) (2 * 4) := by
        refine read32_congr fun x _ hx => ?_
        rw [hb x (by omega), if_pos (by omega)]
      unfold entryAt
      dsimp only
      rw [hword, if_pos ⟨rfl, rfl⟩]
      decide
    · have hbyte : ∀ x, c * 4 ≤ x → x < c * 4 + 4 → bytes x = 0 :=
        fun x hlo hhi => hzero x (by omega) (by dsimp only; omega)
      have hword : read32 bytes (c * 4) = 0 := by
        rw [read32, hbyte _ (by omega) (by omega), hbyte _ (by omega) (by omega), hbyte _ (by omega) (by omega),
          hbyte _ (by omega) (by omega)]
        rfl
      unfold entryAt
      dsimp only
      rw [hword, if_neg (fun hno => h2 hno.2)]
      rfl

theorem block_zeros {lba : U32} (h : ∀ x, x < n → d (lba + BitVec.ofNat 32 (x / 512)) = zeros) : d.block lba n = zeros := by
  funext x
  unfold Disk.block
  split
  · rename_i hx
    unfold Disk.byte
    rw [h x hx]
    rfl
  · rfl

theorem volumeOf_formed {b : Bpb} (hb : BpbHolds k total fatSize b) (hfits : Fits k total fatSize)
    (hmin : k.minClusters ≤ k.clusters total fatSize) : Formed (volumeOf d part k b) := by
  have hmin' : k.minClusters.toNat ≤ (k.clusters total fatSize).toNat := hmin
  have hfew := hfits.few
  have hcount : (volumeOf d part k b).info.clusterCount = (k.clusters total fatSize).toNat := by
    rw [← clusters_eq hb hmin]
    rfl
  refine ⟨?_, fun _ => rfl, ?_, ?_, fun hno => ?_, ?_⟩
  · have hbad : k.maxClusters.toNat + 2 ≤ k.bad := by
      cases k <;> decide
    unfold Sized Vol.limit
    rw [hcount]
    exact Nat.le_trans (Nat.add_le_add_right hfew 2) hbad
  · have hbps : (volumeOf d part k b).info.bytesPerSector = b.bps.toNat := rfl
    rw [hbps, hb.bps]
    rfl
  · have hspc : (volumeOf d part k b).info.sectorsPerCluster = b.spc.toNat := rfl
    rw [hspc, hb.spc]
    exact spc_pos k
  · have hroot : (volumeOf d part k b).info.rootDirSectors = b.rootDirSectors.toNat := rfl
    rw [hroot, rootDirSectors_eq hb]
    cases k
    · decide
    · decide
    · exact absurd rfl hno
  · have hsome : 0 < k.minClusters.toNat := by
      cases k <;> decide
    omega

theorem Blank.empty {b : Bpb} (h : Blank d k part total fatSize) (hb : BpbHolds k total fatSize b)
    (hfits : Fits k total fatSize) (hmin : k.minClusters ≤ k.clusters total fatSize) : Empty (volumeOf d part k b) := by
  have hbps : b.bps.toNat = 512 := by
    rw [hb.bps]
    rfl
  refine ⟨volumeOf_formed hb hfits hmin, fun c hc => ?_, ?_, fun hno i hi => ?_, fun h32 => ?_⟩
  · have hlt : c < (k.clusters total fatSize).toNat + 2 := by
      rw [← clusters_eq hb hmin]
      exact hc.2
    unfold volumeOf
    dsimp only
    rw [hb.reserved, hbps]
    exact entryAt_blank hc.1 hfits.covers hlt fun i hi => fat_byte h hi
  · unfold volumeOf
    dsimp only
    split
    · rename_i h32
      rw [hb.rootCluster h32]
      rfl
    · rfl
  · have hi32 : i < k.cleared := by
      have hroot : i < b.rootDirSectors.toNat := hi
      have h32 : k ≠ .fat32 := hno
      rw [rootDirSectors_eq hb] at hroot
      cases k
      · exact hroot
      · exact hroot
      · contradiction
    unfold volumeOf
    dsimp only
    refine block_zeros fun x hx => ?_
    rw [hbps] at hx
    have hzero : x / 512 = 0 := by omega
    unfold Bpb.rootDirSector
    rw [hb.reserved, hb.nfats, hb.fatSize, area_lba hfits.small, hzero, part_add, part_add]
    exact h.area i hi32
  · obtain rfl : k = .fat32 := h32
    unfold volumeOf
    dsimp only
    refine block_zeros fun x hx => ?_
    have hsize : (b.bps * b.spc).toNat = 512 := by
      rw [hb.bps, hb.spc]
      rfl
    rw [hsize] at hx
    have hzero : x / 512 = 0 := by omega
    have hstart : BitVec.ofNat 32 (2 - 2) * b.spc = BitVec.ofNat 32 0 := BitVec.zero_mul
    rw [firstData_eq hb, firstData_fat32, area_lba hfits.small, hstart, hzero, part_add, part_add]
    exact h.area 0 (by decide)

theorem fatFormat_volume {cap : U32} (h : fatFormat d cap part k = some s) : ∃ d' part' total fatSize,
    Fits k total fatSize ∧ k.minClusters ≤ k.clusters total fatSize ∧ Blank d' k part' total fatSize ∧
      BpbHolds k total fatSize (bpbOf (d' part')) ∧ s.vol = volumeOf d' part' k (bpbOf (d' part')) ∧
        ∃ root : U32, root.toNat = rootDirClusterValue s.vol ∧
          s.cwd = { ready := true, root := root, cur := root, below := [], path := [Fs.slash] } := by
  obtain ⟨d', part', total, fatSize, hfits, hmin, hblank, hmount, hk⟩ := fatFormat_blank h
  have htotal : total ≠ 0 := by
    rintro rfl
    have hzero : k.clusters 0 fatSize = 0 := if_neg fun hlt => Nat.not_lt_zero _ hlt
    rw [hzero] at hmin
    cases k <;> exact absurd hmin (by decide)
  have hb := hblank.boot.bpb hfits htotal
  obtain ⟨root, hroot, hs⟩ := fatMount_eq hmount
  rw [hk] at hs hroot
  have hv : s.vol = volumeOf d' part' k (bpbOf (d' part')) := congrArg Sys.vol hs
  refine ⟨d', part', total, fatSize, hfits, hmin, hblank, hb, hv, root, ?_, congrArg Sys.cwd hs⟩
  unfold rootDirClusterValue
  rw [hv, hroot]
  unfold volumeOf
  dsimp only
  split <;> rfl

theorem fatFormat_empty {cap : U32} (h : fatFormat d cap part k = some s) : Empty s.vol ∧ s.vol.kind = k ∧
    ∃ root : U32, root.toNat = rootDirClusterValue s.vol ∧
      s.cwd = { ready := true, root := root, cur := root, below := [], path := [Fs.slash] } := by
  obtain ⟨d', part', total, fatSize, hfits, hmin, hblank, hb, hv, hcwd⟩ := fatFormat_volume h
  refine ⟨?_, ?_, hcwd⟩
  · rw [hv]
    exact hblank.empty hb hfits hmin
  · rw [hv]
    rfl

theorem fatFormat_clusterSize {cap : U32} (h : fatFormat d cap part k = some s) : s.vol.clusterSize ≤ 8192 := by
  obtain ⟨d', part', total, fatSize, -, -, -, hb, hv, -⟩ := fatFormat_volume h
  have hsize : s.vol.clusterSize = (bpbOf (d' part')).bps.toNat * (bpbOf (d' part')).spc.toNat := by
    rw [hv]
    rfl
  rw [hsize, hb.bps, hb.spc]
  cases k <;> decide

def blankPlan (v : Vol) : Plan where
  dirs := [rootDirClusterValue v]
  views _ := (blocksOf v (fun c => [c]) (rootDirClusterValue v)).map (blankView v)
  chain c := [c]
  rank _ := 0
  lost := []

theorem entries_blank {bs : List Block} : entriesOf (bs.map (blankView v)) = [] := by
  induction bs with
  | nil => rfl
  | cons b bs ih =>
    rw [List.map_cons, entriesOf_cons, ih]
    rfl

theorem reals_blank (v : Vol) (d : Nat) : (blankPlan v).reals d = [] := by
  unfold Plan.reals realsOf blankPlan
  rw [entries_blank]
  rfl

theorem Empty.root_block (h : Empty v) {b : Block} (hb : b ∈ blocksOf v (fun c => [c]) (rootDirClusterValue v)) :
    blockAt v b = zeros := by
  unfold blocksOf rootDirClusterValue at hb
  by_cases hk : v.kind = .fat32
  · rw [if_pos hk, if_neg (fun hno => hno.2 hk), h.rootCluster, if_pos hk, List.map_singleton, List.mem_singleton] at hb
    rw [hb]
    exact h.root hk
  · rw [if_neg hk, if_pos ⟨rfl, hk⟩] at hb
    obtain ⟨i, hi, rfl⟩ := List.mem_map.mp hb
    exact h.area hk i (List.mem_range.mp hi)

theorem Empty.table_eq (h : Empty v) (hc : Within v c) :
    table v c = if v.kind = .fat32 ∧ c = 2 then some none else none := by
  unfold table
  rw [if_pos hc, h.fat c hc]
  split
  · rename_i hroot
    rw [hroot.1]
    rfl
  · rfl

theorem Empty.root_within (h : Empty v) : Within v 2 := by
  have hcount := h.formed.count
  refine ⟨Nat.le_refl 2, ?_⟩
  unfold Vol.limit
  omega

theorem Empty.kept_eq : (blankPlan v).kept v = rootRefs v := by
  have hrefs : ∀ d, (blankPlan v).refs d = [] := fun d => by
    unfold Plan.refs
    rw [reals_blank]
    rfl
  unfold Plan.kept
  rw [List.flatMap_congr fun d _ => hrefs d, List.flatMap_eq_nil_iff.mpr fun _ _ => rfl, List.append_nil]

theorem Empty.owned (h : Empty v) : Owned v (blankPlan v).chain ((blankPlan v).kept v) := by
  rw [Empty.kept_eq]
  unfold rootRefs
  by_cases hk : v.kind = .fat32
  · have h2 := h.table_eq h.root_within
    rw [if_pos ⟨hk, rfl⟩] at h2
    rw [if_pos hk, h.rootCluster, if_pos hk]
    refine ⟨fun r hr => ?_, List.nodup_singleton 2, fun i => ?_⟩
    · rw [List.mem_singleton.mp hr]
      refine ⟨rfl, ?_⟩
      unfold next
      rw [h2]
      rfl
    · refine List.mem_singleton.trans ⟨fun hi => ?_, fun hi => ?_⟩
      · rw [hi, h2]
        exact Option.some_ne_none none
      · have hw := (table_ne_none_iff.mp hi).1
        rw [h.table_eq hw] at hi
        by_contra hno
        exact hi (if_neg fun hroot => hno hroot.2)
  · rw [if_neg hk]
    refine ⟨fun r hr => absurd hr List.not_mem_nil, List.nodup_nil, fun i => ?_⟩
    refine iff_of_false List.not_mem_nil fun hi => ?_
    have hw := (table_ne_none_iff.mp hi).1
    rw [h.table_eq hw] at hi
    exact hi (if_neg fun hroot => hk hroot.1)

theorem Empty.tree (h : Empty v) : Tree v (blankPlan v) := by
  have hroot : ∀ d ∈ (blankPlan v).dirs, d = rootDirClusterValue v := fun d hd => List.mem_singleton.mp hd
  have hkids : ∀ d, (blankPlan v).kids d = [] := fun d => by
    unfold Plan.kids
    rw [reals_blank]
    rfl
  refine ⟨h.formed, h.owned, fun d hd => ?_, ?_, fun d _ e he => ?_, ?_, fun p _ d hd => ?_⟩
  · rw [hroot d hd]
    refine ⟨?_, fun w hw => ?_, ?_⟩
    · unfold blankPlan
      dsimp only
      rw [List.map_map]
      exact List.map_id _
    · obtain ⟨b, hb, rfl⟩ := List.mem_map.mp hw
      exact blankView_of (h.root_block hb)
    · refine List.pairwise_map.mpr (List.pairwise_of_forall fun _ _ _ => rfl)
  · refine ⟨?_, List.nodup_singleton _, fun p _ d hd => ?_⟩
    · rw [List.flatMap_eq_nil_iff.mpr fun d _ => hkids d]
      exact List.Perm.refl _
    · rw [hkids] at hd
      exact absurd hd List.not_mem_nil
  · rw [reals_blank] at he
    exact absurd he List.not_mem_nil
  · unfold Plan.dots dotsOf blankPlan
    dsimp only
    rw [entries_blank]
    rfl
  · rw [hkids] at hd
    exact absurd hd List.not_mem_nil

theorem fatFormat_sound {cap : U32} (h : fatFormat d cap part k = some s) : Sound s (blankPlan s.vol) := by
  obtain ⟨hempty, -, root, hroot, hcwd⟩ := fatFormat_empty h
  refine ⟨hempty.tree, ?_⟩
  rw [hcwd]
  refine ⟨rfl, hroot, ?_⟩
  have hmem : root.toNat ∈ (blankPlan s.vol).dirs := by
    rw [hroot]
    exact List.mem_singleton_self _
  exact hmem

theorem fatFormat_clean {cap : U32} (h : fatFormat d cap part k = some s) : Clean s :=
  ⟨blankPlan s.vol, fatFormat_sound h, rfl⟩

end Ezos.Fat
