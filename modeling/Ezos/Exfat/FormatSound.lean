import Ezos.Exfat.FormatLayout

/-!
# The volume that formatting leaves

`Formatted` collects what is on the disk after a format that returned 0. Whether the FAT
and the allocation bitmap then agree is decided by the length of the volume alone.
-/

namespace Ezos.Exfat

open Lib.Memory Lib.ByteBitmap

set_option autoImplicit false

variable {v v' : Vol} {V : U32}

theorem readBootRegion_mount {m : Mem} {s : Nat} (n : Nat) {region : Mem}
    (h : readBootRegion v m s n = (some region, v')) : v'.mount = v.mount := by
  induction n generalizing v m s with
  | zero =>
    obtain rfl := (Prod.mk.inj h).2
    rfl
  | succ n ih =>
    rw [readBootRegion] at h
    have hs := (exfatReadSector_stands v (v.mount.partitionStart + BitVec.ofNat 32 s)).mount
    split at h
    · exact nomatch (Prod.mk.inj h).1
    · rename_i p u hu
      rw [hu] at hs
      exact (ih h).trans hs

theorem writeBootRegion_mount (h : writeBootRegion v V = (true, v')) : v'.mount = v.mount := by
  obtain ⟨u₁, h₁, h⟩ := andThen_eq_true.mp h
  obtain ⟨u₂, h₂, h⟩ := andThen_eq_true.mp h
  split at h
  · exact nomatch (Prod.mk.inj h).1
  rename_i region u₃ h₃
  obtain ⟨u₄, h₄, h⟩ := andThen_eq_true.mp h
  obtain ⟨u₅, h₅, h⟩ := andThen_eq_true.mp h
  calc v'.mount = u₅.mount := (exfatWriteSector_stands h).mount
    _ = u₄.mount := (exfatWriteSector_stands h₅).mount
    _ = u₃.mount := (exfatWriteSector_stands h₄).mount
    _ = u₂.mount := readBootRegion_mount 11 h₃
    _ = u₁.mount := (exfatWriteSector_stands h₂).mount
    _ = v.mount := (exfatWriteSector_stands h₁).mount

structure Formatted (v : Vol) (V : U32) : Prop where
  large : ¬ formatClusterCount V < 16
  volume_length : v.info.volumeLength = V.setWidth 64
  spc : v.info.sectorsPerCluster = 1
  fat_offset : v.info.fatOffset = fatOffset
  fat_length : v.info.fatLength = formatFatLength V
  heap_offset : v.info.clusterHeapOffset = formatHeap V
  cluster_count : v.info.clusterCount = formatClusterCount V
  root : v.info.rootDirCluster = 2
  bitmap_cluster : v.mount.bitmapCluster = bmpFirst
  bitmap_bytes : v.mount.bitmapBytes = bmpBytes (formatClusterCount V)
  ready : v.mount.ready = true
  upcase_valid : upcaseFirst (formatClusterCount V) < formatClusterCount V + 2
  fat_sector : ∀ k, k < (formatFatLength V).toNat →
    v.disk (v.mount.partitionStart + fatOffset + BitVec.ofNat 32 k) =
      sectorOf (formatFatSector (formatClusterCount V) k) 0
  root_cluster : v.disk (firstSector v 2) = sectorOf (rootCluster (formatClusterCount V)) 0
  bitmap : ∀ k, k < (bmpClusters (formatClusterCount V)).toNat →
    v.disk (firstSector v bmpFirst + BitVec.ofNat 32 k) =
      sectorOf (formatBitmap (formatClusterCount V) k) 0
  upcase : v.disk (firstSector v (upcaseFirst (formatClusterCount V))) = sectorOf upcaseCluster 0

theorem add_ofNat_ne {base : U32} {a b : Nat} (ha : a < 2 ^ 32) (hb : b < 2 ^ 32) (h : a ≠ b) :
    base + BitVec.ofNat 32 a ≠ base + BitVec.ofNat 32 b := by
  intro he
  have := congrArg (place base) he
  rw [place_add base ha, place_add base hb] at this
  exact h this

theorem fat_place (base : U32) (k : Nat) :
    base + fatOffset + BitVec.ofNat 32 k = base + BitVec.ofNat 32 (25 + k) := by
  rw [BitVec.ofNat_add, ← BitVec.add_assoc]
  rfl

theorem heap_place (base heap : U32) {c : U32} (hc : 2 ≤ c.toNat) :
    base + heap + (c - 2) = base + BitVec.ofNat 32 (heap.toNat + (c.toNat - 2)) := by
  have hsub : c - 2 = BitVec.ofNat 32 (c.toNat - 2) := by
    apply BitVec.eq_of_toNat_eq
    have := c.isLt
    rw [BitVec.toNat_sub_of_le (BitVec.le_def.mpr (show (2 : U32).toNat ≤ c.toNat from hc)),
      BitVec.toNat_ofNat, show (2 : U32).toNat = 2 from rfl]
    omega
  rw [hsub, BitVec.ofNat_add, BitVec.ofNat_toNat, BitVec.setWidth_eq, ← BitVec.add_assoc]

theorem firstSector_congr {u : Vol} (h : u.mount = v.mount) (c : U32) :
    firstSector u c = firstSector v c := by
  unfold firstSector Vol.info
  rw [h]

theorem metadata_room (hlarge : ¬ formatClusterCount V < 16)
    (hvalid : upcaseFirst (formatClusterCount V) < formatClusterCount V + 2) :
    (upcaseFirst (formatClusterCount V)).toNat =
        3 + (bmpClusters (formatClusterCount V)).toNat ∧
      (formatHeap V).toNat + 1 + (bmpClusters (formatClusterCount V)).toNat < 2 ^ 32 := by
  obtain ⟨hcc, hsum⟩ := toNat_formatClusterCount hlarge
  have hheap := toNat_formatHeap V
  have hV := V.isLt
  have hup := @toNat_upcaseFirst (formatClusterCount V) (by omega)
  have hadd : (upcaseFirst (formatClusterCount V)).toNat =
      (3 + (bmpClusters (formatClusterCount V)).toNat) % 2 ^ 32 := BitVec.toNat_add _ _
  have hlt := BitVec.lt_def.mp hvalid
  rw [BitVec.toNat_add, show (2 : U32).toNat = 2 from rfl] at hlt
  have := (bmpClusters (formatClusterCount V)).isLt
  omega

theorem formatWrites_formatted (w : Vol) (part : U32) (hlarge : ¬ formatClusterCount V < 16)
    (h : formatWrites (formatGeometry (formatPrepare w part) V) V = (true, v')) :
    v'.mount.partitionStart = part ∧ Formatted v' V := by
  generalize hv : formatGeometry (formatPrepare w part) V = v at h
  have hpart : v.mount.partitionStart = part := by rw [← hv]; rfl
  have hcc : v.info.clusterCount = formatClusterCount V := by rw [← hv]; rfl
  have hfl : v.info.fatLength = formatFatLength V := by rw [← hv]; rfl
  have hfo : v.info.fatOffset = fatOffset := by rw [← hv]; rfl
  have hheap : v.info.clusterHeapOffset = formatHeap V := by rw [← hv]; rfl
  have hroot : v.info.rootDirCluster = 2 := by rw [← hv]; rfl
  have hspc : v.info.sectorsPerCluster = 1 := by rw [← hv]; rfl
  have hvl : v.info.volumeLength = V.setWidth 64 := by rw [← hv]; rfl
  clear hv
  rw [formatWrites, hcc] at h
  obtain ⟨u₁, h₁, h⟩ := andThen_eq_true.mp h
  obtain ⟨u₂, h₂, h⟩ := andThen_eq_true.mp h
  obtain ⟨u₃, h₃, h⟩ := andThen_eq_true.mp h
  obtain ⟨u₄, h₄, h⟩ := andThen_eq_true.mp h
  obtain ⟨u₅, h₅, h⟩ := andThen_eq_true.mp h
  obtain rfl := (Prod.mk.inj h).2
  have m₁ := writeBootRegion_mount h₁
  have i₁ : u₁.info = v.info := congrArg Mount.info m₁
  have f₂ := writeFatSectors_fills _ (by have := u₁.info.fatLength.isLt; omega) h₂
  have m₂ := f₂.mount.trans m₁
  have i₂ : u₂.info = v.info := congrArg Mount.info m₂
  obtain ⟨_, s₃⟩ := exfatWriteCluster_one (by rw [i₂, hspc]) h₃
  have m₃ := s₃.mount.trans m₂
  have i₃ : u₃.info = v.info := congrArg Mount.info m₃
  have f₄ := writeBitmapClusters_fills _ (by have := (bmpClusters (formatClusterCount V)).isLt; omega)
    (by rw [i₃, hspc]) h₄
  have m₄ := f₄.mount.trans m₃
  have i₄ : u₄.info = v.info := congrArg Mount.info m₄
  obtain ⟨hvalid, s₅⟩ := exfatWriteCluster_one (by rw [i₄, hspc]) h₅
  have m₅ := s₅.mount.trans m₄
  have i₅ : u₅.info = v.info := congrArg Mount.info m₅
  simp only [i₁, m₁, hfl, hfo, hcc, hpart] at f₂
  simp only [i₂, hroot, firstSector_congr m₂] at s₃
  simp only [i₃, hcc, firstSector_congr m₃] at f₄
  simp only [firstSector_congr m₄] at s₅
  have hup : upcaseFirst (formatClusterCount V) < formatClusterCount V + 2 := by
    unfold exfatClusterValid Vol.clusterLimit at hvalid
    rw [i₄, hcc, Bool.and_eq_true, decide_eq_true_eq, decide_eq_true_eq] at hvalid
    exact hvalid.2
  obtain ⟨hnat, hroom⟩ := metadata_room hlarge hup
  have hhn := toNat_formatHeap V
  have hplace : ∀ c : U32, 2 ≤ c.toNat → firstSector v c =
      part + BitVec.ofNat 32 ((formatHeap V).toNat + (c.toNat - 2)) := by
    intro c hc
    rw [firstSector_one hspc, hpart, hheap, heap_place _ _ hc]
  have hbmp : ∀ k, firstSector v bmpFirst + BitVec.ofNat 32 k =
      part + BitVec.ofNat 32 ((formatHeap V).toNat + 1 + k) := by
    intro k
    rw [hplace bmpFirst (by decide), BitVec.add_assoc, ← BitVec.ofNat_add]
    rfl
  have hlast := hplace (upcaseFirst (formatClusterCount V)) (by omega)
  have htwo := hplace 2 (by decide)
  rw [show (2 : U32).toNat = 2 from rfl] at htwo
  -- each group of writes leaves the places of the others alone
  have keep₅ : ∀ a < 2 ^ 32, a ≠ (formatHeap V).toNat + (bmpClusters (formatClusterCount V)).toNat + 1 →
      u₅.disk (part + BitVec.ofNat 32 a) = u₄.disk (part + BitVec.ofNat 32 a) := by
    intro a ha hne
    rw [s₅.disk, hlast]
    exact if_neg (add_ofNat_ne ha (by omega) (by omega))
  have keep₄ : ∀ a < 2 ^ 32, ¬ ((formatHeap V).toNat + 1 ≤ a ∧
      a < (formatHeap V).toNat + 1 + (bmpClusters (formatClusterCount V)).toNat) →
      u₄.disk (part + BitVec.ofNat 32 a) = u₃.disk (part + BitVec.ofNat 32 a) := by
    intro a ha hout
    apply f₄.kept_of_ne
    intro k hlo hhi
    rw [hbmp]
    exact add_ofNat_ne ha (by omega) (by omega)
  have keep₃ : ∀ a < 2 ^ 32, a ≠ (formatHeap V).toNat →
      u₃.disk (part + BitVec.ofNat 32 a) = u₂.disk (part + BitVec.ofNat 32 a) := by
    intro a ha hne
    rw [s₃.disk, htwo]
    exact if_neg (add_ofNat_ne ha (by omega) (by omega))
  have hfs : ∀ c, firstSector (formatFinish u₅) c = firstSector v c := fun c =>
    (show firstSector (formatFinish u₅) c = firstSector u₅ c from rfl).trans (firstSector_congr m₅ c)
  have hinfo : (formatFinish u₅).info = v.info := i₅
  have hp : (formatFinish u₅).mount.partitionStart = part :=
    (congrArg Mount.partitionStart m₅).trans hpart
  refine ⟨hp, hlarge, ?_, ?_, ?_, ?_, ?_, ?_, ?_, rfl, ?_, rfl, hup, ?_, ?_, ?_, ?_⟩
  · rw [hinfo, hvl]
  · rw [hinfo, hspc]
  · rw [hinfo, hfo]
  · rw [hinfo, hfl]
  · rw [hinfo, hheap]
  · rw [hinfo, hcc]
  · rw [hinfo, hroot]
  · exact congrArg bmpBytes (by rw [i₅, hcc])
  · intro k hk
    have hfill := f₂.written k (Nat.zero_le _) (by omega)
    rw [hp, ← hfill, fat_place]
    exact ((keep₅ _ (by omega) (by omega)).trans (keep₄ _ (by omega) (by omega))).trans
      (keep₃ _ (by omega) (by omega))
  · rw [hfs, htwo]
    refine ((keep₅ _ (by omega) (by omega)).trans (keep₄ _ (by omega) (by omega))).trans ?_
    rw [← htwo, s₃.disk]
    exact if_pos rfl
  · intro k hk
    rw [hfs, ← f₄.written k (Nat.zero_le _) (by omega), hbmp]
    exact keep₅ _ (by omega) (by omega)
  · rw [hfs]
    exact (congrFun s₅.disk _).trans (if_pos rfl)

/-! ### FAT and bitmap of the formatted volume -/

section Views
variable {c : U32} (h : Formatted v V)
  (hcov : ((formatClusterCount V).toNat + 2) * 4 ≤ (formatFatLength V).toNat * 512)
include h

theorem Formatted.limit : v.clusterLimit.toNat = (formatClusterCount V).toNat + 2 := by
  obtain ⟨hcc, hsum⟩ := toNat_formatClusterCount h.large
  have hheap := toNat_formatHeap V
  have hV := V.isLt
  rw [Vol.clusterLimit, h.cluster_count, BitVec.toNat_add, show (2 : U32).toNat = 2 from rfl]
  omega

include hcov

theorem Formatted.fatAt (hlo : 2 ≤ c.toNat) (hhi : c < v.clusterLimit) :
    fatAt v c = if c.toNat ≤ (upcaseFirst (formatClusterCount V)).toNat
      then metadataEntry (formatClusterCount V) c else 0 := by
  have hlt := BitVec.lt_def.mp hhi
  rw [h.limit] at hlt
  have hdiv : c / 128 = BitVec.ofNat 32 (c.toNat / 128) := by
    apply BitVec.eq_of_toNat_eq
    rw [BitVec.toNat_udiv, BitVec.toNat_ofNat, show (128 : U32).toNat = 128 from rfl]
    omega
  have hsec := h.fat_sector (c.toNat / 128) (by omega)
  rw [Exfat.fatAt, fatSectorOf, h.fat_offset, hdiv, hsec, fatByteOf, read32_sectorOf _ (by omega),
    formatFatSector_entry _ hlo, BitVec.ofNat_toNat, BitVec.setWidth_eq]

theorem Formatted.fatAt_ne_zero (hlo : 2 ≤ c.toNat) (hhi : c < v.clusterLimit) :
    Exfat.fatAt v c ≠ 0 ↔ c.toNat ≤ (upcaseFirst (formatClusterCount V)).toNat := by
  rw [h.fatAt hcov hlo hhi]
  split
  · simp only [ne_eq, metadataEntry_ne_zero, not_false_eq_true, true_iff]
    assumption
  · simp only [ne_eq, not_true_eq_false, false_iff]
    assumption

theorem Formatted.bitmapClusterAt {j : Nat} (hj : j < (bmpClusters (formatClusterCount V)).toNat) :
    bitmapClusterAt v j = bmpFirst + BitVec.ofNat 32 j := by
  obtain ⟨hnat, hroom⟩ := metadata_room h.large h.upcase_valid
  have hup := BitVec.lt_def.mp h.upcase_valid
  have hlim := h.limit
  rw [Vol.clusterLimit, h.cluster_count] at hlim
  rw [hlim] at hup
  induction j with
  | zero => exact h.bitmap_cluster
  | succ j ih =>
    have hc : (bmpFirst + BitVec.ofNat 32 j).toNat = 3 + j := by
      rw [BitVec.toNat_add, BitVec.toNat_ofNat, show bmpFirst.toNat = 3 from rfl]
      omega
    have hlast : (bmpFirst + bmpClusters (formatClusterCount V) - 1).toNat =
        2 + (bmpClusters (formatClusterCount V)).toNat := by
      rw [BitVec.toNat_sub_of_le]
      · change (upcaseFirst (formatClusterCount V)).toNat - 1 = _
        omega
      · exact BitVec.le_def.mpr (show 1 ≤ (upcaseFirst (formatClusterCount V)).toNat by omega)
    have hentry : metadataEntry (formatClusterCount V) (bmpFirst + BitVec.ofNat 32 j) =
        bmpFirst + BitVec.ofNat 32 j + 1 := by
      apply if_pos
      constructor
      · exact BitVec.le_def.mpr (by rw [hc]; exact Nat.le_add_right 3 j)
      · rw [BitVec.lt_def, hc, hlast]
        omega
    have hin : bmpFirst + BitVec.ofNat 32 j < v.clusterLimit := by
      rw [BitVec.lt_def, hc, h.limit]
      omega
    rw [Exfat.bitmapClusterAt, ih (by omega), h.fatAt hcov (by omega) hin, if_pos (by omega), hentry,
      BitVec.ofNat_add, ← BitVec.add_assoc]
    rfl

theorem Formatted.bitmapBit (hlo : 2 ≤ c.toNat) (hhi : c < v.clusterLimit) :
    bitmapBit v c = decide (c.toNat < 4098 ∧
      c.toNat ≤ (upcaseFirst (formatClusterCount V)).toNat) := by
  obtain ⟨hnat, hroom⟩ := metadata_room h.large h.upcase_valid
  obtain ⟨hcc, hsum⟩ := toNat_formatClusterCount h.large
  have hheap := toNat_formatHeap V
  have hV := V.isLt
  have hup := @toNat_upcaseFirst (formatClusterCount V) (by omega)
  have hlt := BitVec.lt_def.mp hhi
  rw [h.limit] at hlt
  have hbit : (c - 2).toNat = c.toNat - 2 :=
    BitVec.toNat_sub_of_le (BitVec.le_def.mpr (show (2 : U32).toNat ≤ c.toNat from hlo))
  have hcs : v.clusterSize = 512 := by
    rw [Vol.clusterSize, Info.clusterSize, h.spc]
    rfl
  have hi : bitInCluster v (c.toNat - 2) = (c.toNat - 2) % 4096 := by
    rw [bitInCluster, hcs]
    omega
  have hidx : (c.toNat - 2) / 8 / 512 < (bmpClusters (formatClusterCount V)).toNat := by omega
  rw [Exfat.bitmapBit, hbit, hcs, h.bitmapClusterAt hcov hidx, hi]
  have hbyte : clusterAt v (bmpFirst + BitVec.ofNat 32 ((c.toNat - 2) / 8 / 512))
      ((c.toNat - 2) % 4096 / 8) =
      sectorOf (formatBitmap (formatClusterCount V) ((c.toNat - 2) / 8 / 512)) 0
        ((c.toNat - 2) % 4096 / 8) := by
    have hdiv : (c.toNat - 2) % 4096 / 8 / 512 = 0 := by omega
    have hmod : (c.toNat - 2) % 4096 / 8 % 512 = (c.toNat - 2) % 4096 / 8 := by omega
    rw [clusterAt, firstSector_add h.spc, bytesPerSector, hdiv, hmod, BitVec.add_zero,
      h.bitmap _ hidx]
  rw [getBit_congr hbyte, getBit_sectorOf _ (by omega), formatBitmap_bit _ _ (by omega)]
  exact decide_eq_decide.mpr (by omega)

end Views

structure FormatOk (v : Vol) : Prop where
  fat_covers : (v.info.clusterCount.toNat + 2) * 4 ≤ v.info.fatLength.toNat * 512
  heap_offset : v.info.clusterHeapOffset.toNat = 25 + v.info.fatLength.toNat
  heap_fits : v.info.clusterHeapOffset.toNat + v.info.clusterCount.toNat ≤ v.info.volumeLength.toNat
  metadata : ∀ c : Nat, 2 ≤ c → c ≤ (upcaseFirst v.info.clusterCount).toNat →
    c < v.info.clusterCount.toNat + 2
  bitmap : ∀ c : U32, 2 ≤ c.toNat → c.toNat < v.info.clusterCount.toNat + 2 →
    (bitmapBit v c = true ↔ fatAt v c ≠ 0) ∧
      (fatAt v c ≠ 0 ↔ c.toNat ≤ (upcaseFirst v.info.clusterCount).toNat)

theorem exfatFormat_formatted {part : U32} (h : exfatFormat v part = (true, v')) :
    Formatted v' (formatVolumeLength v.mount.capacity part) := by
  simp only [exfatFormat] at h
  split at h
  · exact nomatch (Prod.mk.inj h).1
  split at h
  · exact nomatch (Prod.mk.inj h).1
  split at h
  · exact nomatch (Prod.mk.inj h).1
  rename_i hlarge
  exact (formatWrites_formatted v (formatPartStart part) hlarge h).2

theorem Formatted.bitmap_misses (h : Formatted v V)
    (hcov : ((formatClusterCount V).toNat + 2) * 4 ≤ (formatFatLength V).toNat * 512)
    (hup : 4098 ≤ (upcaseFirst (formatClusterCount V)).toNat) :
    (4098 : U32) < v.clusterLimit ∧ Exfat.bitmapBit v 4098 = false ∧ Exfat.fatAt v 4098 ≠ 0 := by
  have hlt := BitVec.lt_def.mp h.upcase_valid
  have hlim := h.limit
  rw [Vol.clusterLimit, h.cluster_count] at hlim
  have hin : (4098 : U32) < v.clusterLimit := by
    rw [BitVec.lt_def, h.limit, show (4098 : U32).toNat = 4098 from rfl]
    omega
  refine ⟨hin, ?_, ?_⟩
  · rw [h.bitmapBit hcov (by decide) hin]
    exact decide_eq_false fun ⟨hlt', _⟩ => absurd hlt' (by decide)
  · exact (h.fatAt_ne_zero hcov (by decide) hin).mpr hup

theorem Formatted.ok (h : Formatted v V) (hle : V.toNat ≤ 16900058) (hmod : V.toNat % 129 ≠ 24) :
    FormatOk v := by
  have hcov := (fat_covers_iff h.large hle).mpr hmod
  have hup := (upcaseFirst_le_iff h.large).mpr hle
  obtain ⟨hcc, hsum⟩ := toNat_formatClusterCount h.large
  have hlt := BitVec.lt_def.mp h.upcase_valid
  have hlim := h.limit
  rw [Vol.clusterLimit, h.cluster_count] at hlim
  refine ⟨?_, ?_, ?_, ?_, ?_⟩
  · rw [h.cluster_count, h.fat_length]
    exact hcov
  · rw [h.heap_offset, h.fat_length, toNat_formatHeap]
  · rw [h.heap_offset, h.cluster_count, hsum, h.volume_length, BitVec.toNat_setWidth]
    have := V.isLt
    omega
  · intro c _ hc
    rw [h.cluster_count] at hc ⊢
    omega
  · intro c hlo hhi
    rw [h.cluster_count] at hhi ⊢
    have hin : c < v.clusterLimit := by
      rw [BitVec.lt_def, h.limit]
      exact hhi
    have hfat := h.fatAt_ne_zero hcov hlo hin
    refine ⟨?_, hfat⟩
    rw [h.bitmapBit hcov hlo hin, decide_eq_true_eq, hfat]
    omega

theorem exfatFormat_ok_iff (v : Vol) (part : U32) (h : (exfatFormat v part).1 = true) :
    FormatOk (exfatFormat v part).2 ↔
      (formatVolumeLength v.mount.capacity part).toNat ≤ 16900058 ∧
        (formatVolumeLength v.mount.capacity part).toNat % 129 ≠ 24 := by
  have hf := exfatFormat_formatted (Prod.ext h rfl : exfatFormat v part = (true, (exfatFormat v part).2))
  constructor
  · intro hok
    have hcov := hok.fat_covers
    rw [hf.cluster_count, hf.fat_length] at hcov
    have hle : (formatVolumeLength v.mount.capacity part).toNat ≤ 16900058 := by
      by_contra hbig
      have hup : ¬ _ := fun hup => hbig ((upcaseFirst_le_iff hf.large).mp hup)
      obtain ⟨hin, hbit, hfat⟩ := hf.bitmap_misses hcov (by omega)
      have hlt := BitVec.lt_def.mp hin
      rw [hf.limit, ← hf.cluster_count] at hlt
      have := (hok.bitmap 4098 (by decide) hlt).1.mpr hfat
      rw [hbit] at this
      exact nomatch this
    exact ⟨hle, (fat_covers_iff hf.large hle).mp hcov⟩
  · rintro ⟨hle, hmod⟩
    exact hf.ok hle hmod

theorem exfatFormat_ok_200 : FormatOk (exfatFormat (initialVol 200) 1).2 :=
  (exfatFormat_ok_iff (initialVol 200) 1 (by decide)).mpr (by decide)

/-- A partition of 153 sectors is formatted without complaint, with one FAT entry too few. -/
theorem exfatFormat_fat_too_short : (exfatFormat (initialVol 154) 1).1 = true ∧
    ¬ FormatOk (exfatFormat (initialVol 154) 1).2 :=
  ⟨by decide, fun h => absurd h.fat_covers (by decide)⟩

end Ezos.Exfat
