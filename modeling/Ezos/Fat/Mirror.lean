import Ezos.Fat.Agreement

/-!
# The two FATs

Formatting writes two equal FATs, and an entry that is set later is set in the first of them. They stay equal along
calls that set no entry.
-/

namespace Ezos.Fat

open Lib.Memory Lib.Chains

set_option autoImplicit false

variable {d : Disk} {k : Kind} {part total fatSize : U32} {v v' : Vol} {s : Sys} {call : Call} {calls : List Call} {b : Block}
  {c n i dir need first : Nat}

def Mirrored (v : Vol) : Prop := ∀ n, n < v.limit → v.fat2 n = v.fat n

theorem entryAt_congr {bytes bytes' : Nat → Byte} (hcovers : k.sizeFor n ≤ fatSize.toNat) (hc : c < n + 2)
    (hsame : ∀ i, i < fatSize.toNat * 512 → bytes' i = bytes i) : entryAt k bytes' c = entryAt k bytes c := by
  have hin := entry_inside hcovers hc
  unfold entryAt
  cases k
  · dsimp only at hin ⊢
    rw [hsame (c + c / 2) (by omega), hsame (c + c / 2 + 1) (by omega)]
  · dsimp only at hin ⊢
    rw [read16_congr fun x _ hx => hsame x (by omega)]
  · dsimp only at hin ⊢
    rw [read32_congr fun x _ hx => hsame x (by omega)]

theorem second_byte (h : Blank d k part total fatSize) (hi : i < fatSize.toNat * 512) :
    d.fatBytes (part + k.reserved + fatSize) 512 i = d.fatBytes (part + k.reserved) 512 i := by
  have hres : part + k.reserved = part + BitVec.ofNat 32 k.reserved.toNat := by
    rw [BitVec.ofNat_toNat, BitVec.setWidth_eq]
  have hsize : part + k.reserved + fatSize = part + BitVec.ofNat 32 (k.reserved.toNat + fatSize.toNat) := by
    rw [← part_add, BitVec.ofNat_toNat, BitVec.ofNat_toNat, BitVec.setWidth_eq, BitVec.setWidth_eq]
  have hsector : i % 512 / 512 = 0 := by omega
  unfold Disk.fatBytes Disk.byte
  rw [hsize, hres, hsector, part_add, part_add, part_add, part_add]
  exact congrFun (h.second (i / 512) (by omega)) _

theorem fatFormat_mirrored {cap : U32} (h : fatFormat d cap part k = some s) : Mirrored s.vol := by
  obtain ⟨d', part', total, fatSize, hfits, hmin, hblank, hmount, hk⟩ := fatFormat_blank h
  have htotal : total ≠ 0 := by
    rintro rfl
    have hzero : k.clusters 0 fatSize = 0 := if_neg fun hlt => Nat.not_lt_zero _ hlt
    rw [hzero] at hmin
    cases k <;> exact absurd hmin (by decide)
  have hb := hblank.boot.bpb hfits htotal
  obtain ⟨root, -, hs⟩ := fatMount_eq hmount
  rw [hk] at hs
  have hv : s.vol = volumeOf d' part' k (bpbOf (d' part')) := congrArg Sys.vol hs
  intro n hn
  rw [hv] at hn ⊢
  have hlt : n < (k.clusters total fatSize).toNat + 2 := by
    rw [← clusters_eq hb hmin]
    exact hn
  have hbps : (bpbOf (d' part')).bps.toNat = 512 := by
    rw [hb.bps]
    rfl
  unfold volumeOf
  dsimp only
  rw [hb.reserved, hb.fatSize, hbps]
  exact entryAt_congr hfits.covers hlt fun i hi => second_byte hblank hi

/-! ## Steps that set no entry -/

structure SameFats (v v' : Vol) : Prop where
  fat : v'.fat = v.fat
  fat2 : v'.fat2 = v.fat2
  info : v'.info = v.info

theorem SameFats.refl (v : Vol) : SameFats v v := ⟨rfl, rfl, rfl⟩

theorem SameFats.trans {v'' : Vol} (h : SameFats v v') (h' : SameFats v' v'') : SameFats v v'' :=
  ⟨h'.fat.trans h.fat, h'.fat2.trans h.fat2, h'.info.trans h.info⟩

theorem SameFats.mirrored (h : SameFats v v') (hm : Mirrored v) : Mirrored v' := by
  intro n hn
  unfold Vol.limit at hn
  rw [h.info] at hn
  rw [h.fat, h.fat2]
  exact hm n hn

theorem fatWriteBlock_fats (b : Block) (buf : Mem) : SameFats v (fatWriteBlock v b buf) := by
  cases b <;> exact ⟨rfl, rfl, rfl⟩

theorem fatWriteDirentAt_fats (entry : Mem) : SameFats v (fatWriteDirentAt v b i entry).2 := by
  unfold fatWriteDirentAt
  split
  · exact .refl v
  · split
    · exact .refl v
    · exact fatWriteBlock_fats b _

theorem writeLong_fats (name : Str) (ck : U8) (lfn : Nat) : SameFats v (writeLong v b i name ck lfn n).2 := by
  induction n generalizing v with
  | zero => exact .refl v
  | succ n ih =>
    unfold writeLong
    have hone : SameFats v (fatWriteDirentAt v b (i + (lfn - (n + 1))) (lfnEntry name ck lfn (n + 1))).2 :=
      fatWriteDirentAt_fats _
    generalize fatWriteDirentAt v b (i + (lfn - (n + 1))) (lfnEntry name ck lfn (n + 1)) = r at hone ⊢
    rcases r with ⟨_ | _, v'⟩
    · exact hone
    · exact hone.trans ih

theorem writeDirEntries_fats (ref : Block × Nat) (name sn : Str) (lfn : Nat) (attr : U8) (first size : Nat)
    (stamp : U16 × U16) : SameFats v (writeDirEntries v ref name sn lfn attr first size stamp).2 := by
  unfold writeDirEntries
  have hlong : SameFats v (writeLong v ref.1 ref.2 name (lfnChecksum (memOf sn)) lfn lfn).2 := writeLong_fats _ _ _
  generalize writeLong v ref.1 ref.2 name (lfnChecksum (memOf sn)) lfn lfn = r at hlong ⊢
  rcases r with ⟨_ | _, v'⟩
  · exact hlong
  · exact hlong.trans (fatWriteDirentAt_fats _)

theorem eraseEntry_fats (e : Dirent) : SameFats v (eraseEntry v e).2 := by
  unfold eraseEntry
  split
  · exact .refl v
  · split
    · exact .refl v
    · exact fatWriteBlock_fats _ _

theorem dropChain_small (h : first < 2) : dropChain v first = v := by
  unfold dropChain fatFreeChain
  rw [if_pos h]
  rfl

theorem fatAllocCluster_fats (v : Vol) : SameFats v (fatAllocCluster v).2 := by
  obtain ⟨c, hint, hrun, -⟩ := fatAllocCluster_spec v
  rw [hrun]
  exact ⟨rfl, rfl, rfl⟩

theorem storeData_none (data : Mem) {size : Nat} (h : dataClusters v size = 0) : storeData v data size = (some 0, v) := by
  unfold storeData
  rw [h]
  simp only [allocChain]
  rw [h]
  rfl

def NoGrowth (v : Vol) (dir need : Nat) : Prop := searchSlots v need (dirBlocks v dir) = some none → dir < 2

theorem fatFindFreeSlots_fats (h : NoGrowth v dir need) : (fatFindFreeSlots v dir need).2 = v := by
  unfold fatFindFreeSlots
  split
  · rfl
  · rfl
  · rename_i hfull
    rw [if_neg (Nat.not_le.mpr (h hfull))]

theorem enterName_fats {leaf sn : Str} {lfn : Nat} {attr : U8} {size : Nat} {stamp : U16 × U16}
    (h : NoGrowth v dir (1 + lfn)) : SameFats v (enterName v dir leaf sn lfn attr 0 size stamp).2 := by
  unfold enterName
  have hsame := fatFindFreeSlots_fats h
  generalize fatFindFreeSlots v dir (1 + lfn) = r at hsame ⊢
  rcases r with ⟨_ | ref, v'⟩
  · obtain rfl : v' = v := hsame
    dsimp only
    rw [dropChain_small (by decide)]
    exact .refl v'
  · obtain rfl : v' = v := hsame
    dsimp only
    have hwrite : SameFats v' (writeDirEntries v' ref leaf sn lfn attr 0 size stamp).2 := writeDirEntries_fats _ _ _ _ _ _ _ _
    generalize writeDirEntries v' ref leaf sn lfn attr 0 size stamp = w at hwrite ⊢
    rcases w with ⟨_ | _, v''⟩
    · dsimp only
      rw [dropChain_small (by decide)]
      exact hwrite
    · exact hwrite

def FreesNothing (s : Sys) (f : Frame) (name : Str) : Prop :=
  ∀ dir leaf e, fatResolveLeaf s f (cstr name) = some (dir, leaf) → fatFindEntry s.vol f.leaf dir leaf = some e →
    e.firstCluster < 2 ∨ (e.isDir = true ∧ fatDirEmpty s.vol f.inside e.firstCluster = false)

def KeepsFat (s : Sys) : Call → Prop
  | .createFile f name _ size => (cstr name).getLast? ≠ some Fs.slash → ∀ dir leaf sn lfn,
      newLeaf s f name = some (dir, leaf) → prepareNames (probe s.vol f dir) leaf = some (sn, lfn) →
      dataClusters s.vol size.toNat = 0 ∧ NoGrowth s.vol dir (1 + lfn)
  | .mkdir f name => newLeaf s f name ≠ none → (fatAllocCluster s.vol).1 = 0
  | .deleteFile f name => FreesNothing s f name
  | .rmdir f g name => isDotName (cstr name) = false → ∀ dir leaf e,
      fatResolveLeaf s f (cstr name) = some (dir, leaf) → isDotName leaf = false →
      fatFindEntry s.vol f.leaf dir leaf = some e → e.isDir = true → e.firstCluster ≠ 0 → FreesNothing s g name
  | .changeDir _ _ => True

theorem fatDeleteFile_fats {f : Frame} {name : Str} (h : FreesNothing s f name) :
    SameFats s.vol (fatDeleteFile s f name).2.vol := by
  unfold fatDeleteFile
  split
  · exact .refl _
  · rename_i dir leaf hresolve
    split
    · exact .refl _
    · rename_i e hfind
      split
      · exact .refl _
      · rename_i hgo
        have hsmall := (h dir leaf e hresolve hfind).resolve_right hgo
        dsimp only
        rw [dropChain_small hsmall]
        exact eraseEntry_fats e

theorem call_fats (h : KeepsFat s call) : SameFats s.vol (call.run s).2.vol := by
  cases call with
  | createFile f name data size =>
    unfold Call.run fatCreateFile
    dsimp only
    split
    · exact .refl _
    · rename_i hslash
      split
      · exact .refl _
      · rename_i dir leaf hleaf
        split
        · exact .refl _
        · rename_i sn lfn hprep
          obtain ⟨hzero, hroom⟩ := h hslash dir leaf sn lfn hleaf hprep
          rw [storeData_none data hzero]
          exact enterName_fats hroom
  | mkdir f name =>
    unfold Call.run fatMkdir
    dsimp only
    split
    · exact .refl _
    · rename_i dir leaf hleaf
      have hfull : (fatAllocCluster s.vol).1 = 0 := h (by rw [hleaf]; exact Option.some_ne_none _)
      have hsame := fatAllocCluster_fats s.vol
      generalize fatAllocCluster s.vol = r at hfull hsame ⊢
      rcases r with ⟨c, v⟩
      obtain rfl : c = 0 := hfull
      exact hsame
  | deleteFile f name => exact fatDeleteFile_fats h
  | rmdir f g name =>
    unfold Call.run fatRmdir
    dsimp only
    split
    · exact .refl _
    · rename_i hname
      split
      · exact .refl _
      · rename_i dir leaf hresolve
        split
        · exact .refl _
        · rename_i hleaf
          split
          · exact .refl _
          · rename_i e hfind
            split
            · exact .refl _
            · rename_i hdir
              obtain ⟨hdir, hfirst⟩ := not_or.mp hdir
              refine fatDeleteFile_fats (h ?_ dir leaf e hresolve ((Bool.not_eq_true _).mp hleaf) hfind ?_ hfirst)
              · exact (Bool.not_eq_true _).mp (not_or.mp hname).2
              · exact (Bool.not_eq_false _).mp hdir
  | changeDir f name => exact .refl _

/-- Along calls that set no entry, the copies stay equal. -/
theorem fats_stay_equal (disk : Disk) (cap part : U32) (k : Kind) (s : Sys) (calls : List Call)
    (hformat : fatFormat disk cap part k = some s) (hquiet : Along KeepsFat s calls) :
    Mirrored (runCalls s calls).vol := by
  have hstep : ∀ s call, Mirrored s.vol → KeepsFat s call → Mirrored (call.run s).2.vol :=
    fun _ _ hm hq => (call_fats hq).mirrored hm
  exact @run_keeps s calls KeepsFat (fun s => Mirrored s.vol) hstep (fatFormat_mirrored hformat) hquiet

theorem small_quiet : KeepsFat smallSys (.createFile stillFrame [0x41] zeros 0) := by
  intro _ dir leaf sn lfn hleaf hprep
  rw [small_newLeaf] at hleaf
  obtain ⟨rfl, rfl⟩ := Prod.mk.inj (Option.some.inj hleaf)
  have hsn := small_prepares
  rw [hprep] at hsn
  obtain rfl : lfn = 0 := Option.some.inj hsn
  exact ⟨by decide +kernel, fun _ => by decide⟩

theorem fats_stay_equal_small : Mirrored (runCalls smallSys [.createFile stillFrame [0x41] zeros 0]).vol :=
  fats_stay_equal blankDisk 400 1 .fat12 smallSys _ small_format ⟨small_quiet, trivial⟩

/-- A file of one byte takes cluster 2, and the second FAT does not know. -/
theorem fats_differ : fatFormat blankDisk 400 1 .fat12 = some smallSys ∧
    ¬ Mirrored (runCalls smallSys [.createFile stillFrame [0x41] zeros 1]).vol := by
  refine ⟨small_format, fun h => ?_⟩
  have hsame := h 2 (by decide +kernel)
  revert hsame
  decide +kernel

end Ezos.Fat
