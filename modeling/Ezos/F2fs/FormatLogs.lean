import Ezos.F2fs.Format
import Ezos.F2fs.Switch
import Ezos.F2fs.AllocRuns

/-!
# The volume behind formatting

The mount at the end of formatting finds the first pack, and its table is the one that was put.
-/

namespace Ezos.F2fs

open Lib.Memory Lib.FaultyStore

set_option autoImplicit false

variable {x : FmtSizes} {T V : Nat} {ver part payload : U32} {d : Device}

def fmtGeo (x : FmtSizes) (V : Nat) : Geometry where
  bps := 64
  cpBlkaddr := 63
  sitBlkaddr := 191
  natBlkaddr := BitVec.ofNat 32 x.nat0
  ssaBlkaddr := BitVec.ofNat 32 x.ssa0
  mainBlkaddr := BitVec.ofNat 32 x.main0
  rootIno := 3
  totalBlocks := BitVec.ofNat 32 V
  mainSegs := BitVec.ofNat 32 x.mainSegs

theorem sbOf_eq (d : Device) (part : U32) {a : Nat} (ha : a < 1024) : sbOf d part a = f2ReadBlock d part 0 (1024 + a) := by
  unfold sbOf f2ReadBlock sectorOf
  have hdiv : (1024 + a) / 512 = 2 + a / 512 := by omega
  have hmod : (1024 + a) % 512 = a % 512 := by omega
  have hzero : part + 0 * 8 = part := BitVec.add_zero part
  rw [if_pos (by omega), hdiv, hmod, hzero, BitVec.add_assoc, BitVec.ofNat_add]
  rfl

theorem read32_sbOf (hsb : ∀ b < 4096, f2ReadBlock d part 0 b = fmtSb x T V b) {a : Nat} (ha : a + 4 ≤ 1024) :
    read32 (sbOf d part) a = read32 (fmtSb x T V) (1024 + a) := by
  have hbyte : ∀ k < 4, sbOf d part (a + k) = fmtSb x T V (1024 + a + k) := fun k hk => by
    rw [sbOf_eq d part (by omega), hsb _ (by omega), Nat.add_assoc]
  have hfirst := hbyte 0 (by decide)
  unfold read32
  rw [hbyte 3 (by decide), hbyte 2 (by decide), hbyte 1 (by decide)]
  exact congrArg (_ ++ ·) hfirst

theorem f2Geometry_fmt (hsb : ∀ b < 4096, f2ReadBlock d part 0 b = fmtSb x T V b) (ok : FmtOk T x) (pl : Placed x V) :
    f2Geometry d part = some (fmtGeo x V) := by
  have hmagic : read32 (sbOf d part) 0 = superMagic := (read32_sbOf hsb (by decide)).trans (read32_putWords 0 rfl rfl)
  have hsec : read32 (sbOf d part) sbOffLogSec = 9 := (read32_sbOf hsb (by decide)).trans (read32_putWords 1 rfl rfl)
  have hspb : read32 (sbOf d part) sbOffLogSpb = 3 := (read32_sbOf hsb (by decide)).trans (read32_putWords 2 rfl rfl)
  have hblk : read32 (sbOf d part) sbOffLogBlk = 12 := (read32_sbOf hsb (by decide)).trans (read32_putWords 3 rfl rfl)
  have hbps : read32 (sbOf d part) sbOffLogBps = 6 := (read32_sbOf hsb (by decide)).trans (read32_putWords 4 rfl rfl)
  have hlow : read32 (sbOf d part) sbOffBlockCount = BitVec.ofNat 32 V :=
    (read32_sbOf hsb (by decide)).trans (read32_putWords 7 rfl rfl)
  have hmain : read32 (sbOf d part) sbOffSegMain = BitVec.ofNat 32 x.mainSegs :=
    (read32_sbOf hsb (by decide)).trans (read32_putWords 15 rfl rfl)
  have hcp : read32 (sbOf d part) sbOffCpBlkaddr = 63 := (read32_sbOf hsb (by decide)).trans (read32_putWords 17 rfl rfl)
  have hsit : read32 (sbOf d part) sbOffSitBlkaddr = 191 := (read32_sbOf hsb (by decide)).trans (read32_putWords 18 rfl rfl)
  have hnat : read32 (sbOf d part) sbOffNatBlkaddr = BitVec.ofNat 32 x.nat0 :=
    (read32_sbOf hsb (by decide)).trans (read32_putWords 19 rfl rfl)
  have hssa : read32 (sbOf d part) sbOffSsaBlkaddr = BitVec.ofNat 32 x.ssa0 :=
    (read32_sbOf hsb (by decide)).trans (read32_putWords 20 rfl rfl)
  have hmain0 : read32 (sbOf d part) sbOffMainBlkaddr = BitVec.ofNat 32 x.main0 :=
    (read32_sbOf hsb (by decide)).trans (read32_putWords 21 rfl rfl)
  have hroot : read32 (sbOf d part) sbOffRootIno = 3 := (read32_sbOf hsb (by decide)).trans (read32_putWords 22 rfl rfl)
  have hcount : (read64 (sbOf d part) sbOffBlockCount).setWidth 32 = BitVec.ofNat 32 V := by
    rw [read64, hlow]
    exact BitVec.setWidth_append_eq_right
  have hrest : ¬ ((fmtGeo x V).rootIno < 3 ∨ (fmtGeo x V).totalBlocks < 16 ∨ (fmtGeo x V).totalBlocks ≤ (fmtGeo x V).mainBlkaddr ∨
      (fmtGeo x V).mainSegs = 0) := by
    have hm := ok.main
    obtain ⟨hnat0, hssa0, hmain0, hfits, hsmall, hhot⟩ := pl
    have hV := @toNat_blk V hsmall
    have hM := @toNat_blk x.main0 (by omega)
    have hS := @toNat_blk x.mainSegs (by omega)
    have h16 : (16 : U32).toNat = 16 := rfl
    rintro (h | h | h | h)
    · exact absurd h (by decide : ¬ (3 : U32) < 3)
    · have hlt := BitVec.lt_def.mp h
      change (BitVec.ofNat 32 V).toNat < _ at hlt
      omega
    · have hle := BitVec.le_def.mp h
      change (BitVec.ofNat 32 V).toNat ≤ (BitVec.ofNat 32 x.main0).toNat at hle
      omega
    · have hzero : (BitVec.ofNat 32 x.mainSegs).toNat = 0 := congrArg BitVec.toNat h
      omega
  unfold f2Geometry
  dsimp only
  rw [hmagic, hblk, hsec, hspb, hbps, hcp, hsit, hnat, hssa, hmain0, hroot, hcount, hmain, if_neg (not_not.mpr rfl),
    if_neg (not_not.mpr rfl), if_neg (by decide), if_neg (by decide), if_neg (by decide)]
  exact if_neg hrest

/-! ## The packs -/

def fmtDisk (d : Device) (part : U32) (x : FmtSizes) (T V : Nat) (ver : U32) : Device := putBlocks part (fmtBlocks x T V ver) d

section
variable (ok : FmtOk T x) (pl : Placed x V)
include ok pl

theorem FmtOk.geometry : f2Geometry (fmtDisk d part x T V ver) part = some (fmtGeo x V) :=
  f2Geometry_fmt (fun _ hb => ok.read_sb pl hb) ok pl

theorem FmtOk.cpHead {a : Nat} (ha : a < 4096) : f2ReadBlock (fmtDisk d part x T V ver) part 63 a = fmtCp x ver a :=
  ok.read_pack pl List.mem_cons_self ha

theorem FmtOk.cpTail {a : Nat} (ha : a < 4096) : f2ReadBlock (fmtDisk d part x T V ver) part 68 a = fmtCp x ver a :=
  ok.read_pack pl (List.mem_cons_of_mem _ List.mem_cons_self) ha

theorem FmtOk.cp2 {a : Nat} (ha : a < 4096) : f2ReadBlock (fmtDisk d part x T V ver) part 127 a = fmtCp2 a := by
  refine ok.read_pack pl ?_ ha
  unfold fmtPacks fmtSeg0 fmtBps
  simp only [List.mem_cons, true_or, or_true]

theorem FmtOk.fields : FmtCpFields x ver (f2ReadBlock (fmtDisk d part x T V ver) part 63) :=
  (fmtCpBody_fields x ver).sealed.congr fun _ ha => ok.cpHead pl (Nat.lt_trans ha (by decide))

theorem FmtOk.tailFields : FmtCpFields x ver (f2ReadBlock (fmtDisk d part x T V ver) part 68) :=
  (fmtCpBody_fields x ver).sealed.congr fun _ ha => ok.cpTail pl (Nat.lt_trans ha (by decide))

theorem FmtOk.firstValid : f2ValidateCp (fmtDisk d part x T V ver) part 64 63 = some (ver.setWidth 64) := by
  have hf : FmtCpFields x ver (f2ReadBlock (fmtDisk d part x T V ver) part 63) := ok.fields pl
  have ht : FmtCpFields x ver (f2ReadBlock (fmtDisk d part x T V ver) part 68) := ok.tailFields pl
  have hsound : CpSound (fmtCp x ver) := cpSound_sealed (fmtCpBody_fields x ver).cksumOff
  have hplace : (63 : U32) + (read32 (f2ReadBlock (fmtDisk d part x T V ver) part 63) cpOffPackTotal - 1) = 68 := by
    rw [hf.total]
    rfl
  rw [f2ValidateCp_eq_some (CpSound.congr (fun _ ha => ok.cpHead pl ha) hsound) (by rw [hf.total]; decide) (by rw [hf.total]; decide)]
  · rw [hf.ver]
  · rw [hplace]
    exact CpSound.congr (fun _ ha => ok.cpTail pl ha) hsound
  · rw [hplace, hf.ver, ht.ver]

theorem FmtOk.secondInvalid : f2ValidateCp (fmtDisk d part x T V ver) part 64 (63 + 64) = none := by
  have htotal : read32 (f2ReadBlock (fmtDisk d part x T V ver) part (63 + 64)) cpOffPackTotal = 0 := by
    refine (read32_congr fun a _ ha => ok.cp2 pl (Nat.lt_trans ha (by decide))).trans ?_
    exact (read32_sealed (by decide)).trans (by rfl)
  unfold f2ValidateCp
  dsimp only
  by_cases hs : ¬ CpSound (f2ReadBlock (fmtDisk d part x T V ver) part (63 + 64))
  · rw [if_pos hs]
  · rw [if_neg hs, if_pos (Or.inl htotal)]

theorem FmtOk.pick : f2PickCp (fmtDisk d part x T V ver) part (fmtGeo x V) = some 63 :=
  f2PickCp_first (ok.firstValid pl) fun w hw => by
    have hnone : f2ValidateCp (fmtDisk d part x T V ver) part 64 (63 + 64) = none := ok.secondInvalid pl
    change f2ValidateCp _ part 64 (63 + 64) = some w at hw
    rw [hnone] at hw
    cases hw

theorem FmtOk.startCp (hodd : OddVer (ver.setWidth 64)) :
    f2StartCp (fmtDisk d part x T V ver) part (fmtGeo x V) = some 63 := by
  rw [f2StartCp_of_pick (ok.pick pl) (ok.firstValid pl), packOf_odd hodd]
  rfl

def fmtVol (d : Device) (part payload : U32) (x : FmtSizes) (T V : Nat) (ver : U32) : Vol :=
  loaded (fmtDisk d part x T V ver) part payload (fmtGeo x V) (ver.setWidth 64) 63

theorem FmtOk.load (hodd : OddVer (ver.setWidth 64)) :
    f2Load (fmtDisk d part x T V ver) part payload =
      if payload = 0 ∧ 3903 < BitVec.ofNat 32 (x.sitSegs / 2 * 64 / 8) then none
      else some (fmtVol d part payload x T V ver) := by
  have hf : FmtCpFields x ver (f2ReadBlock (fmtDisk d part x T V ver) part 63) := ok.fields pl
  unfold f2Load
  simp only [ok.geometry pl, ok.pick pl, ok.startCp pl hodd, Option.bind_eq_bind, Option.bind_some, hf.sitVerBytes, hf.ver]
  rfl

theorem FmtOk.mounts (hodd : OddVer (ver.setWidth 64)) {v : Vol}
    (h : f2fsMount (fmtDisk d part x T V ver) part payload = some v) : v = fmtVol d part payload x T V ver := by
  unfold f2fsMount at h
  obtain ⟨u, hload, hroot⟩ := Option.bind_eq_some_iff.mp h
  obtain ⟨root, -, hroot⟩ := Option.bind_eq_some_iff.mp hroot
  have hvu : u = v := by
    by_cases hdir : isDirNode root = true
    · rw [if_pos hdir] at hroot
      exact Option.some.inj hroot
    · rw [if_neg hdir] at hroot
      cases hroot
  rw [ok.load pl hodd] at hload
  by_cases hbad : payload = 0 ∧ 3903 < BitVec.ofNat 32 (x.sitSegs / 2 * 64 / 8)
  · rw [if_pos hbad] at hload
    cases hload
  · rw [if_neg hbad] at hload
    rw [← hvu, ← Option.some.inj hload]

end

end Ezos.F2fs

/-!
# The logs behind formatting

Two blocks are in use, the inode of the root and its entries, each the first of a log of its own.
-/

namespace Ezos.F2fs

open Lib Lib.Memory Lib.FaultyStore Lib.SegmentLog

variable {x : FmtSizes} {T V : Nat} {ver part payload : U32} {d : Device}

section
variable {m : Mem} {se off type o : Nat}

theorem fmtSitEntry_apart (hoff : off < 512) {a : Nat} (h : ¬ (se ≤ a ∧ a < se + sitEntrySize)) :
    fmtSitEntry m se off type a = m a := by
  unfold sitEntrySize at h
  unfold fmtSitEntry sitVblockMapSize
  rw [write64_of_disjoint (by omega), write16_of_disjoint (by omega)]
  exact f2SetBitBe_of_ne (by omega)

theorem fmtSitEntry_bit (ho : o < 512) : f2TestBitBe o (fun i => fmtSitEntry m se off type (se + 2 + i)) =
    (decide (o = off) || f2TestBitBe o fun i => m (se + 2 + i)) := by
  unfold fmtSitEntry sitVblockMapSize
  rw [f2TestBitBe_congr (q := fun i => f2SetBitBe off m (se + 2) (se + 2 + i))
    (by rw [write64_of_disjoint (by omega), write16_of_disjoint (by omega)])]
  exact f2TestBitBe_set _ _ _ _

theorem fmtSitEntry_word : read16 (fmtSitEntry m se off type) se = BitVec.ofNat 16 (1 ||| type <<< sitVblocksShift) := by
  unfold fmtSitEntry sitVblockMapSize
  rw [read16_congr fun a _ ha => write64_of_disjoint (by omega)]
  exact read16_write16_self _ _ _

end

def fmtSeg (hot : Nat) : Log → Nat
  | .data => hot
  | .node => 0

def fmtOff : Log → Nat
  | .data => 1
  | .node => 2

def fmtLogs (hot : Nat) : State Log :=
  use (use { used := fun _ _ => false, seg := fmtSeg hot, off := fmtOff } 0 1 true) hot 0 true

theorem fmtLogs_used (hot n o : Nat) : (fmtLogs hot).used n o = decide (n = hot ∧ o = 0 ∨ n = 0 ∧ o = 1) := by
  rw [fmtLogs, used_use, used_use]
  by_cases hfirst : n = hot ∧ o = 0
  · rw [if_pos hfirst, decide_eq_true (Or.inl hfirst)]
  · by_cases hsecond : n = 0 ∧ o = 1
    · rw [if_neg hfirst, if_pos hsecond, decide_eq_true (Or.inr hsecond)]
    · rw [if_neg hfirst, if_neg hsecond, decide_eq_false (not_or.mpr ⟨hfirst, hsecond⟩)]

theorem tally_fmtLogs {hot : Nat} (hpos : 1 ≤ hot) (n : Nat) :
    tally 64 (fmtLogs hot).used n = if n = 0 ∨ n = hot then 1 else 0 := by
  obtain ⟨s, hs⟩ : ∃ s : State Log, s = { used := fun _ _ => false, seg := fmtSeg hot, off := fmtOff } := ⟨_, rfl⟩
  have hlogs : fmtLogs hot = use (use s 0 1 true) hot 0 true := by rw [hs, fmtLogs]
  have hnone : ∀ m, tally 64 s.used m = 0 := fun m => by
    rw [hs]
    rfl
  have hclear : ∀ m o, s.used m o = false := fun m o => by rw [hs]
  have hfirst := tally_use s 0 true (by decide : 1 < 64)
  have hsecond := tally_use (use s 0 1 true) hot true (by decide : 0 < 64)
  have hother : (use s 0 1 true).used hot 0 = false := by rw [used_use, if_neg (by omega), hclear]
  have htrue : true.toNat = 1 := rfl
  have hfalse : false.toNat = 0 := rfl
  rw [hnone, hclear, htrue, hfalse] at hfirst
  rw [hother, htrue, hfalse, tally_use_other s 1 true (by omega : hot ≠ 0), hnone] at hsecond
  rw [hlogs]
  by_cases hhot : n = hot
  · rw [if_pos (Or.inr hhot), hhot]
    exact hsecond
  · rw [tally_use_other _ 0 true hhot]
    by_cases hzero : n = 0
    · rw [if_pos (Or.inl hzero), hzero]
      exact hfirst
    · rw [tally_use_other _ 1 true hzero, hnone, if_neg (not_or.mpr ⟨hzero, hhot⟩)]

structure FmtEntry (hot : Nat) (m : Mem) (se n : Nat) : Prop where
  word : read16 m se &&& sitVblocksMask = if n = 0 ∨ n = hot then 1 else 0
  bits : ∀ o < 512, f2TestBitBe o (fun i => m (se + 2 + i)) = (fmtLogs hot).used n o

theorem zeros_bit (o : Nat) : f2TestBitBe o (fun _ => (0 : Byte)) = false := BitVec.getLsbD_zero

theorem fmtEntry_zeros {hot n se : Nat} {m : Mem} (hm : ∀ i < sitEntrySize, m (se + i) = 0) (hn : n ≠ 0) (hne : n ≠ hot) :
    FmtEntry hot m se n := by
  refine ⟨?_, fun o ho => ?_⟩
  · have h0 := hm 0 (by decide)
    rw [if_neg (not_or.mpr ⟨hn, hne⟩), read16, hm 1 (by decide)]
    rw [Nat.add_zero] at h0
    rw [h0]
    rfl
  · rw [fmtLogs_used, decide_eq_false (by omega), f2TestBitBe_congr (q := fun _ => 0)]
    · exact zeros_bit o
    · rw [Nat.add_assoc]
      exact hm _ (by unfold sitEntrySize; omega)

theorem fmtSit_entry {hot : Nat} (hpos : 1 ≤ hot) (n : Nat) :
    FmtEntry hot (fmtSitEntry (fmtSitEntry zeros 0 1 cursegHotNode) (hot * sitEntrySize) 0 cursegHotData) (n * sitEntrySize) n := by
  by_cases hhot : n = hot
  · subst hhot
    refine ⟨?_, fun o ho => ?_⟩
    · rw [fmtSitEntry_word, if_pos (Or.inr rfl)]
      rfl
    · rw [fmtSitEntry_bit ho, fmtLogs_used, f2TestBitBe_congr (q := fun _ => 0), zeros_bit, Bool.or_false]
      · exact decide_eq_decide.mpr (by omega)
      · exact fmtSitEntry_apart (by decide) (by unfold sitEntrySize; omega)
  · have hout : ∀ a, n * 74 ≤ a → a < n * 74 + 74 → ¬ (hot * sitEntrySize ≤ a ∧ a < hot * sitEntrySize + sitEntrySize) := by
      intro a hlo hhi
      unfold sitEntrySize
      omega
    by_cases hzero : n = 0
    · subst hzero
      refine ⟨?_, fun o ho => ?_⟩
      · rw [if_pos (Or.inl rfl), read16_congr fun a hlo hhi => fmtSitEntry_apart (by decide)
          (hout a (by unfold sitEntrySize at hlo; omega) (by unfold sitEntrySize at hhi; omega)), Nat.zero_mul, fmtSitEntry_word]
        rfl
      · rw [fmtLogs_used, f2TestBitBe_congr (q := fun i => fmtSitEntry zeros 0 1 cursegHotNode (0 * sitEntrySize + 2 + i)),
          Nat.zero_mul]
        · rw [fmtSitEntry_bit ho, f2TestBitBe_congr (q := fun _ => 0) rfl, zeros_bit, Bool.or_false]
          exact decide_eq_decide.mpr (by omega)
        · exact fmtSitEntry_apart (by decide) (hout _ (by omega) (by omega))
    · refine fmtEntry_zeros (fun i hi => ?_) hzero hhot
      have hi : i < 74 := hi
      unfold sitEntrySize at *
      rw [fmtSitEntry_apart (by decide) (hout _ (by omega) (by omega)), fmtSitEntry_apart (by decide) (by unfold sitEntrySize; omega)]
      rfl

/-! ## The volume -/

@[simp] theorem fmtVol_geo : (fmtVol d part payload x T V ver).geo = fmtGeo x V := rfl

@[simp] theorem fmtVol_disk : (fmtVol d part payload x T V ver).disk = fmtDisk d part x T V ver := by
  unfold fmtVol loaded
  dsimp only

@[simp] theorem fmtVol_part : (fmtVol d part payload x T V ver).part = part := rfl

theorem Placed.mainSegs_nat (pl : Placed x V) : (fmtGeo x V).mainSegs.toNat = x.mainSegs := by
  have hsmall := pl.small
  have hfits := pl.fits
  exact toNat_blk (by omega)

section
variable (ok : FmtOk T x) (pl : Placed x V)
include ok pl

theorem FmtOk.laid : Laid (fmtGeo x V) := by
  have hsegs := pl.mainSegs_nat
  have hm := ok.main
  have hsit := ok.sit
  have harea := ok.sitArea
  have hssa := ok.ssaArea
  have htwo := ok.natSegs
  obtain ⟨hnat0, hssa0, hmain0, hfits, hsmall, hhot⟩ := pl
  have hS : (fmtGeo x V).ssaBlkaddr.toNat = x.ssa0 := toNat_blk (by omega)
  have hM : (fmtGeo x V).mainBlkaddr.toNat = x.main0 := toNat_blk (by omega)
  have hT : (fmtGeo x V).sitBlkaddr.toNat = 191 := rfl
  have hB : (fmtGeo x V).bps.toNat = 64 := rfl
  refine ⟨by rw [hB]; decide, by rw [hB]; decide, ?_, ?_, ?_⟩
  · rw [hT, hsegs, hS]
    omega
  · rw [hS, hsegs, hM]
    omega
  · rw [hM, hsegs, hB]
    omega

theorem FmtOk.sitByte {n : U32} (hn : n < (fmtGeo x V).mainSegs) {i : Nat} (hi : i < sitEntrySize) :
    sitByte (fmtVol d part payload x T V ver) n i = fmtSit x (n.toNat / 55) (n.toNat % 55 * 74 + i) := by
  have hlt : n.toNat < x.mainSegs := by
    rw [← pl.mainSegs_nat]
    exact BitVec.lt_def.mp hn
  have hsit := ok.sit
  have hb : n.toNat / 55 < x.sitBlks := by omega
  have hper : sitEntryPerBlock.toNat = 55 := rfl
  have hentry : sitEntry n = n.toNat % 55 * 74 := by
    rw [sitEntry, BitVec.toNat_umod, hper]
    rfl
  have hblock : sitBlock (fmtVol d part payload x T V ver) n = BitVec.ofNat 32 (191 + n.toNat / 55) := by
    rw [sitBlock, fmtVol_geo]
    apply BitVec.eq_of_toNat_eq
    have hfirst : (fmtGeo x V).sitBlkaddr.toNat = 191 := rfl
    rw [BitVec.toNat_add, BitVec.toNat_udiv, hper, hfirst, BitVec.toNat_ofNat]
  have hlast := sitEntry_le n
  have hread := @FmtOk.read_sit x T V ver ok pl part d _ hb (sitEntry n + i) (by omega)
  unfold F2fs.sitByte
  rw [hblock, ← hentry, fmtVol_disk, fmtVol_part]
  exact hread

theorem FmtOk.entry {n : U32} (hn : n < (fmtGeo x V).mainSegs) :
    f2Vblocks (fmtVol d part payload x T V ver) n = (if n.toNat = 0 ∨ n.toNat = x.cdHot then 1 else 0) ∧
      ∀ o < 512, f2ValidBit (fmtVol d part payload x T V ver) n o = (fmtLogs x.cdHot).used n.toNat o := by
  have hhot := pl.cdHot
  have hbyte : ∀ i < sitEntrySize, F2fs.sitByte (fmtVol d part payload x T V ver) n i =
      fmtSit x (n.toNat / 55) (n.toNat % 55 * 74 + i) := fun i hi => ok.sitByte pl hn hi
  have hentry : FmtEntry x.cdHot (fmtSit x (n.toNat / 55)) (n.toNat % 55 * 74) n.toNat := by
    have hdiv : x.cdHot / 55 = 0 := by omega
    have hmod : x.cdHot % 55 = x.cdHot := by omega
    unfold fmtSit
    dsimp only
    rw [hdiv, hmod]
    by_cases hblock : n.toNat / 55 = 0
    · rw [if_pos hblock, if_pos hblock, (by omega : n.toNat % 55 = n.toNat)]
      exact fmtSit_entry hhot.1 n.toNat
    · rw [if_neg hblock, if_neg hblock]
      exact fmtEntry_zeros (fun _ _ => rfl) (by omega) (by omega)
  refine ⟨?_, fun o ho => ?_⟩
  · rw [f2Vblocks_eq, hbyte 0 (by decide), hbyte 1 (by decide)]
    exact hentry.word
  · rw [f2ValidBit_eq, ← hentry.bits o ho]
    refine f2TestBitBe_congr ((hbyte _ (by unfold sitEntrySize; omega)).trans ?_)
    rw [Nat.add_assoc]

theorem FmtOk.cursors (l : Log) : ((fmtVol d part payload x T V ver).curSeg l).toNat = fmtSeg x.cdHot l ∧
    ((fmtVol d part payload x T V ver).curBlkoff l).toNat = fmtOff l := by
  have hf : FmtCpFields x ver (f2ReadBlock (fmtDisk d part x T V ver) part 63) := ok.fields pl
  have hhot := pl.cdHot
  cases l with
  | data =>
    refine ⟨(congrArg BitVec.toNat hf.dataSeg).trans ?_, (congrArg BitVec.toNat hf.dataOff).trans rfl⟩
    exact toNat_blk (by omega)
  | node => exact ⟨(congrArg BitVec.toNat hf.nodeSeg).trans rfl, (congrArg BitVec.toNat hf.nodeOff).trans rfl⟩

theorem FmtOk.logs : logsOf (fmtVol d part payload x T V ver) = fmtLogs x.cdHot := by
  have hm := ok.main
  have hhot := pl.cdHot
  have hlt : x.cdHot < x.mainSegs := by omega
  refine State.ext ?_ ?_ ?_
  · funext n o
    change inUse _ n o = _
    rw [inUse, fmtVol_geo, pl.mainSegs_nat]
    change (decide (n < x.mainSegs ∧ o < 64) && _) = _
    by_cases hno : n < x.mainSegs ∧ o < 64
    · have hn : n < (fmtGeo x V).mainSegs.toNat := by
        rw [pl.mainSegs_nat]
        exact hno.1
      obtain ⟨hnat, hsegs⟩ := (ok.laid pl).seg_lt hn
      rw [decide_eq_true hno, Bool.true_and, (ok.entry pl hsegs).2 o (by omega), hnat]
    · rw [decide_eq_false hno, Bool.false_and, fmtLogs_used]
      exact (decide_eq_false (by omega)).symm
  · funext l
    exact (ok.cursors pl l).1
  · funext l
    exact (ok.cursors pl l).2

theorem FmtOk.tracked : Tracked (fmtVol d part payload x T V ver) := by
  have hm := ok.main
  have hhot := pl.cdHot
  have hlogs : logsOf (fmtVol d part payload x T V ver) = fmtLogs x.cdHot := ok.logs pl
  refine ⟨ok.laid pl, fun n hn => ?_, ?_⟩
  · have hused : inUse (fmtVol d part payload x T V ver) = (fmtLogs x.cdHot).used := congrArg State.used hlogs
    rw [(ok.entry pl hn).1, hused]
    refine Eq.trans ?_ (tally_fmtLogs hhot.1 n.toNat).symm
    by_cases h : n.toNat = 0 ∨ n.toNat = x.cdHot
    · rw [if_pos h, if_pos h]
      rfl
    · rw [if_neg h, if_neg h]
      rfl
  · rw [hlogs, fmtVol_geo, pl.mainSegs_nat]
    refine ⟨fun l => ?_, fun l l' he => ?_, fun l o hlo _ => ?_⟩
    · cases l with
      | data => exact (by omega : x.cdHot < x.mainSegs)
      | node => exact (by omega : 0 < x.mainSegs)
    · change fmtSeg x.cdHot l = fmtSeg x.cdHot l' at he
      unfold fmtSeg at he
      cases l with
      | data =>
        cases l' with
        | data => rfl
        | node =>
          dsimp only at he
          omega
      | node =>
        cases l' with
        | data =>
          dsimp only at he
          omega
        | node => rfl
    · rw [fmtLogs_used]
      refine decide_eq_false ?_
      cases l with
      | data =>
        change 1 ≤ o at hlo
        change ¬ (x.cdHot = x.cdHot ∧ o = 0 ∨ x.cdHot = 0 ∧ o = 1)
        omega
      | node =>
        change 2 ≤ o at hlo
        omega

end

theorem fmtVer_odd (drive : Byte) (volBlocks : Nat) : OddVer ((fmtVer drive volBlocks).setWidth 64) := by
  unfold fmtVer
  dsimp only
  generalize (_ : U32) ^^^ (_ : U32) = rnd
  have hone : ∀ w : U32, (w ||| 1).toNat % 2 = 1 := fun w => by
    rw [BitVec.toNat_or]
    change (w.toNat ||| 1) % 2 = 1
    rw [Nat.or_mod_two_eq_one]
    exact Or.inr rfl
  rw [oddVer_iff, BitVec.toNat_setWidth_of_le (by decide)]
  exact hone rnd

theorem fmtCpBody_behind {b : Nat} (hlo : 192 ≤ b) (hhi : b < 4092) : fmtCpBody x ver b = 0 := by
  unfold fmtCpBody
  rw [putWords_clear (a := 192) (n := 3900) (by rfl) hlo (by omega), putHalves_clear (a := 192) (n := 3900) (by rfl) hlo (by omega),
    putHalves_clear (a := 192) (n := 3900) (by rfl) hlo (by omega), putWords_clear (a := 192) (n := 3900) (by rfl) hlo (by omega),
    putWords_clear (a := 192) (n := 3900) (by rfl) hlo (by omega), putWords_clear (a := 192) (n := 3900) (by rfl) hlo (by omega),
    putWords_clear (a := 192) (n := 3900) (by rfl) hlo (by omega), write64_of_disjoint (by unfold cpOffValidBlocks; omega),
    write64_of_disjoint (by omega), write64_of_disjoint (by unfold cpOffVer; omega)]
  rfl

theorem fmtRoot_mode : read16 (fmtRoot x ver) inoOffMode = 0x41ED := by
  unfold fmtRoot f2SetFooter inoOffMode
  rw [read16_write32_of_disjoint _ (by decide), read16_congr fun a _ ha => write64_of_disjoint (by omega),
    read16_putWords_apart (by rfl), read16_putWords_apart (by rfl), read16_congr fun a _ ha => write64_of_disjoint (by omega),
    read16_congr fun a _ ha => write64_of_disjoint (by omega), read16_putWords_apart (by rfl)]
  exact read16_write16_self _ _ _

theorem fmtCompact_head (x : FmtSizes) : fmtCompact x 0 = 3 := by
  rw [fmtCompact, write16_of_disjoint (by omega), write32, if_pos (by omega)]
  rfl

theorem fmtCompact_zero (x : FmtSizes) {b : Nat} (hpos : 0 < b) (hb : b < 6 ∨ 15 ≤ b ∧ b < 507) : fmtCompact x b = 0 := by
  unfold fmtCompact
  by_cases hfive : 5 ≤ b ∧ b < 7
  · have hb5 : b = 5 := by omega
    rw [hb5]
    rfl
  rw [write16_of_disjoint (by omega)]
  by_cases hhead : b < 4
  · have hcases : b = 1 ∨ b = 2 ∨ b = 3 := by omega
    rcases hcases with rfl | rfl | rfl
    all_goals
      rw [write32, if_pos (by omega)]
      rfl
  rw [write32_of_disjoint (by omega), compactSum, if_pos (by unfold sumJournalSize; omega), fmtNatj,
    write16_of_disjoint (by omega)]
  by_cases hentry : b = 4
  · rw [hentry]
    rfl
  · rw [putWords_clear (a := 15) (n := 492) (by rfl) (by omega) (by omega)]
    rfl

section
variable (ok : FmtOk T x) (pl : Placed x V)
include ok pl

theorem FmtOk.compact : f2ReadBlock (fmtDisk d part x T V ver) part 64 = fmtCompact x := by
  funext a
  by_cases ha : a < 4096
  · exact ok.read_pack pl (List.mem_cons_of_mem _ (List.mem_cons_of_mem _ List.mem_cons_self)) ha
  · unfold f2ReadBlock fmtCompact compactSum sumJournalSize
    rw [if_neg ha, write16_of_disjoint (by omega), write32_of_disjoint (by omega), if_neg (by omega), if_neg (by omega)]

theorem FmtOk.journal : f2JournalLookup (fmtVol d part payload x T V ver).natj 3 = 0 := by
  have hf : FmtCpFields x ver (f2ReadBlock (fmtDisk d part x T V ver) part 63) := ok.fields pl
  have hoff : f2JournalOff (f2ReadBlock (fmtDisk d part x T V ver) part 63) = 1 := by
    unfold f2JournalOff
    rw [hf.flags, if_pos (by decide), hf.startSum]
  have hnatj : (fmtVol d part payload x T V ver).natj = fmtCompact x := by
    change (f2LoadNatJournal (fmtDisk d part x T V ver) part 63 (f2ReadBlock (fmtDisk d part x T V ver) part 63)).1 = _
    unfold f2LoadNatJournal
    rw [hf.flags, if_pos (by decide), hoff]
    exact ok.compact pl
  have hzero : ∀ a, 2 ≤ a → a + 4 ≤ 6 ∨ 15 ≤ a ∧ a + 4 ≤ 507 → read32 (fmtCompact x) a = 0 := by
    intro a hlo hcase
    rw [read32, fmtCompact_zero x (by omega) (by omega), fmtCompact_zero x (by omega) (by omega),
      fmtCompact_zero x (by omega) (by omega), fmtCompact_zero x (by omega) (by omega)]
    rfl
  have hcount : read16 (fmtCompact x) 0 = 3 := by
    rw [read16, fmtCompact_zero x (by decide) (by decide)]
    exact congrArg ((0 : Byte) ++ ·) (fmtCompact_head x)
  have hthree : natJournalCount (fmtCompact x) = 3 := by
    rw [natJournalCount, hcount]
    rfl
  have hnone : ((List.range 3).find? fun i => read32 (fmtCompact x) (natJentry i) = 3) = none := by
    rw [List.find?_eq_none]
    intro i hi
    have hlt := List.mem_range.mp hi
    have hplace : natJentry i = 2 + i * 13 := rfl
    rw [hplace, hzero _ (by omega) (by omega)]
    decide
  rw [hnatj, f2JournalLookup, hthree, hnone]

theorem FmtOk.lookup_root (hbytes : payload ≠ 0 ∨ x.sitSegs / 2 * 64 / 8 < 3900) :
    f2NatLookup (fmtVol d part payload x T V ver) 3 = BitVec.ofNat 32 (x.main0 + 1) := by
  have hf : FmtCpFields x ver (f2ReadBlock (fmtDisk d part x T V ver) part 63) := ok.fields pl
  have hjournal : f2JournalLookup (fmtVol d part payload x T V ver).natj 3 = 0 := ok.journal pl
  have hfits := pl.fits
  have hsmall := pl.small
  -- The bitmap says that the first copy of the block is the one in use.
  have hbit : f2TestBitBe 0 (f2NatBitmap (fmtVol d part payload x T V ver)) = false := by
    have hlt : (fmtVol d part payload x T V ver).sitBytes.toNat < 3900 := by
      change (if payload = 0 then read32 (f2ReadBlock (fmtDisk d part x T V ver) part 63) cpOffSitVerBytes else 0).toNat < 3900
      rcases hbytes with hne | hlt
      · rw [if_neg hne]
        decide
      · rw [hf.sitVerBytes]
        split
        · rw [toNat_blk (by omega)]
          exact hlt
        · decide
    have hbyte : f2NatBitmap (fmtVol d part payload x T V ver) 0 = 0 := by
      refine (ok.cpHead pl ?_).trans ?_
      · unfold cpOffBitmap
        omega
      · unfold cpOffBitmap
        exact (sealed_apart (by omega)).trans (fmtCpBody_behind (by omega) (by omega))
    rw [f2TestBitBe, hbyte]
    rfl
  have hread : read32 (f2ReadBlock (fmtDisk d part x T V ver) part (BitVec.ofNat 32 x.nat0)) 32 =
      BitVec.ofNat 32 (x.main0 + 1) :=
    (read32_congr fun a _ ha => ok.read_nat pl (Nat.lt_trans ha (by decide))).trans (read32_putWords 1 rfl rfl)
  have haddr : natBlockAddr (fmtVol d part payload x T V ver) 0 = BitVec.ofNat 32 x.nat0 := by
    have hpair : ((0 : U32) / 64 * 64) <<< 1 = 0 := by decide
    have hpart : (0 : U32) &&& (64 - 1) = 0 := by decide
    rw [natBlockAddr, fmtVol_geo]
    change BitVec.ofNat 32 x.nat0 + ((0 : U32) / 64 * 64) <<< 1 + ((0 : U32) &&& (64 - 1)) = _
    rw [hpair, hpart]
    exact (BitVec.add_zero _).trans (BitVec.add_zero _)
  have hoff : (3 : U32) / natEntryPerBlock = 0 := by decide
  have hplace : ((3 : U32) % natEntryPerBlock).toNat * natEntrySize + 5 = 32 := by decide
  have hzero : (0 : U32).toNat = 0 := rfl
  unfold f2NatLookup
  dsimp only
  rw [hjournal, if_neg (by decide), hoff, hplace, hzero, hbit, if_neg Bool.false_ne_true, haddr, fmtVol_disk, fmtVol_part]
  exact hread

theorem FmtOk.mount (hodd : OddVer (ver.setWidth 64)) (hbytes : payload ≠ 0 ∨ x.sitSegs / 2 * 64 / 8 < 3900) :
    f2fsMount (fmtDisk d part x T V ver) part payload = some (fmtVol d part payload x T V ver) := by
  have hlookup : f2NatLookup (fmtVol d part payload x T V ver) 3 = BitVec.ofNat 32 (x.main0 + 1) := ok.lookup_root pl hbytes
  have hfits := pl.fits
  have hsmall := pl.small
  have hmain := ok.main
  have hnot : ¬ (payload = 0 ∧ 3903 < BitVec.ofNat 32 (x.sitSegs / 2 * 64 / 8)) := by
    rintro ⟨hzero, hbig⟩
    have hlt := hbytes.resolve_left (not_not.mpr hzero)
    rw [BitVec.lt_def, toNat_blk (by omega)] at hbig
    change 3903 < _ at hbig
    omega
  have hroot : f2ReadNode (fmtVol d part payload x T V ver) 3 =
      some (f2ReadBlock (fmtDisk d part x T V ver) part (BitVec.ofNat 32 (x.main0 + 1))) := by
    have hne : ¬ (BitVec.ofNat 32 (x.main0 + 1) = 0 ∨ BitVec.ofNat 32 (x.main0 + 1) < BitVec.ofNat 32 x.main0) := by
      rw [BitVec.lt_def, toNat_blk (by omega), toNat_blk (by omega)]
      rintro (hzero | hlt)
      · have hnat := congrArg BitVec.toNat hzero
        rw [toNat_blk (by omega)] at hnat
        exact absurd hnat (Nat.succ_ne_zero _)
      · omega
    have hmain0 : (fmtVol d part payload x T V ver).geo.mainBlkaddr = BitVec.ofNat 32 x.main0 := rfl
    rw [f2ReadNode, hlookup, hmain0, if_neg hne, fmtVol_disk, fmtVol_part]
  have hlt : inoOffMode + 2 < 4096 := by decide
  have hblock : ∀ a < 4096, f2ReadBlock (fmtDisk d part x T V ver) part (BitVec.ofNat 32 (x.main0 + 1)) a = fmtRoot x ver a :=
    fun a ha => ok.read_root pl ha
  have hmode : read16 (f2ReadBlock (fmtDisk d part x T V ver) part (BitVec.ofNat 32 (x.main0 + 1))) inoOffMode = 0x41ED :=
    (read16_congr fun a _ ha => hblock a (Nat.lt_trans ha hlt)).trans fmtRoot_mode
  have hdir : isDirNode (f2ReadBlock (fmtDisk d part x T V ver) part (BitVec.ofNat 32 (x.main0 + 1))) = true := by
    rw [isDirNode, hmode]
    decide
  have hload : f2Load (fmtDisk d part x T V ver) part payload = some (fmtVol d part payload x T V ver) :=
    (ok.load pl hodd).trans (if_neg hnot)
  have hino : (fmtVol d part payload x T V ver).geo.rootIno = 3 := rfl
  unfold f2fsMount
  simp only [hload, hino, hroot, hdir, Option.bind_eq_bind, Option.bind_some, if_true]

end

def fmtPart (partStart : U32) : U32 := if partStart = 0 then 1 else partStart

/-- The segments of a partition (`total_segs`). -/
def fmtTotal (capSecs partStart : U32) : Nat := (((capSecs - fmtPart partStart) / 8).toNat - fmtSeg0) / fmtBps

structure FmtRoom (capSecs partStart : U32) : Prop where
  cap : capSecs ≠ 0
  blocks : fmtSeg0 + 8 * fmtBps < ((capSecs - fmtPart partStart) / 8).toNat
  main : 8 ≤ (fmtSizes (fmtTotal capSecs partStart)).mainSegs

section
variable {capSecs partStart : U32} {drive : Byte} {v w : Vol}

theorem FmtRoom.big (h : FmtRoom capSecs partStart) : 15 ≤ fmtTotal capSecs partStart := by
  have hmain := h.main
  have hmeta := fmtTurns_metaSegs (fmtTotal capSecs partStart)
  have hfit : (fmtSizes (fmtTotal capSecs partStart)).mainSegs ≤
    fmtTotal capSecs partStart - (fmtTurns (fmtTotal capSecs partStart) 8 fmtStart).metaSegs := Nat.min_le_right _ _
  omega

theorem FmtRoom.small (h : FmtRoom capSecs partStart) : 63 + fmtTotal capSecs partStart * 64 < 536870912 := by
  have height : ((capSecs - fmtPart partStart) / 8).toNat = (capSecs - fmtPart partStart).toNat / 8 := BitVec.toNat_udiv
  have hsecs := (capSecs - fmtPart partStart).isLt
  have hblocks := h.blocks
  have hbig := h.big
  unfold fmtTotal fmtSeg0 fmtBps at *
  omega

theorem FmtRoom.ok (h : FmtRoom capSecs partStart) :
    FmtOk (fmtTotal capSecs partStart) (fmtSizes (fmtTotal capSecs partStart)) := fmtSizes_ok h.big h.main

theorem FmtRoom.placed (h : FmtRoom capSecs partStart) :
    Placed (fmtSizes (fmtTotal capSecs partStart)) (63 + fmtTotal capSecs partStart * 64) := h.ok.placed rfl h.small

def formatted (d : Device) (capSecs partStart payload : U32) (drive : Byte) : Vol :=
  let T := fmtTotal capSecs partStart
  let V := 63 + T * 64
  fmtVol (Function.update d 0 (fmtMbr (fmtPart partStart) V)) (fmtPart partStart) payload (fmtSizes T) T V (fmtVer drive V)

theorem f2fsFormat_eq : f2fsFormat d capSecs partStart payload drive =
    if capSecs = 0 then none else
    if ((capSecs - fmtPart partStart) / 8).toNat ≤ fmtSeg0 + 8 * fmtBps then none else
    if (fmtSizes (fmtTotal capSecs partStart)).mainSegs < 8 then none else
    f2fsMount (fmtDisk (Function.update d 0 (fmtMbr (fmtPart partStart) (fmtSeg0 + fmtTotal capSecs partStart * fmtBps)))
      (fmtPart partStart) (fmtSizes (fmtTotal capSecs partStart)) (fmtTotal capSecs partStart)
      (fmtSeg0 + fmtTotal capSecs partStart * fmtBps)
      (fmtVer drive (fmtSeg0 + fmtTotal capSecs partStart * fmtBps))) (fmtPart partStart) payload := rfl

theorem f2fsFormat_of_room (h : FmtRoom capSecs partStart) :
    f2fsFormat d capSecs partStart payload drive =
      f2fsMount (fmtDisk (Function.update d 0 (fmtMbr (fmtPart partStart) (63 + fmtTotal capSecs partStart * 64)))
        (fmtPart partStart) (fmtSizes (fmtTotal capSecs partStart)) (fmtTotal capSecs partStart)
        (63 + fmtTotal capSecs partStart * 64) (fmtVer drive (63 + fmtTotal capSecs partStart * 64)))
        (fmtPart partStart) payload := by
  have hseg0 : fmtSeg0 = 63 := rfl
  have hbps : fmtBps = 64 := rfl
  rw [f2fsFormat_eq, if_neg h.cap, if_neg (Nat.not_le.mpr h.blocks), if_neg (Nat.not_lt.mpr h.main), hseg0, hbps]

theorem f2fsFormat_room (h : f2fsFormat d capSecs partStart payload drive = some v) : FmtRoom capSecs partStart := by
  rw [f2fsFormat_eq] at h
  by_cases hcap : capSecs = 0
  · rw [if_pos hcap] at h
    cases h
  rw [if_neg hcap] at h
  by_cases hblocks : ((capSecs - fmtPart partStart) / 8).toNat ≤ fmtSeg0 + 8 * fmtBps
  · rw [if_pos hblocks] at h
    cases h
  rw [if_neg hblocks] at h
  by_cases hmain : (fmtSizes (fmtTotal capSecs partStart)).mainSegs < 8
  · rw [if_pos hmain] at h
    cases h
  exact ⟨hcap, Nat.lt_of_not_le hblocks, Nat.le_of_not_lt hmain⟩

theorem f2fsFormat_inv (h : f2fsFormat d capSecs partStart payload drive = some v) :
    FmtRoom capSecs partStart ∧ v = formatted d capSecs partStart payload drive := by
  have hroom := f2fsFormat_room h
  rw [f2fsFormat_of_room hroom] at h
  unfold formatted
  exact ⟨hroom, hroom.ok.mounts hroom.placed (fmtVer_odd _ _) h⟩

def BitmapFits (capSecs partStart payload : U32) : Prop :=
  payload ≠ 0 ∨ (fmtSizes (fmtTotal capSecs partStart)).sitSegs / 2 * 64 / 8 ≤ 3903

theorem BitmapFits.short (h : BitmapFits capSecs partStart payload) :
    payload ≠ 0 ∨ (fmtSizes (fmtTotal capSecs partStart)).sitSegs / 2 * 64 / 8 < 3900 :=
  h.imp_right fun hle => by omega

theorem FmtRoom.mount (h : FmtRoom capSecs partStart) (hfits : BitmapFits capSecs partStart payload) :
    f2fsMount (formatted d capSecs partStart payload drive).disk (formatted d capSecs partStart payload drive).part payload =
      some (formatted d capSecs partStart payload drive) := by
  unfold formatted
  rw [fmtVol_disk, fmtVol_part]
  exact h.ok.mount h.placed (fmtVer_odd _ _) hfits.short

theorem FmtRoom.format (h : FmtRoom capSecs partStart) (hfits : BitmapFits capSecs partStart payload) :
    f2fsFormat d capSecs partStart payload drive = some (formatted d capSecs partStart payload drive) := by
  rw [f2fsFormat_of_room h]
  unfold formatted
  exact h.ok.mount h.placed (fmtVer_odd _ _) hfits.short

theorem f2fsFormat_fits (h : f2fsFormat d capSecs partStart payload drive = some v) : BitmapFits capSecs partStart payload := by
  have hroom := f2fsFormat_room h
  have hnat0 := hroom.placed.nat0
  have hssa0 := hroom.placed.ssa0
  have hmain0 := hroom.placed.main0
  have hfits := hroom.placed.fits
  have hsmall := hroom.placed.small
  rw [f2fsFormat_of_room hroom] at h
  obtain ⟨u, hload, -⟩ := Option.bind_eq_some_iff.mp h
  rw [hroom.ok.load hroom.placed (fmtVer_odd _ _)] at hload
  by_cases hbad : payload = 0 ∧ 3903 < BitVec.ofNat 32 ((fmtSizes (fmtTotal capSecs partStart)).sitSegs / 2 * 64 / 8)
  · rw [if_pos hbad] at hload
    cases hload
  · rcases not_and_or.mp hbad with hne | hle
    · exact Or.inl hne
    · rw [BitVec.not_lt, BitVec.le_def, toNat_blk (by omega)] at hle
      exact Or.inr hle

theorem room_small : FmtRoom 20000 0 := ⟨by decide, by decide, by decide⟩

/-- Wherever a run from formatting on leads, the table and the logs are in order. A request for a block is one to the append
logs there, and it is right just where the next segment of its log is nobody's. -/
theorem formatted_requests {ops : List Deed} (h : f2fsFormat d capSecs partStart payload drive = some v)
    (hrun : Run DeedStep v ops w) :
    Tracked w ∧ ∀ (l : Log) (nid : U32) (ofs : U16) (isNode : Bool),
      (Right w.geo.bps.toNat w.geo.mainSegs.toNat (logsOf w) l ↔ Meets w.geo.bps.toNat w.geo.mainSegs.toNat (logsOf w) l) ∧
      (Meets w.geo.bps.toNat w.geo.mainSegs.toNat (logsOf w) l →
        (f2AllocBlock w l.type nid ofs isNode).1 =
            addrOf w.geo (alloc w.geo.bps.toNat w.geo.mainSegs.toNat (logsOf w) l).1 ∧
          logsOf (f2AllocBlock w l.type nid ofs isNode).2 = (alloc w.geo.bps.toNat w.geo.mainSegs.toNat (logsOf w) l).2) := by
  obtain ⟨hroom, rfl⟩ := f2fsFormat_inv h
  have htracked : Tracked w := (hroom.ok.tracked hroom.placed).run hrun
  refine ⟨htracked, fun l nid ofs isNode => ⟨htracked.sane.right_iff htracked.laid.bps_pos, fun hm => ?_⟩⟩
  obtain ⟨haddr, -, -, hlogs⟩ := htracked.allocBlock nid ofs isNode hm
  exact ⟨haddr, hlogs⟩

def freshVol : Vol := formatted (fun _ => zeros) 20000 0 1 0x80

theorem formatted_requests_small :
    Tracked freshVol ∧ Right freshVol.geo.bps.toNat freshVol.geo.mainSegs.toNat (logsOf freshVol) .node := by
  have hformat : f2fsFormat (fun _ => zeros) 20000 0 1 0x80 = some freshVol := room_small.format (Or.inl (by decide))
  obtain ⟨htracked, hreq⟩ := formatted_requests hformat (.nil freshVol)
  refine ⟨htracked, (hreq .node 0 0 true).1.mpr (Or.inl ?_)⟩
  have hlogs : logsOf freshVol = fmtLogs _ := room_small.ok.logs room_small.placed
  rw [hlogs]
  decide

end

end Ezos.F2fs
