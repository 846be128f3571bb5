import Ezos.F2fs.SegmentTable
import Ezos.Lib.SegmentLog
import Mathlib.Data.List.Find

/-!
# The logs of a volume as append logs

The driver keeps two logs, for data and for nodes. The blocks in use are those whose bit is set in the segment table.
-/

namespace Ezos.F2fs

open Lib.Memory Lib.FaultyStore Lib.SegmentLog

set_option autoImplicit false

inductive Log
  | data
  | node
  deriving DecidableEq

def Log.type : Log → Nat
  | .data => cursegHotData
  | .node => cursegHotNode

def Vol.curSeg (v : Vol) (l : Log) : U32 := read32 v.cp (curSegAt l.type)

def Vol.curBlkoff (v : Vol) (l : Log) : U16 := read16 v.cp (curBlkoffAt l.type)

def inUse (v : Vol) (n o : Nat) : Bool :=
  decide (n < v.geo.mainSegs.toNat ∧ o < v.geo.bps.toNat) && f2ValidBit v (BitVec.ofNat 32 n) o

def logsOf (v : Vol) : State Log :=
  { used := inUse v
    seg := fun l => (v.curSeg l).toNat
    off := fun l => (v.curBlkoff l).toNat }

def blockAddr (g : Geometry) (n o : Nat) : U32 := g.mainBlkaddr + BitVec.ofNat 32 n * g.bps + BitVec.ofNat 32 o

structure Laid (g : Geometry) : Prop where
  bps_pos : 0 < g.bps.toNat
  bps_le : g.bps.toNat ≤ 512
  sit : g.sitBlkaddr.toNat + g.mainSegs.toNat / 55 < g.ssaBlkaddr.toNat
  ssa : g.ssaBlkaddr.toNat + g.mainSegs.toNat ≤ g.mainBlkaddr.toNat
  main : g.mainBlkaddr.toNat + g.mainSegs.toNat * g.bps.toNat ≤ 536870912

def Counted (v : Vol) : Prop :=
  ∀ n < v.geo.mainSegs, (f2Vblocks v n).toNat = tally v.geo.bps.toNat (inUse v) n.toNat

structure Tracked (v : Vol) : Prop where
  laid : Laid v.geo
  counted : Counted v
  sane : Sane v.geo.bps.toNat v.geo.mainSegs.toNat (logsOf v)

variable {v : Vol} {g : Geometry} {l k : Log}

theorem Laid.segs_le (h : Laid g) : g.mainSegs.toNat ≤ 536870912 :=
  Nat.le_trans (Nat.le_mul_of_pos_right _ h.bps_pos) (by have := h.main; omega)

theorem Laid.sitFits (h : Laid g) : SitFits g := by
  have hs := h.sit
  have ha := h.ssa
  have hm := h.main
  unfold SitFits
  omega

theorem toNat_seg {n : Nat} (hn : n < 4294967296) : (BitVec.ofNat 32 n).toNat = n := by
  rw [BitVec.toNat_ofNat]
  exact Nat.mod_eq_of_lt hn

theorem Laid.seg_lt (h : Laid g) {n : Nat} (hn : n < g.mainSegs.toNat) :
    (BitVec.ofNat 32 n).toNat = n ∧ BitVec.ofNat 32 n < g.mainSegs := by
  have hle := h.segs_le
  have hnat := @toNat_seg n (by omega)
  exact ⟨hnat, BitVec.lt_def.mpr (by rw [hnat]; exact hn)⟩

theorem Laid.toNat_blockAddr (h : Laid g) {n o : Nat} (hn : n < g.mainSegs.toNat) (ho : o < g.bps.toNat) :
    (blockAddr g n o).toNat = g.mainBlkaddr.toNat + n * g.bps.toNat + o := by
  have hm := h.main
  have hle := h.segs_le
  have hb := h.bps_le
  have hmul : n * g.bps.toNat + g.bps.toNat ≤ g.mainSegs.toNat * g.bps.toNat := by
    rw [← Nat.succ_mul]
    exact Nat.mul_le_mul_right _ hn
  rw [blockAddr, BitVec.toNat_add, BitVec.toNat_add, BitVec.toNat_mul, toNat_seg (by omega), toNat_seg (by omega),
    Nat.mod_eq_of_lt (by omega : n * g.bps.toNat < 2 ^ 32), Nat.mod_eq_of_lt (by omega : _ < 2 ^ 32),
    Nat.mod_eq_of_lt (by omega)]

theorem Laid.blockAddr_ne_zero (h : Laid g) {n o : Nat} (hn : n < g.mainSegs.toNat) (ho : o < g.bps.toNat) :
    blockAddr g n o ≠ 0 := fun hno => by
  have hnat := h.toNat_blockAddr hn ho
  have hs := h.sit
  have ha := h.ssa
  have hzero : (0 : U32).toNat = 0 := rfl
  rw [hno, hzero] at hnat
  omega

theorem Laid.place_blockAddr (h : Laid v.geo) {n o : Nat} (hn : n < v.geo.mainSegs.toNat) (ho : o < v.geo.bps.toNat) :
    (f2SegnoOf v (blockAddr v.geo n o)).toNat = n ∧ (f2OffInSeg v (blockAddr v.geo n o)).toNat = o := by
  have hnat := h.toNat_blockAddr hn ho
  have hsub : (blockAddr v.geo n o - v.geo.mainBlkaddr).toNat = n * v.geo.bps.toNat + o := by
    rw [BitVec.toNat_sub_of_le (BitVec.le_def.mpr (by omega)), hnat]
    omega
  have hcomm : n * v.geo.bps.toNat + o = o + v.geo.bps.toNat * n := by
    rw [Nat.mul_comm, Nat.add_comm]
  rw [f2SegnoOf, f2OffInSeg, BitVec.toNat_udiv, BitVec.toNat_umod, hsub, hcomm, Nat.add_mul_div_left _ _ h.bps_pos,
    Nat.add_mul_mod_self_left, Nat.div_eq_of_lt ho, Nat.mod_eq_of_lt ho]
  exact ⟨Nat.zero_add n, rfl⟩

theorem inUse_eq {n o : Nat} (hn : n < v.geo.mainSegs.toNat) (ho : o < v.geo.bps.toNat) :
    inUse v n o = f2ValidBit v (BitVec.ofNat 32 n) o := by
  rw [inUse, decide_eq_true ⟨hn, ho⟩, Bool.true_and]

theorem inUse_ofNat {n : U32} {o : Nat} (hn : n < v.geo.mainSegs) (ho : o < v.geo.bps.toNat) :
    inUse v n.toNat o = f2ValidBit v n o := by
  rw [inUse_eq (BitVec.lt_def.mp hn) ho, BitVec.ofNat_toNat, BitVec.setWidth_eq]

theorem type_apart (h : k ≠ l) :
    curBlkoffAt l.type + 2 ≤ curBlkoffAt k.type ∨ curBlkoffAt k.type + 2 ≤ curBlkoffAt l.type := by
  cases k <;> cases l <;> first | exact absurd rfl h | decide

theorem cursors_apart (k l : Log) :
    (curBlkoffAt l.type + 2 ≤ curSegAt k.type ∨ curSegAt k.type + 4 ≤ curBlkoffAt l.type) ∧
      (k ≠ l → curSegAt l.type + 4 ≤ curSegAt k.type ∨ curSegAt k.type + 4 ≤ curSegAt l.type) := by
  cases k <;> cases l <;> decide

section
variable {cp : Mem} {n : U32} {w : U16}

theorem curSeg_write16 : read32 (write16 cp (curBlkoffAt l.type) w) (curSegAt k.type) = read32 cp (curSegAt k.type) :=
  read32_write16_of_disjoint _ (cursors_apart k l).1

theorem curBlkoff_write16 : read16 (write16 cp (curBlkoffAt l.type) w) (curBlkoffAt k.type) =
    if k = l then w else read16 cp (curBlkoffAt k.type) := by
  by_cases h : k = l
  · rw [if_pos h, h]
    exact read16_write16_self _ _ _
  · rw [if_neg h]
    exact read16_write16_of_disjoint _ _ (type_apart h)

theorem curSeg_write32 : read32 (write32 cp (curSegAt l.type) n) (curSegAt k.type) =
    if k = l then n else read32 cp (curSegAt k.type) := by
  by_cases h : k = l
  · rw [if_pos h, h]
    exact read32_write32_self _ _ _
  · rw [if_neg h]
    exact read32_write32_of_disjoint _ _ ((cursors_apart k l).2 h)

theorem curBlkoff_write32 : read16 (write32 cp (curSegAt l.type) n) (curBlkoffAt k.type) = read16 cp (curBlkoffAt k.type) :=
  read16_write32_of_disjoint _ (cursors_apart l k).1.symm

end

theorem Tracked.vblocks_iff (h : Tracked v) {n : Nat} (hn : n < v.geo.mainSegs.toNat) :
    f2Vblocks v (BitVec.ofNat 32 n) = 0 ↔ blank v.geo.bps.toNat (inUse v) n = true := by
  obtain ⟨hnat, hlt⟩ := h.laid.seg_lt hn
  have hcount := h.counted _ hlt
  rw [hnat] at hcount
  rw [blank_iff_tally, ← hcount]
  exact ⟨fun he => by rw [he]; rfl, fun he => BitVec.eq_of_toNat_eq he⟩

theorem Tracked.nextFree_eq (h : Tracked v) (a : U32) :
    nextFree v a = (nextBlank v.geo.bps.toNat v.geo.mainSegs.toNat (inUse v) a.toNat).map (BitVec.ofNat 32) := by
  unfold nextFree nextBlank
  refine congrArg _ (List.find?_congr fun n hn => ?_)
  have hsegs : n < v.geo.mainSegs.toNat := by
    obtain ⟨hlo, hhi⟩ := List.mem_range'_1.mp hn
    omega
  exact Bool.eq_iff_iff.mpr (decide_eq_true_iff.trans (h.vblocks_iff hsegs))

def addrOf (g : Geometry) : Option (Nat × Nat) → U32
  | none => 0
  | some p => blockAddr g p.1 p.2

structure SameTable (v v' : Vol) : Prop where
  geo : v'.geo = v.geo
  part : v'.part = v.part
  bits : ∀ n < v.geo.mainSegs, ∀ o < 512, f2ValidBit v' n o = f2ValidBit v n o
  counts : ∀ n < v.geo.mainSegs, f2Vblocks v' n = f2Vblocks v n

theorem SameTable.refl (v : Vol) : SameTable v v := ⟨rfl, rfl, fun _ _ _ _ => rfl, fun _ _ => rfl⟩

theorem SameTable.trans {v v' v'' : Vol} (h : SameTable v v') (h' : SameTable v' v'') : SameTable v v'' where
  geo := h'.geo.trans h.geo
  part := h'.part.trans h.part
  bits := fun n hn o ho => (h'.bits n (h.geo ▸ hn) o ho).trans (h.bits n hn o ho)
  counts := fun n hn => (h'.counts n (h.geo ▸ hn)).trans (h.counts n hn)

theorem SameTable.inUse {v' : Vol} (h : SameTable v v') (hl : Laid v.geo) : inUse v' = inUse v := by
  funext n o
  unfold F2fs.inUse
  rw [h.geo]
  by_cases hno : n < v.geo.mainSegs.toNat ∧ o < v.geo.bps.toNat
  · rw [h.bits _ (hl.seg_lt hno.1).2 o (Nat.lt_of_lt_of_le hno.2 hl.bps_le)]
  · rw [decide_eq_false hno, Bool.false_and, Bool.false_and]

theorem sameTable_retype (h : SitFits v.geo) {n : U32} (hn : n < v.geo.mainSegs) (type : Nat) : SameTable v (sitRetype v n type) :=
  ⟨rfl, rfl, fun _ hm _ ho => f2ValidBit_retype h hn hm type ho, fun _ hm => f2Vblocks_retype h hn hm type⟩

theorem sameTable_of_disk {v' : Vol} (hgeo : v'.geo = v.geo) (hpart : v'.part = v.part) (hdisk : v'.disk = v.disk) :
    SameTable v v' := by
  refine ⟨hgeo, hpart, fun n _ o _ => ?_, fun n _ => ?_⟩
  · unfold f2ValidBit sitBlock
    rw [hgeo, hpart, hdisk]
  · unfold f2Vblocks sitBlock
    rw [hgeo, hpart, hdisk]

theorem cursegStep_fst {segno : U32} {blkoff : U16} :
    (cursegStep v l.type segno blkoff).1 = blockAddr v.geo segno.toNat blkoff.toNat := by
  rw [blockAddr, BitVec.ofNat_toNat, BitVec.setWidth_eq, BitVec.ofNat_toNat]
  rfl

theorem Laid.blkoff_succ (h : Laid g) {w : U16} (hw : w.toNat < g.bps.toNat) : (w + 1).toNat = w.toNat + 1 := by
  have hb := h.bps_le
  have hone : (1 : U16).toNat = 1 := rfl
  rw [BitVec.toNat_add, hone]
  omega

theorem logsOf_step {blkoff : U16} (h : Laid v.geo) (hoff : v.curBlkoff l = blkoff) (hlt : blkoff.toNat < v.geo.bps.toNat)
    (segno : U32) : logsOf (cursegStep v l.type segno blkoff).2 = { append (logsOf v) l with used := inUse v } := by
  have hsame : SameTable v (cursegStep v l.type segno blkoff).2 := sameTable_of_disk rfl rfl rfl
  refine State.ext (hsame.inUse h) ?_ ?_
  · funext k
    exact congrArg BitVec.toNat curSeg_write16
  · funext k
    refine (congrArg BitVec.toNat curBlkoff_write16).trans ?_
    change _ = Function.update (logsOf v).off l ((logsOf v).off l + 1) k
    by_cases hk : k = l
    · rw [if_pos hk, hk, Function.update_self, h.blkoff_succ hlt, ← hoff]
      rfl
    · rw [if_neg hk, Function.update_of_ne hk]
      rfl

theorem sameTable_cursegRetype (h : SitFits v.geo) (segno : U32) {n : U32} (hn : n < v.geo.mainSegs) (type : Nat) :
    SameTable v (cursegRetype v type segno n) ∧ (cursegRetype v type segno n).cp = v.cp := by
  unfold cursegRetype
  by_cases hc : segno ≠ 0xFFFFFFFF ∧ segno < v.geo.mainSegs
  · rw [if_pos hc]
    have hfirst := sameTable_retype h hc.2 0
    have hsecond : SameTable (sitRetype v segno 0) (sitRetype (sitRetype v segno 0) n type) :=
      sameTable_retype (v := sitRetype v segno 0) h hn type
    exact ⟨hfirst.trans hsecond, rfl⟩
  · rw [if_neg hc]
    exact ⟨sameTable_retype h hn type, rfl⟩

theorem logsOf_move (h : Laid v.geo) (segno : U32) {n : Nat} (hn : n < v.geo.mainSegs.toNat) :
    SameTable v (cursegMove v l.type segno (BitVec.ofNat 32 n)) ∧
      logsOf (cursegMove v l.type segno (BitVec.ofNat 32 n)) =
        { logsOf v with seg := Function.update (logsOf v).seg l n, off := Function.update (logsOf v).off l 0 } := by
  obtain ⟨hnat, hlt⟩ := h.seg_lt hn
  obtain ⟨hre, hcp⟩ := sameTable_cursegRetype h.sitFits segno hlt l.type
  have hsame : SameTable v (cursegMove v l.type segno (BitVec.ofNat 32 n)) := hre.trans (sameTable_of_disk rfl rfl rfl)
  have hcp' : (cursegMove v l.type segno (BitVec.ofNat 32 n)).cp =
      write16 (write32 v.cp (curSegAt l.type) (BitVec.ofNat 32 n)) (curBlkoffAt l.type) 0 := by
    rw [← hcp]
    rfl
  refine ⟨hsame, State.ext (hsame.inUse h) ?_ ?_⟩
  · funext k
    change (read32 (cursegMove v l.type segno (BitVec.ofNat 32 n)).cp (curSegAt k.type)).toNat =
      Function.update (logsOf v).seg l n k
    rw [hcp', curSeg_write16, curSeg_write32]
    by_cases hk : k = l
    · rw [if_pos hk, hk, Function.update_self, hnat]
    · rw [if_neg hk, Function.update_of_ne hk]
      rfl
  · funext k
    change (read16 (cursegMove v l.type segno (BitVec.ofNat 32 n)).cp (curBlkoffAt k.type)).toNat =
      Function.update (logsOf v).off l 0 k
    rw [hcp', curBlkoff_write16, curBlkoff_write32]
    by_cases hk : k = l
    · rw [if_pos hk, hk, Function.update_self]
      rfl
    · rw [if_neg hk, Function.update_of_ne hk]
      rfl

section
variable (h : Tracked v)
include h

theorem Tracked.curSeg_ne (l : Log) : v.curSeg l ≠ 0xFFFFFFFF := fun hno => by
  have hlt := h.sane.seg_lt l
  have hle := h.laid.segs_le
  change (v.curSeg l).toNat < _ at hlt
  have hmax : (0xFFFFFFFF : U32).toNat = 4294967295 := rfl
  rw [hno, hmax] at hlt
  omega

theorem Tracked.curSeg_succ (l : Log) : (v.curSeg l + 1).toNat = (logsOf v).seg l + 1 := by
  have hlt := h.sane.seg_lt l
  have hle := h.laid.segs_le
  change (v.curSeg l).toNat < _ at hlt
  have hone : (1 : U32).toNat = 1 := rfl
  rw [BitVec.toNat_add, hone]
  change ((v.curSeg l).toNat + 1) % _ = (v.curSeg l).toNat + 1
  omega

theorem Tracked.get_room (hroom : (logsOf v).off l < v.geo.bps.toNat) :
    f2CursegGet v l.type = cursegStep v l.type (v.curSeg l) (v.curBlkoff l) := by
  refine if_neg (not_or.mpr ⟨h.curSeg_ne l, ?_⟩)
  rw [BitVec.le_def, BitVec.toNat_setWidth_of_le (by decide)]
  exact Nat.not_le.mpr hroom

theorem Tracked.get_full (hfull : v.geo.bps.toNat ≤ (logsOf v).off l) :
    f2CursegGet v l.type = ((nextBlank v.geo.bps.toNat v.geo.mainSegs.toNat (inUse v) ((logsOf v).seg l + 1)).map fun n =>
      cursegStep (cursegMove v l.type (v.curSeg l) (BitVec.ofNat 32 n)) l.type (BitVec.ofNat 32 n) 0).getD (0, v) := by
  have hge : v.geo.bps ≤ (read16 v.cp (curBlkoffAt l.type)).setWidth 32 := by
    rw [BitVec.le_def, BitVec.toNat_setWidth_of_le (by decide)]
    exact hfull
  have hne : read32 v.cp (curSegAt l.type) ≠ 0xFFFFFFFF := h.curSeg_ne l
  have hnext := h.nextFree_eq (v.curSeg l + 1)
  rw [h.curSeg_succ, Vol.curSeg] at hnext
  unfold f2CursegGet
  dsimp only
  rw [if_pos (Or.inr hge), if_neg hne, hnext]
  cases nextBlank v.geo.bps.toNat v.geo.mainSegs.toNat (inUse v) ((logsOf v).seg l + 1) with
  | none => rfl
  | some n => rfl

theorem Tracked.get_eq (l : Log) :
    (f2CursegGet v l.type).1 = addrOf v.geo (alloc v.geo.bps.toNat v.geo.mainSegs.toNat (logsOf v) l).1 ∧
      SameTable v (f2CursegGet v l.type).2 ∧
      logsOf (f2CursegGet v l.type).2 = { (alloc v.geo.bps.toNat v.geo.mainSegs.toNat (logsOf v) l).2 with used := inUse v } := by
  rcases @alloc_cases _ _ v.geo.bps.toNat v.geo.mainSegs.toNat (logsOf v) l with ⟨hroom, heq⟩ | ⟨hfull, n, hnext, heq⟩ | ⟨hfull, hnext, heq⟩
  · rw [h.get_room hroom, heq]
    exact ⟨cursegStep_fst, sameTable_of_disk rfl rfl rfl, logsOf_step h.laid rfl hroom _⟩
  · have hget := h.get_full hfull
    obtain ⟨_, _, hn⟩ := nextBlank_some hnext
    change nextBlank _ _ (inUse v) _ = _ at hnext
    rw [hnext, Option.map_some, Option.getD_some] at hget
    obtain ⟨hsame, hlogs⟩ := @logsOf_move v l h.laid (v.curSeg l) n hn
    have hlaid : Laid (cursegMove v l.type (v.curSeg l) (BitVec.ofNat 32 n)).geo := by
      rw [hsame.geo]
      exact h.laid
    have hoff : (cursegMove v l.type (v.curSeg l) (BitVec.ofNat 32 n)).curBlkoff l = 0 :=
      curBlkoff_write16.trans (if_pos rfl)
    have hstep := logsOf_step (l := l) hlaid hoff hlaid.bps_pos (BitVec.ofNat 32 n)
    rw [hlogs, hsame.inUse h.laid] at hstep
    rw [hget, heq]
    refine ⟨?_, hsame.trans (sameTable_of_disk rfl rfl rfl), hstep⟩
    refine cursegStep_fst.trans ?_
    rw [hsame.geo, (h.laid.seg_lt hn).1]
    rfl
  · have hget := h.get_full hfull
    change nextBlank _ _ (inUse v) _ = _ at hnext
    rw [hnext, Option.map_none, Option.getD_none] at hget
    rw [hget, heq]
    exact ⟨rfl, .refl v, rfl⟩

end

end Ezos.F2fs
