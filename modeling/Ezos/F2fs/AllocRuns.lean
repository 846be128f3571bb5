import Ezos.F2fs.Logs
import Ezos.Lib.Run

/-!
# Runs of the allocator

Every operation on files is a sequence of requests for blocks, of blocks given back, and of work elsewhere. The table and the
logs stay in order as long as each request goes well and each block given back is one in use.
-/

namespace Ezos.F2fs

open Lib Lib.Memory Lib.FaultyStore Lib.SegmentLog

set_option autoImplicit false

variable {v v' : Vol} {l : Log}

theorem SitUpdated.used {n : U32} {off : Nat} {set : Bool} (hu : SitUpdated v v' n off set) (hl : Laid v.geo)
    (hn : n < v.geo.mainSegs) (hoff : off < v.geo.bps.toNat) :
    inUse v' = (use (logsOf v) n.toNat off set).used := by
  funext m o
  rw [used_use]
  unfold inUse
  rw [hu.geo]
  by_cases hmo : m < v.geo.mainSegs.toNat ∧ o < v.geo.bps.toNat
  · obtain ⟨hnat, hlt⟩ := hl.seg_lt hmo.1
    have hiff : BitVec.ofNat 32 m = n ↔ m = n.toNat :=
      ⟨fun he => by rw [← he, hnat], fun he => BitVec.eq_of_toNat_eq (by rw [hnat, he])⟩
    rw [hu.bits _ hlt o (Nat.lt_of_lt_of_le hmo.2 hl.bps_le), decide_eq_true hmo, Bool.true_and]
    by_cases hthis : m = n.toNat ∧ o = off
    · rw [if_pos hthis, if_pos ⟨hiff.mpr hthis.1, hthis.2⟩]
    · rw [if_neg hthis, if_neg fun hno => hthis ⟨hiff.mp hno.1, hno.2⟩]
      exact (inUse_eq hmo.1 hmo.2).symm
  · rw [decide_eq_false hmo, Bool.false_and, if_neg]
    · change false = inUse v m o
      rw [inUse, decide_eq_false hmo, Bool.false_and]
    · rintro ⟨rfl, rfl⟩
      exact hmo ⟨BitVec.lt_def.mp hn, hoff⟩

theorem SitUpdated.logs {n : U32} {off : Nat} {set : Bool} (hu : SitUpdated v v' n off set) (hl : Laid v.geo)
    (hn : n < v.geo.mainSegs) (hoff : off < v.geo.bps.toNat) : logsOf v' = use (logsOf v) n.toNat off set := by
  refine State.ext (hu.used hl hn hoff) ?_ ?_
  · funext k
    change (read32 v'.cp _).toNat = _
    rw [hu.cp]
    rfl
  · funext k
    change (read16 v'.cp _).toNat = _
    rw [hu.cp]
    rfl

theorem toNat_countEdit {c : U16} {set : Bool} (hle : c.toNat ≤ 512) (hpos : set = false → 0 < c.toNat) :
    (countEdit c set).toNat + (!set).toNat = c.toNat + set.toNat := by
  have hone : (1 : U16).toNat = 1 := rfl
  unfold countEdit
  cases set with
  | true =>
    rw [if_pos rfl, BitVec.toNat_add, hone]
    change _ + 0 = _ + 1
    omega
  | false =>
    have hlt := hpos rfl
    have hne : c ≠ 0 := fun hno => by
      rw [hno] at hlt
      exact absurd hlt (Nat.lt_irrefl 0)
    rw [if_neg Bool.false_ne_true, if_pos hne, BitVec.toNat_sub_of_le (BitVec.le_def.mpr (by rw [hone]; exact hlt)), hone]
    change _ + 1 = _ + 0
    omega

theorem SitUpdated.counted {n : U32} {off : Nat} {set : Bool} (hu : SitUpdated v v' n off set) (hl : Laid v.geo)
    (hc : Counted v) (hn : n < v.geo.mainSegs) (hoff : off < v.geo.bps.toNat) (hbit : inUse v n.toNat off = !set) : Counted v' := by
  intro m hm
  rw [hu.geo] at hm ⊢
  rw [hu.used hl hn hoff]
  by_cases hmn : m = n
  · subst hmn
    have htally : tally v.geo.bps.toNat (use (logsOf v) m.toNat off set).used m.toNat + (!set).toNat =
        tally v.geo.bps.toNat (inUse v) m.toNat + set.toNat := hbit ▸ tally_use (logsOf v) m.toNat set hoff
    have hle : tally v.geo.bps.toNat (inUse v) m.toNat ≤ 512 := Nat.le_trans (tally_le _) hl.bps_le
    rw [← hc m hm] at htally hle
    have hpos : set = false → 0 < (f2Vblocks v m).toNat := fun hset => by
      rw [hset] at htally
      change _ + 1 = _ + 0 at htally
      omega
    have hedit := toNat_countEdit hle hpos
    have hone : set.toNat ≤ 1 := Bool.toNat_le set
    rw [hu.count (by omega)]
    omega
  · rw [hu.others m hm hmn, hc m hm]
    exact (tally_use_other (logsOf v) off set fun he => hmn (BitVec.eq_of_toNat_eq he)).symm

theorem SameTable.counted (hs : SameTable v v') (hl : Laid v.geo) (h : Counted v) : Counted v' := by
  intro n hn
  rw [hs.geo] at hn ⊢
  rw [hs.counts n hn, hs.inUse hl]
  exact h n hn

/-! ## Requests -/

theorem Laid.ssa_block (h : Laid v.geo) {n : U32} (hn : n < v.geo.mainSegs) :
    (v.geo.ssaBlkaddr + n).toNat = v.geo.ssaBlkaddr.toNat + n.toNat ∧ (v.geo.ssaBlkaddr + n).toNat < 536870912 := by
  have hlt := BitVec.lt_def.mp hn
  have hs := h.ssa
  have hm := h.main
  have hnat : (v.geo.ssaBlkaddr + n).toNat = v.geo.ssaBlkaddr.toNat + n.toNat := by
    rw [BitVec.toNat_add]
    omega
  exact ⟨hnat, by rw [hnat]; omega⟩

theorem sameTable_write {blk : U32} {buf : Mem} (h : Laid v.geo) (hblk : blk.toNat < 536870912)
    (hout : ∀ n < v.geo.mainSegs, sitBlock v n ≠ blk) : SameTable v (f2WriteBlock v blk buf) := by
  have hread : ∀ n < v.geo.mainSegs, f2ReadBlock (put (blockWrites v.part blk buf) v.disk) v.part (sitBlock v n) =
      f2ReadBlock v.disk v.part (sitBlock v n) :=
    fun n hn => f2ReadBlock_put_other hblk (sitBlock_lt h.sitFits hn) (hout n hn)
  refine ⟨rfl, rfl, fun n hn o _ => ?_, fun n hn => ?_⟩
  · change f2TestBitBe o (fun i => f2ReadBlock (put (blockWrites v.part blk buf) v.disk) v.part (sitBlock v n) _) = _
    rw [hread n hn]
    rfl
  · change read16 (f2ReadBlock (put (blockWrites v.part blk buf) v.disk) v.part (sitBlock v n)) _ &&& _ = _
    rw [hread n hn]
    rfl

theorem sameTable_ssa (h : Laid v.geo) {n off nid : U32} {ofs : U16} {isNode : Bool} (hn : n < v.geo.mainSegs) :
    SameTable v (f2SsaUpdate v n off nid ofs isNode) ∧ (f2SsaUpdate v n off nid ofs isNode).cp = v.cp := by
  obtain ⟨hnat, hlt⟩ := h.ssa_block hn
  refine ⟨sameTable_write h hlt fun m hm hno => ?_, rfl⟩
  have hsit := toNat_sitBlock h.sitFits hm
  have hs := h.sit
  have hle : m.toNat / 55 ≤ v.geo.mainSegs.toNat / 55 := Nat.div_le_div_right (Nat.le_of_lt (BitVec.lt_def.mp hm))
  rw [hno, hnat] at hsit
  omega

theorem logsOf_congr (hs : SameTable v v') (hl : Laid v.geo) (hcp : v'.cp = v.cp) : logsOf v' = logsOf v := by
  refine State.ext (hs.inUse hl) ?_ ?_
  · funext k
    change (read32 v'.cp _).toNat = _
    rw [hcp]
    rfl
  · funext k
    change (read16 v'.cp _).toNat = _
    rw [hcp]
    rfl

theorem Tracked.allocBlock (h : Tracked v) (nid : U32) (ofs : U16) (isNode : Bool)
    (hm : Meets v.geo.bps.toNat v.geo.mainSegs.toNat (logsOf v) l) :
    (f2AllocBlock v l.type nid ofs isNode).1 = addrOf v.geo (alloc v.geo.bps.toNat v.geo.mainSegs.toNat (logsOf v) l).1 ∧
      (f2AllocBlock v l.type nid ofs isNode).2.geo = v.geo ∧ Tracked (f2AllocBlock v l.type nid ofs isNode).2 ∧
      logsOf (f2AllocBlock v l.type nid ofs isNode).2 =
        (alloc v.geo.bps.toNat v.geo.mainSegs.toNat (logsOf v) l).2 := by
  obtain ⟨hfst, hsame, hlogs⟩ := h.get_eq l
  have hright := (h.sane.right_iff h.laid.bps_pos).mpr hm
  have hsane := h.sane.alloc hm
  unfold f2AllocBlock
  generalize f2CursegGet v l.type = r at hfst hsame hlogs
  obtain ⟨blk, u⟩ := r
  dsimp only at hfst hsame hlogs ⊢
  have hlu : Laid u.geo := by
    rw [hsame.geo]
    exact h.laid
  cases hres : (alloc v.geo.bps.toNat v.geo.mainSegs.toNat (logsOf v) l).1 with
  | none =>
    rw [hres] at hfst
    rw [alloc_fail hres] at hlogs hsane ⊢
    have hzero : blk = 0 := hfst
    rw [if_pos hzero]
    have hlogs' : logsOf u = logsOf v := hlogs
    refine ⟨rfl, hsame.geo, ⟨hlu, hsame.counted h.laid h.counted, ?_⟩, hlogs'⟩
    rw [hlogs', hsame.geo]
    exact hsane
  | some p =>
    obtain ⟨hseg, hoff, huse⟩ := h.sane.alloc_use h.laid.bps_pos hres
    have hclear := hright.clear p hres
    rw [hres] at hfst
    have hblk : blk ≠ 0 := by
      rw [hfst]
      exact h.laid.blockAddr_ne_zero hseg hoff
    rw [if_neg hblk]
    have hplace := hlu.place_blockAddr (by rw [hsame.geo]; exact hseg : p.1 < u.geo.mainSegs.toNat)
      (by rw [hsame.geo]; exact hoff : p.2 < u.geo.bps.toNat)
    have haddr : blk = blockAddr u.geo p.1 p.2 := by
      rw [hsame.geo]
      exact hfst
    rw [← haddr] at hplace
    have hn : f2SegnoOf u blk < u.geo.mainSegs := BitVec.lt_def.mpr (by rw [hplace.1, hsame.geo]; exact hseg)
    have hoff' : (f2OffInSeg u blk).toNat < u.geo.bps.toNat := by
      rw [hplace.2, hsame.geo]
      exact hoff
    obtain ⟨w, hw, hu⟩ := f2SitUpdate_spec hlu.sitFits hn (Nat.lt_of_lt_of_le hoff' hlu.bps_le) true
    rw [hw]
    dsimp only
    have hlw : Laid w.geo := by
      rw [hu.geo]
      exact hlu
    have hplaces : f2SegnoOf w blk = f2SegnoOf u blk := by
      rw [f2SegnoOf, hu.geo]
      rfl
    have hnw : f2SegnoOf w blk < w.geo.mainSegs := by
      rw [hplaces, hu.geo]
      exact hn
    obtain ⟨hssa, hcp⟩ := @sameTable_ssa w hlw (f2SegnoOf w blk) (f2OffInSeg w blk) nid ofs isNode hnw
    have hbit : inUse u (f2SegnoOf u blk).toNat (f2OffInSeg u blk).toNat = !true := by
      rw [hplace.1, hplace.2, hsame.inUse h.laid]
      exact hclear
    have hcount : Counted w := hu.counted hlu (hsame.counted h.laid h.counted) hn hoff' hbit
    have hlogs' : logsOf (f2SsaUpdate w (f2SegnoOf w blk) (f2OffInSeg w blk) nid ofs isNode) =
        (alloc v.geo.bps.toNat v.geo.mainSegs.toNat (logsOf v) l).2 := by
      rw [logsOf_congr hssa hlw hcp, hu.logs hlu hn hoff', hplace.1, hplace.2, hlogs, huse]
      rfl
    refine ⟨hfst, hssa.geo.trans (hu.geo.trans hsame.geo), ⟨hssa.geo ▸ hlw, hssa.counted hlw hcount, ?_⟩, hlogs'⟩
    rw [hlogs', hssa.geo, hu.geo, hsame.geo]
    exact hsane

def FreesUsed (v : Vol) (blkaddr : U32) : Prop :=
  v.geo.mainBlkaddr ≤ blkaddr → f2SegnoOf v blkaddr < v.geo.mainSegs →
    f2ValidBit v (f2SegnoOf v blkaddr) (f2OffInSeg v blkaddr).toNat = true

theorem f2OffInSeg_lt (h : Laid v.geo) (blkaddr : U32) : (f2OffInSeg v blkaddr).toNat < v.geo.bps.toNat := by
  rw [f2OffInSeg, BitVec.toNat_umod]
  exact Nat.mod_lt _ h.bps_pos

theorem Tracked.freeBlock (h : Tracked v) {blkaddr : U32} (hused : FreesUsed v blkaddr) :
    (f2FreeBlock v blkaddr).geo = v.geo ∧ Tracked (f2FreeBlock v blkaddr) ∧
      (logsOf (f2FreeBlock v blkaddr) = logsOf v ∨
        logsOf (f2FreeBlock v blkaddr) = use (logsOf v) (f2SegnoOf v blkaddr).toNat (f2OffInSeg v blkaddr).toNat false) := by
  unfold f2FreeBlock
  by_cases hlow : blkaddr = 0 ∨ blkaddr < v.geo.mainBlkaddr
  · rw [if_pos hlow]
    exact ⟨rfl, h, Or.inl rfl⟩
  · rw [if_neg hlow]
    by_cases hseg : f2SegnoOf v blkaddr < v.geo.mainSegs
    · rw [if_pos hseg]
      have hoff := f2OffInSeg_lt h.laid blkaddr
      obtain ⟨w, hw, hu⟩ := f2SitUpdate_spec h.laid.sitFits hseg (Nat.lt_of_lt_of_le hoff h.laid.bps_le) false
      rw [hw, Option.getD_some]
      have hbit : inUse v (f2SegnoOf v blkaddr).toNat (f2OffInSeg v blkaddr).toNat = !false := by
        rw [inUse_ofNat hseg hoff]
        exact hused (BitVec.not_lt.mp (not_or.mp hlow).2) hseg
      have hlogs := hu.logs h.laid hseg hoff
      refine ⟨hu.geo, ⟨hu.geo ▸ h.laid, hu.counted h.laid h.counted hseg hoff hbit, ?_⟩, Or.inr hlogs⟩
      rw [hlogs, hu.geo]
      exact h.sane.release _ _
    · rw [if_neg hseg]
      exact ⟨rfl, h, Or.inl rfl⟩

structure Elsewhere (v v' : Vol) : Prop where
  table : SameTable v v'
  segs : ∀ l, v'.curSeg l = v.curSeg l
  offs : ∀ l, v'.curBlkoff l = v.curBlkoff l

theorem Elsewhere.logsOf (he : Elsewhere v v') (hl : Laid v.geo) : logsOf v' = logsOf v := by
  refine State.ext (he.table.inUse hl) ?_ ?_
  · funext k
    exact congrArg BitVec.toNat (he.segs k)
  · funext k
    exact congrArg BitVec.toNat (he.offs k)

theorem Tracked.elsewhere (h : Tracked v) (he : Elsewhere v v') : Tracked v' := by
  refine ⟨he.table.geo ▸ h.laid, he.table.counted h.laid h.counted, ?_⟩
  rw [he.logsOf h.laid, he.table.geo]
  exact h.sane

theorem elsewhere_write {blk : U32} {buf : Mem} (h : Laid v.geo) (hblk : blk.toNat < 536870912)
    (hout : ∀ n < v.geo.mainSegs, sitBlock v n ≠ blk) : Elsewhere v (f2WriteBlock v blk buf) :=
  ⟨sameTable_write h hblk hout, fun _ => rfl, fun _ => rfl⟩

theorem elsewhere_main {n o : Nat} {buf : Mem} (h : Laid v.geo) (hn : n < v.geo.mainSegs.toNat) (ho : o < v.geo.bps.toNat) :
    Elsewhere v (f2WriteBlock v (blockAddr v.geo n o) buf) := by
  have hnat := h.toNat_blockAddr hn ho
  have hmul : n * v.geo.bps.toNat + v.geo.bps.toNat ≤ v.geo.mainSegs.toNat * v.geo.bps.toNat := by
    rw [← Nat.succ_mul]
    exact Nat.mul_le_mul_right _ hn
  have hm := h.main
  refine elsewhere_write h (by omega) fun m hm hno => ?_
  have hsit := toNat_sitBlock h.sitFits hm
  have hs := h.sit
  have ha := h.ssa
  have hle : m.toNat / 55 ≤ v.geo.mainSegs.toNat / 55 := Nat.div_le_div_right (Nat.le_of_lt (BitVec.lt_def.mp hm))
  rw [hno, hnat] at hsit
  omega

inductive Deed
  | alloc (l : Log) (nid : U32) (ofs : U16) (isNode : Bool)
  | free (blkaddr : U32)
  | elsewhere

inductive DeedStep : Vol → Deed → Vol → Prop
  | alloc {v : Vol} {l : Log} {nid : U32} {ofs : U16} {isNode : Bool} :
      Meets v.geo.bps.toNat v.geo.mainSegs.toNat (logsOf v) l →
      DeedStep v (.alloc l nid ofs isNode) (f2AllocBlock v l.type nid ofs isNode).2
  | free {v : Vol} {blkaddr : U32} : FreesUsed v blkaddr → DeedStep v (.free blkaddr) (f2FreeBlock v blkaddr)
  | elsewhere {v v' : Vol} : Elsewhere v v' → DeedStep v .elsewhere v'

theorem Tracked.step {op : Deed} (h : Tracked v) (hstep : DeedStep v op v') : Tracked v' := by
  cases hstep with
  | alloc hm => exact (h.allocBlock _ _ _ hm).2.2.1
  | free hused => exact (h.freeBlock hused).2.1
  | elsewhere he => exact h.elsewhere he

theorem Tracked.run {ops : List Deed} (h : Tracked v) (hrun : Run DeedStep v ops v') : Tracked v' :=
  Run.invariant (I := Tracked) Tracked.step hrun h

end Ezos.F2fs
