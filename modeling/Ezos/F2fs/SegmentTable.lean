import Ezos.F2fs.Alloc
import Ezos.F2fs.Packs

/-!
# Entries of the segment table

A write of the table changes the entry of one segment: its count, or a bit of its map.
-/

namespace Ezos.F2fs

open Lib.Memory Lib.FaultyStore

set_option autoImplicit false

theorem getLsbD_one_shift (k i : Nat) (hk : k < 8) : ((1 : Byte) <<< k).getLsbD i = decide (i = k) := by
  rw [BitVec.getLsbD_shiftLeft]
  by_cases hlt : i < 8
  · rcases Nat.lt_or_ge i k with h | h
    · simp [h, Nat.ne_of_lt h]
    · have hbit : ((1 : Byte).getLsbD (i - k)) = decide (i - k = 0) := by
        cases hsub : i - k with
        | zero => rfl
        | succ n => simp [BitVec.getLsbD_one]
      rw [hbit]
      by_cases he : i = k
      · simp [he, hk]
      · have hne : i - k ≠ 0 := by omega
        simp [he, hne]
  · have hne : i ≠ k := by omega
    simp [hlt, hne]

theorem f2SetBitBe_of_ne {nr p x : Nat} {m : Mem} (h : x ≠ p + nr / 8) : f2SetBitBe nr m p x = m x := if_neg h

theorem f2ClearBitBe_of_ne {nr p x : Nat} {m : Mem} (h : x ≠ p + nr / 8) : f2ClearBitBe nr m p x = m x := if_neg h

theorem place_inj {nr o : Nat} (hbyte : o / 8 = nr / 8) (hbit : 7 - o % 8 = 7 - nr % 8) : o = nr := by omega

theorem f2TestBitBe_set (nr o p : Nat) (m : Mem) :
    f2TestBitBe o (fun i => f2SetBitBe nr m p (p + i)) = (decide (o = nr) || f2TestBitBe o fun i => m (p + i)) := by
  unfold f2TestBitBe f2SetBitBe
  dsimp only
  by_cases hbyte : o / 8 = nr / 8
  · rw [if_pos (by rw [hbyte]), BitVec.getLsbD_or, getLsbD_one_shift _ _ (by omega), Bool.or_comm]
    refine congrArg (· || _) (decide_eq_decide.mpr ⟨place_inj hbyte, fun h => by rw [h]⟩)
  · have hne : o ≠ nr := fun h => hbyte (by rw [h])
    rw [if_neg (by omega), decide_eq_false hne, Bool.false_or]

theorem f2TestBitBe_clear (nr o p : Nat) (m : Mem) :
    f2TestBitBe o (fun i => f2ClearBitBe nr m p (p + i)) = (!decide (o = nr) && f2TestBitBe o fun i => m (p + i)) := by
  unfold f2TestBitBe f2ClearBitBe
  dsimp only
  by_cases hbyte : o / 8 = nr / 8
  · rw [if_pos (by rw [hbyte]), BitVec.getLsbD_and, BitVec.getLsbD_not, getLsbD_one_shift _ _ (by omega), Bool.and_comm]
    have hlt : 7 - o % 8 < 8 := by omega
    rw [decide_eq_true hlt, Bool.true_and]
    refine congrArg (fun b => !b && _) (decide_eq_decide.mpr ⟨place_inj hbyte, fun h => by rw [h]⟩)
  · have hne : o ≠ nr := fun h => hbyte (by rw [h])
    rw [if_neg (by omega), decide_eq_false hne, Bool.not_false, Bool.true_and]

variable {v : Vol} {d : Device} {part blk blk' : U32} {buf : Mem}

theorem f2ReadBlock_put_same (hblk : blk.toNat < 536870912) {x : Nat} (hx : x < 4096) :
    f2ReadBlock (put (blockWrites part blk buf) d) part blk x = buf x := by
  unfold f2ReadBlock
  rw [if_pos hx]
  have hw : (sectorOf part blk (x / 512), fun y => buf (x / 512 * 512 + y)) ∈ blockWrites part blk buf :=
    List.mem_map.mpr ⟨x / 512, List.mem_range.mpr (by omega), rfl⟩
  rw [put_of_mem_same hw fun w hmem haddr => ?_]
  · exact congrArg buf (Nat.div_add_mod' x 512)
  · obtain ⟨i, hi, rfl⟩ := mem_blockWrites.mp hmem
    dsimp only at haddr ⊢
    rw [(sectorOf_inj hblk hblk hi (by omega) haddr).2]

theorem f2ReadBlock_put_other (hblk : blk.toNat < 536870912) (hblk' : blk'.toNat < 536870912) (hne : blk' ≠ blk) :
    f2ReadBlock (put (blockWrites part blk buf) d) part blk' = f2ReadBlock d part blk' := by
  have htargets : Targets part (fun b => b = blk) (blockWrites part blk buf) := fun w hw => by
    obtain ⟨i, hi, rfl⟩ := mem_blockWrites.mp hw
    exact ⟨blk, i, rfl, hi, rfl⟩
  exact htargets.readBlock (fun b hb => hb ▸ hblk) hblk' hne

def sitByte (v : Vol) (segno : U32) (i : Nat) : Byte := f2ReadBlock v.disk v.part (sitBlock v segno) (sitEntry segno + i)

theorem f2Vblocks_eq (v : Vol) (segno : U32) : f2Vblocks v segno = (sitByte v segno 1 ++ sitByte v segno 0) &&& sitVblocksMask := rfl

theorem f2ValidBit_eq (v : Vol) (segno : U32) (off : Nat) :
    f2ValidBit v segno off = f2TestBitBe off fun i => sitByte v segno (2 + i) := by
  unfold f2ValidBit sitByte
  simp only [Nat.add_assoc]

theorem sitEntry_le (segno : U32) : sitEntry segno + sitEntrySize ≤ 4096 := by
  have hmod : (segno % sitEntryPerBlock).toNat < 55 := by
    rw [BitVec.toNat_umod]
    exact Nat.mod_lt _ (by decide)
  unfold sitEntry sitEntrySize
  omega

def SitFits (g : Geometry) : Prop := g.sitBlkaddr.toNat + g.mainSegs.toNat / 55 < 536870912

theorem toNat_sitBlock (h : SitFits v.geo) {n : U32} (hn : n < v.geo.mainSegs) :
    (sitBlock v n).toNat = v.geo.sitBlkaddr.toNat + n.toNat / 55 := by
  have hle : n.toNat / 55 ≤ v.geo.mainSegs.toNat / 55 := Nat.div_le_div_right (Nat.le_of_lt (BitVec.lt_def.mp hn))
  have hper : sitEntryPerBlock.toNat = 55 := rfl
  unfold SitFits at h
  rw [sitBlock, BitVec.toNat_add, BitVec.toNat_udiv, hper]
  omega

theorem sitBlock_lt (h : SitFits v.geo) {n : U32} (hn : n < v.geo.mainSegs) : (sitBlock v n).toNat < 536870912 := by
  have hle : n.toNat / 55 ≤ v.geo.mainSegs.toNat / 55 := Nat.div_le_div_right (Nat.le_of_lt (BitVec.lt_def.mp hn))
  rw [toNat_sitBlock h hn]
  unfold SitFits at h
  omega

theorem sitEntry_apart (h : SitFits v.geo) {n m : U32} (hn : n < v.geo.mainSegs) (hm : m < v.geo.mainSegs) (hne : m ≠ n)
    (hsame : sitBlock v m = sitBlock v n) : sitEntry m + sitEntrySize ≤ sitEntry n ∨ sitEntry n + sitEntrySize ≤ sitEntry m := by
  have hnat := congrArg BitVec.toNat hsame
  rw [toNat_sitBlock h hm, toNat_sitBlock h hn] at hnat
  have hper : sitEntryPerBlock.toNat = 55 := rfl
  have hvals : m.toNat ≠ n.toNat := fun he => hne (BitVec.eq_of_toNat_eq he)
  unfold sitEntry sitEntrySize
  rw [BitVec.toNat_umod, BitVec.toNat_umod, hper]
  omega

theorem sitByte_write (h : SitFits v.geo) {n m : U32} (hn : n < v.geo.mainSegs) (hm : m < v.geo.mainSegs)
    (hbuf : ∀ x, ¬ (sitEntry n ≤ x ∧ x < sitEntry n + sitEntrySize) → buf x = f2ReadBlock v.disk v.part (sitBlock v n) x)
    {i : Nat} (hi : i < sitEntrySize) :
    sitByte (f2WriteBlock v (sitBlock v n) buf) m i = if m = n then buf (sitEntry n + i) else sitByte v m i := by
  have hlt := sitBlock_lt h hn
  have hfit := sitEntry_le m
  by_cases hmn : m = n
  · rw [if_pos hmn, hmn]
    exact f2ReadBlock_put_same hlt (by rw [← hmn]; omega)
  · rw [if_neg hmn]
    by_cases hsame : sitBlock v m = sitBlock v n
    · have hap := sitEntry_apart h hn hm hmn hsame
      have hself : sitByte (f2WriteBlock v (sitBlock v n) buf) m i = buf (sitEntry m + i) := by
        change f2ReadBlock _ v.part (sitBlock v m) _ = _
        rw [hsame]
        exact f2ReadBlock_put_same hlt (by omega)
      rw [hself, hbuf _ (by omega), ← hsame]
      rfl
    · exact congrFun (f2ReadBlock_put_other hlt (sitBlock_lt h hm) hsame) _

theorem f2TestBitBe_congr {o : Nat} {p q : Nat → Byte} (h : p (o / 8) = q (o / 8)) : f2TestBitBe o p = f2TestBitBe o q := by
  rw [f2TestBitBe, f2TestBitBe, h]

theorem or_and_mask {type count : U16} (htype : type &&& sitVblocksMask = 0) (hcount : count.toNat ≤ 1023) :
    (type ||| count) &&& sitVblocksMask = count := by
  have hself : count &&& sitVblocksMask = count := by
    apply BitVec.eq_of_toNat_eq
    rw [BitVec.toNat_and]
    exact (Nat.and_two_pow_sub_one_eq_mod count.toNat 10).trans (Nat.mod_eq_of_lt (Nat.lt_succ_of_le hcount))
  rw [BitVec.and_comm, BitVec.and_or_distrib_left, BitVec.and_comm _ type, BitVec.and_comm _ count, htype, hself]
  exact BitVec.zero_or

theorem and_not_mask (w : U16) : w &&& ~~~sitVblocksMask &&& sitVblocksMask = 0 := by
  rw [BitVec.and_assoc, BitVec.and_comm (~~~sitVblocksMask), BitVec.and_not_self]
  exact BitVec.and_zero

theorem toNat_and_mask_le (w : U16) : (w &&& sitVblocksMask).toNat ≤ 1023 := by
  rw [BitVec.toNat_and]
  exact Nat.and_le_right

section
variable {se off o : Nat} {set : Bool} {ver : U32}

theorem sitEdit_apart (hoff : off < 512) {x : Nat} (h : ¬ (se ≤ x ∧ x < se + sitEntrySize)) :
    sitEdit buf se off set ver x = buf x := by
  unfold sitEntrySize at h
  unfold sitEdit sitVblockMapSize
  rw [write64_of_disjoint (by omega), write16_of_disjoint (by omega)]
  cases set with
  | true => exact f2SetBitBe_of_ne (by omega)
  | false => exact f2ClearBitBe_of_ne (by omega)

theorem sitEdit_bit (ho : o < 512) : f2TestBitBe o (fun i => sitEdit buf se off set ver (se + 2 + i)) =
    if o = off then set else f2TestBitBe o fun i => buf (se + 2 + i) := by
  unfold sitEdit sitVblockMapSize
  rw [f2TestBitBe_congr (q := fun i => (if set = true then f2SetBitBe off buf (se + 2) else f2ClearBitBe off buf (se + 2)) (se + 2 + i))
    (by rw [write64_of_disjoint (by omega), write16_of_disjoint (by omega)])]
  cases set with
  | true =>
    rw [if_pos rfl, f2TestBitBe_set]
    by_cases h : o = off
    · rw [if_pos h, decide_eq_true h, Bool.true_or]
    · rw [if_neg h, decide_eq_false h, Bool.false_or]
  | false =>
    rw [if_neg Bool.false_ne_true, f2TestBitBe_clear]
    by_cases h : o = off
    · rw [if_pos h, decide_eq_true h, Bool.not_true, Bool.false_and]
    · rw [if_neg h, decide_eq_false h, Bool.not_false, Bool.true_and]

def countEdit (count : U16) (set : Bool) : U16 := if set then count + 1 else if count ≠ 0 then count - 1 else count

theorem sitEdit_count (h : (countEdit (read16 buf se &&& sitVblocksMask) set).toNat ≤ 1023) :
    read16 (sitEdit buf se off set ver) se &&& sitVblocksMask = countEdit (read16 buf se &&& sitVblocksMask) set := by
  unfold sitEdit sitVblockMapSize
  dsimp only
  rw [read16_congr fun x _ hx => write64_of_disjoint (by omega), read16_write16_self]
  exact or_and_mask (and_not_mask _) h

end

theorem f2SitUpdate_eq {segno off : U32} {set : Bool} (h : segno < v.geo.mainSegs) :
    ∃ sitj, f2SitUpdate v segno off set = some { f2WriteBlock v (sitBlock v segno)
      (sitEdit (f2ReadBlock v.disk v.part (sitBlock v segno)) (sitEntry segno) off.toNat set v.cpVer) with sitj := sitj } := by
  unfold f2SitUpdate
  rw [if_neg (BitVec.not_le.mpr h)]
  dsimp only
  by_cases hcur : (read16 (f2ReadBlock v.disk v.part (sitBlock v segno)) (sitEntry segno) >>> sitVblocksShift).toNat < nrCursegType ∧
      read32 v.cp (curSegAt (read16 (f2ReadBlock v.disk v.part (sitBlock v segno)) (sitEntry segno) >>> sitVblocksShift).toNat) =
        segno
  · exact ⟨_, congrArg some (if_pos hcur)⟩
  · exact ⟨v.sitj, congrArg some (if_neg hcur)⟩

theorem f2Vblocks_congr {v v' : Vol} {n : U32} (h : ∀ i < 2, sitByte v' n i = sitByte v n i) : f2Vblocks v' n = f2Vblocks v n := by
  rw [f2Vblocks_eq, f2Vblocks_eq, h 0 (by decide), h 1 (by decide)]

theorem f2ValidBit_congr {v v' : Vol} {n : U32} {o : Nat} (ho : o < 512)
    (h : ∀ i, 2 ≤ i → i < 66 → sitByte v' n i = sitByte v n i) : f2ValidBit v' n o = f2ValidBit v n o := by
  rw [f2ValidBit_eq, f2ValidBit_eq]
  exact f2TestBitBe_congr (h _ (by omega) (by omega))

section
variable (h : SitFits v.geo) {n m : U32} (hn : n < v.geo.mainSegs) (hm : m < v.geo.mainSegs)
include h hn hm

theorem sitByte_retype (type : Nat) {i : Nat} (hi : i < sitEntrySize) (hmap : 2 ≤ i ∨ m ≠ n) :
    sitByte (sitRetype v n type) m i = sitByte v m i := by
  unfold sitRetype
  dsimp only
  rw [sitByte_write h hn hm (fun x hx => write16_of_disjoint (by unfold sitEntrySize at hx; omega)) hi]
  by_cases hmn : m = n
  · rw [if_pos hmn, write16_of_disjoint (Or.inr (by have := hmap.resolve_right (not_not.mpr hmn); omega)), hmn]
    rfl
  · rw [if_neg hmn]

theorem f2ValidBit_retype (type : Nat) {o : Nat} (ho : o < 512) : f2ValidBit (sitRetype v n type) m o = f2ValidBit v m o :=
  f2ValidBit_congr ho fun i hlo hhi => sitByte_retype h hn hm type (Nat.lt_of_lt_of_le hhi (by decide)) (Or.inl hlo)

theorem f2Vblocks_retype (type : Nat) : f2Vblocks (sitRetype v n type) m = f2Vblocks v m := by
  by_cases hmn : m = n
  · subst hmn
    have hlt := sitBlock_lt h hm
    have hfit := sitEntry_le m
    unfold sitEntrySize at hfit
    have hread : ∀ w : Mem, read16 (f2ReadBlock (put (blockWrites v.part (sitBlock v m) w) v.disk) v.part (sitBlock v m)) (sitEntry m) =
        read16 w (sitEntry m) := fun w => read16_congr fun x _ hx => f2ReadBlock_put_same hlt (by omega)
    have htype : BitVec.ofNat 16 (type <<< sitVblocksShift) &&& sitVblocksMask = 0 := by
      apply BitVec.eq_of_toNat_eq
      rw [BitVec.toNat_and, BitVec.toNat_ofNat]
      refine (Nat.and_two_pow_sub_one_eq_mod _ 10).trans ?_
      unfold sitVblocksShift
      rw [Nat.shiftLeft_eq]
      change type * 1024 % 65536 % 1024 = 0
      omega
    change read16 (f2ReadBlock (put (blockWrites v.part (sitBlock v m) _) v.disk) v.part (sitBlock v m)) (sitEntry m) &&& _ = _
    rw [hread, read16_write16_self, BitVec.or_comm]
    exact or_and_mask htype (toNat_and_mask_le _)
  · exact f2Vblocks_congr fun i hi => sitByte_retype h hn hm type (Nat.lt_of_lt_of_le hi (by decide)) (Or.inr hmn)

end

structure SitUpdated (v v' : Vol) (n : U32) (off : Nat) (set : Bool) : Prop where
  geo : v'.geo = v.geo
  part : v'.part = v.part
  cp : v'.cp = v.cp
  bits : ∀ m < v.geo.mainSegs, ∀ o < 512, f2ValidBit v' m o = if m = n ∧ o = off then set else f2ValidBit v m o
  others : ∀ m < v.geo.mainSegs, m ≠ n → f2Vblocks v' m = f2Vblocks v m
  count : (countEdit (f2Vblocks v n) set).toNat ≤ 1023 → f2Vblocks v' n = countEdit (f2Vblocks v n) set

theorem f2SitUpdate_spec (h : SitFits v.geo) {n off : U32} (hn : n < v.geo.mainSegs) (hoff : off.toNat < 512) (set : Bool) :
    ∃ v', f2SitUpdate v n off set = some v' ∧ SitUpdated v v' n off.toNat set := by
  obtain ⟨sitj, heq⟩ := @f2SitUpdate_eq v n off set hn
  refine ⟨_, heq, ?_⟩
  have hbyte : ∀ m < v.geo.mainSegs, ∀ i < sitEntrySize, sitByte { f2WriteBlock v (sitBlock v n)
      (sitEdit (f2ReadBlock v.disk v.part (sitBlock v n)) (sitEntry n) off.toNat set v.cpVer) with sitj := sitj } m i =
      if m = n then sitEdit (f2ReadBlock v.disk v.part (sitBlock v n)) (sitEntry n) off.toNat set v.cpVer (sitEntry n + i)
      else sitByte v m i :=
    fun m hm i hi => sitByte_write h hn hm (fun x hx => sitEdit_apart hoff hx) hi
  refine ⟨rfl, rfl, rfl, fun m hm o ho => ?_, fun m hm hne => ?_, fun hc => ?_⟩
  · have hplace : 2 + o / 8 < sitEntrySize := by
      unfold sitEntrySize
      omega
    by_cases hmn : m = n
    · subst hmn
      rw [f2ValidBit_eq]
      refine (f2TestBitBe_congr (q := fun i => sitEdit (f2ReadBlock v.disk v.part (sitBlock v m)) (sitEntry m) off.toNat set
        v.cpVer (sitEntry m + (2 + i))) ((hbyte m hm _ hplace).trans (if_pos rfl))).trans ?_
      have hbit := @sitEdit_bit (f2ReadBlock v.disk v.part (sitBlock v m)) (sitEntry m) off.toNat o set v.cpVer ho
      simp only [Nat.add_assoc] at hbit
      refine Eq.trans hbit ?_
      by_cases hof : o = off.toNat
      · rw [if_pos hof, if_pos ⟨rfl, hof⟩]
      · rw [if_neg hof, if_neg fun hno => hof hno.2, f2ValidBit_eq]
        rfl
    · rw [if_neg fun hno => hmn hno.1, f2ValidBit_eq, f2ValidBit_eq]
      exact f2TestBitBe_congr ((hbyte m hm _ hplace).trans (if_neg hmn))
  · exact f2Vblocks_congr fun i hi => (hbyte m hm i (Nat.lt_of_lt_of_le hi (by decide))).trans (if_neg hne)
  · rw [f2Vblocks_eq, (hbyte n hn 0 (by decide)).trans (if_pos rfl), (hbyte n hn 1 (by decide)).trans (if_pos rfl)]
    exact sitEdit_count hc

end Ezos.F2fs
