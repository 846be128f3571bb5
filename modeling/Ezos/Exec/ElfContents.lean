import Ezos.Exec.ElfPages

/-!
# What loading one segment leaves in memory

The frames of a segment are consecutive, so that through the mapping the segment is one block of
memory: zero, and the bytes of the file over it. Frames that are no page table and not part of the
block keep their bytes.
-/

namespace Ezos.Elf

open Lib.Memory Paging

set_option autoImplicit false

variable {s s' : Paging.State} {va phys : U32} {k n a : Nat} {ph : Phdr}

def InSegment (ph : Phdr) (p : Nat) : Prop :=
  pageOf (vaStart ph) ≤ p ∧ p < pageOf (vaStart ph) + (segPages ph).toNat

instance (ph : Phdr) (p : Nat) : Decidable (InSegment ph p) := inferInstanceAs (Decidable (_ ∧ _))

def segFlags (ph : Phdr) : U32 := if ph.pFlags &&& pfW = 0 then pteUs else pagingUsrFlags

def InFile (ph : Phdr) (a : Nat) : Prop :=
  ph.pVaddr.toNat ≤ a ∧ a < ph.pVaddr.toNat + ph.pFilesz.toNat

instance (ph : Phdr) (a : Nat) : Decidable (InFile ph a) := inferInstanceAs (Decidable (_ ∧ _))

def segByte (buf : Mem) (ph : Phdr) (a : Nat) : Byte :=
  if InFile ph a then buf (ph.pOffset.toNat + (a - ph.pVaddr.toNat)) else 0

theorem setEntry_mem (s : Paging.State) (pt virt phys flags : U32) {x : Nat}
    (hslot : x < pteAddr pt virt ∨ pteAddr pt virt + 4 ≤ x)
    (hdir : x < pdeAddr s virt ∨ pdeAddr s virt + 4 ≤ x) :
    (setEntry s pt virt phys flags).mem x = s.mem x := by
  have h1 : write32 s.mem (pteAddr pt virt) (entryOf phys flags) x = s.mem x := if_neg (by omega)
  rw [setEntry]
  simp only
  split
  · exact (if_neg (by omega)).trans h1
  · exact h1

theorem pdeAddr_lt (hwf : WF s) (virt : U32) : pdeAddr s virt + 4 ≤ 0x201000 := by
  have hpd := hwf.pd_toNat
  have hlt := pageOf_lt virt
  rw [pdeAddr, dirIndex_toNat]
  omega

theorem pagingMap_keeps (hwf : WF s) (ha : SafeFrame s a) (virt phys flags : U32) {x : Nat} (h1 : a ≤ x)
    (h2 : x < a + 4096) : (pagingMap s virt phys flags).2.mem x = s.mem x := by
  have hpool := ha.pool
  have hdir := pdeAddr_lt hwf virt
  have hlt := pageOf_lt virt
  have hi : pageOf virt / 1024 < 1024 := by omega
  rw [pagingMap]
  split
  · rfl
  · by_cases hp : Present (pde s (pageOf virt / 1024))
    · rw [ptFor_of_present virt hp]
      simp only [hwf.table_ne_null virt hp, if_false]
      have hal := ha.aligned
      have hdvd := tableOf_dvd s (pageOf virt / 1024)
      have hne := ha.noTable _ hi hp
      exact setEntry_mem _ _ _ _ _ (by rw [pteAddr_eq]; omega) (by omega)
    · by_cases hfull : 16 ≤ s.ptUsed.toNat
      · rw [ptFor_of_full virt hp hfull]
        rfl
      · obtain ⟨hne, -, -, -⟩ := hwf.new_table hi hp (by omega)
        rw [hwf.ptFor_of_free virt hp (by omega)]
        simp only [hne, if_false]
        have hpt : (pagingPtBase + s.ptUsed * Paging.pageSize).toNat = 0x201000 + s.ptUsed.toNat * 4096 := by
          have hb : pagingPtBase.toNat = 0x201000 := by decide
          have hs : Paging.pageSize.toNat = 4096 := by decide
          rw [BitVec.toNat_add, BitVec.toNat_mul, hb, hs]
          omega
        have hpd := hwf.pd_toNat
        refine (setEntry_mem _ _ _ _ _ ?_ ?_).trans ?_
        · rw [pteAddr, tableIndex_toNat, hpt]
          omega
        · right
          exact Nat.le_trans hdir (by omega)
        · exact (if_neg (by omega)).trans (if_neg (by rw [hpt]; omega))

theorem mapPages_keeps (hwf : WF s) (ha : SafeFrame s a) (va phys flags : U32) (k n : Nat) {x : Nat}
    (h1 : a ≤ x) (h2 : x < a + 4096) : (mapPages s va phys flags k n).2.mem x = s.mem x := by
  induction n generalizing s k with
  | zero => rfl
  | succ n ih =>
    have hone := pagingMap_keeps hwf ha (va + BitVec.ofNat 32 k * Pmm.pageSize)
      (phys + BitVec.ofNat 32 k * Pmm.pageSize) flags h1 h2
    rw [mapPages]
    rcases pagingMap_cases hwf (va + BitVec.ofNat 32 k * Pmm.pageSize)
      (phys + BitVec.ofNat 32 k * Pmm.pageSize) flags with ⟨heq, _⟩ | ⟨_, _, s1, heq, hs1⟩
    · rw [heq]
    · rw [heq] at hone ⊢
      exact (ih hs1.effect.wf (ha.extends hs1.effect.ext) (k + 1)).trans hone

structure Consecutive (s : Paging.State) (va phys : U32) (k n : Nat) : Prop where
  present : ∀ j, k ≤ j → j < k + n → Present (pteAt s (pageOf va + j))
  frame : ∀ j, k ≤ j → j < k + n → (pteAt s (pageOf va + j) &&& frameMask).toNat = phys.toNat + j * 4096
  safe : ∀ j, k ≤ j → j < k + n → SafeFrame s (phys.toNat + j * 4096)

theorem Consecutive.after (h : Consecutive s va phys k n) (himg : ImagePages va (k + n))
    (heff : Effect s s' (pteAt s)) : Consecutive s' va phys k n where
  present j h1 h2 := by
    rw [heff.entries _ (by have := himg.below; omega)]
    exact h.present j h1 h2
  frame j h1 h2 := by
    rw [heff.entries _ (by have := himg.below; omega)]
    exact h.frame j h1 h2
  safe j h1 h2 := (h.safe j h1 h2).extends heff.ext

theorem block_succ (b k n x : Nat) : b + k * 4096 ≤ x ∧ x < b + (k + (n + 1)) * 4096 ↔
    (b + (k + 1) * 4096 ≤ x ∧ x < b + (k + 1 + n) * 4096) ∨
      (b + k * 4096 ≤ x ∧ x < b + k * 4096 + 4096) := by
  omega

theorem zeroPages_mem (hwf : WF s) (himg : ImagePages va (k + n)) (hc : Consecutive s va phys k n)
    (h : zeroPages s va k n = some s') (x : Nat) :
    s'.mem x = if phys.toNat + k * 4096 ≤ x ∧ x < phys.toNat + (k + n) * 4096 then 0 else s.mem x := by
  induction n generalizing s k with
  | zero =>
    obtain rfl := Option.some.inj h
    rw [if_neg (by omega)]
  | succ n ih =>
    obtain ⟨_, hpage, _⟩ := himg.page (k := k) (by omega)
    have hp := hc.present k (Nat.le_refl k) (by omega)
    have hf := hc.frame k (Nat.le_refl k) (by omega)
    have hsafe := hc.safe k (Nat.le_refl k) (by omega)
    rw [← hpage] at hp hf
    have heff := write_frame hwf (hf.symm ▸ hsafe) (changesOnly_fill s.mem
      (pteAt s (pageOf (va + BitVec.ofNat 32 k * Pmm.pageSize)) &&& frameMask).toNat 4096 0)
    rw [zeroPages, pagingQuery_of_present hwf hp] at h
    have hnext : Consecutive s va phys (k + 1) n :=
      ⟨fun j h1 h2 => hc.present j (by omega) (by omega), fun j h1 h2 => hc.frame j (by omega) (by omega),
        fun j h1 h2 => hc.safe j (by omega) (by omega)⟩
    have himg' : ImagePages va (k + 1 + n) := by
      rwa [Nat.add_assoc, Nat.add_comm 1 n]
    rw [ih heff.wf himg' (hnext.after himg' heff) h]
    simp only [fill, hf]
    have hblock := block_succ phys.toNat k n x
    split
    · rename_i hin
      rw [if_pos (hblock.mpr (Or.inl hin))]
    · rename_i hout
      split
      · rename_i hin
        rw [if_pos (hblock.mpr (Or.inr hin))]
      · rename_i hout'
        rw [if_neg fun hin => (hblock.mp hin).elim hout hout']

theorem copyBytes_mem (hwf : WF s) (src : Nat → Byte) (b : Nat)
    (hsafe : ∀ i, k ≤ i → i < k + n → SafePage s (pageOf (va + BitVec.ofNat 32 i)))
    (haddr : ∀ i, k ≤ i → i < k + n → (pteAt s (pageOf (va + BitVec.ofNat 32 i)) &&& frameMask).toNat +
      (va + BitVec.ofNat 32 i).toNat % 4096 = b + i)
    (h : copyBytes s va src k n = some s') (x : Nat) :
    s'.mem x = if b + k ≤ x ∧ x < b + (k + n) then src (x - b) else s.mem x := by
  induction n generalizing s k with
  | zero =>
    obtain rfl := Option.some.inj h
    rw [if_neg (by omega)]
  | succ n ih =>
    obtain ⟨hp, hframe⟩ := hsafe k (Nat.le_refl k) (by omega)
    have hoff := Nat.mod_lt (va + BitVec.ofNat 32 k).toNat (show 0 < 4096 by omega)
    have hk := haddr k (Nat.le_refl k) (by omega)
    have hc := changesOnly_fill s.mem ((pteAt s (pageOf (va + BitVec.ofNat 32 k)) &&& frameMask).toNat +
      (va + BitVec.ofNat 32 k).toNat % 4096) 1 (src k)
    have heff := write_frame hwf hframe (hc.mono fun x hx => by omega)
    rw [copyBytes, pagingQuery_of_present hwf hp] at h
    have hmem := ih heff.wf (k := k + 1)
      (fun i h1 h2 => safePage_of_effect heff (pageOf_lt _) (hsafe i (by omega) (by omega)))
      (fun i h1 h2 => by
        rw [heff.entries _ (pageOf_lt _)]
        exact haddr i (by omega) (by omega)) h
    rw [hmem]
    simp only [fill, hk]
    split
    · rw [if_pos (by omega)]
    · split
      · have hx : x - b = k := by omega
        rw [if_pos (by omega), hx]
      · rw [if_neg (by omega)]

structure Placed (buf : Mem) (ph : Phdr) (phys : U32) (s s' : Paging.State) : Prop where
  effect : Effect s s' (fun p =>
    if InSegment ph p then rangeEntry (vaStart ph) phys (segFlags ph) p else pteAt s p)
  bytes : ∀ i < (segPages ph).toNat * 4096,
    s'.mem (phys.toNat + i) = segByte buf ph ((vaStart ph).toNat + i)
  kept : ∀ a, SafeFrame s a → (∀ k < (segPages ph).toNat, a ≠ phys.toNat + k * 4096) →
    ∀ x, a ≤ x → x < a + 4096 → s'.mem x = s.mem x

theorem ValidSegment.vaStart_le (h : ValidSegment ph) : (vaStart ph).toNat ≤ ph.pVaddr.toNat := by
  rw [h.vaStart_toNat]
  omega

theorem ValidSegment.end_le (h : ValidSegment ph) :
    ph.pVaddr.toNat + ph.pMemsz.toNat ≤ (vaStart ph).toNat + (segPages ph).toNat * 4096 := by
  have h1 := h.vaStart_toNat
  have h2 := h.segPages_toNat
  omega

def MappedTo (s : Paging.State) (ph : Phdr) (phys flags : U32) : Prop :=
  ∀ p, InSegment ph p → pteAt s p = rangeEntry (vaStart ph) phys flags p

theorem MappedTo.consecutive {flags : U32} (h : MappedTo s ph phys flags)
    (hpool : PoolPages phys (segPages ph).toNat)
    (hframes : ∀ k < (segPages ph).toNat, SafeFrame s (phys.toNat + k * 4096)) :
    Consecutive s (vaStart ph) phys 0 (segPages ph).toNat where
  present j _ h2 := by
    rw [h _ ⟨by omega, by omega⟩]
    exact present_entryOf _ _
  frame j _ h2 := by
    rw [h _ ⟨by omega, by omega⟩, rangeEntry_frame _ hpool (by omega) (by omega), Nat.add_sub_cancel_left]
  safe j _ h2 := hframes j (by omega)

theorem Consecutive.page (h : Consecutive s (vaStart ph) phys 0 n) {p : Nat}
    (h1 : pageOf (vaStart ph) ≤ p) (h2 : p < pageOf (vaStart ph) + n) :
    SafePage s p ∧ (pteAt s p &&& frameMask).toNat = phys.toNat + (p - pageOf (vaStart ph)) * 4096 := by
  obtain ⟨j, rfl⟩ := Nat.exists_eq_add_of_le h1
  have hframe := h.frame j (by omega) (by omega)
  rw [Nat.add_sub_cancel_left]
  exact ⟨⟨h.present j (by omega) (by omega), hframe ▸ h.safe j (by omega) (by omega)⟩, hframe⟩

theorem copyFile_mem (buf : Mem) (hv : ValidSegment ph) (hwf : WF s)
    (hc : Consecutive s (vaStart ph) phys 0 (segPages ph).toNat) :
    ∃ s', copyFile buf ph s = some s' ∧ Effect s s' (pteAt s) ∧ ∀ x, s'.mem x =
      if phys.toNat + (ph.pVaddr.toNat - (vaStart ph).toNat) ≤ x ∧
          x < phys.toNat + (ph.pVaddr.toNat - (vaStart ph).toNat) + ph.pFilesz.toNat then
        buf (ph.pOffset.toNat + (x - (phys.toNat + (ph.pVaddr.toNat - (vaStart ph).toNat))))
      else s.mem x := by
  generalize hb : phys.toNat + (ph.pVaddr.toNat - (vaStart ph).toNat) = b
  rw [copyFile]
  by_cases hz : ph.pFilesz = 0
  · refine ⟨s, if_neg (not_not_intro hz), Effect.refl hwf, fun x => ?_⟩
    have hz' : ph.pFilesz.toNat = 0 := (eq_zero_iff _).mp hz
    rw [if_neg (by omega)]
  · rw [if_pos hz]
    have hsafe : ∀ i, 0 ≤ i → i < 0 + ph.pFilesz.toNat →
        SafePage s (pageOf (ph.pVaddr + BitVec.ofNat 32 i)) := fun i _ hi => by
      obtain ⟨h1, h2⟩ := hv.byte_page (i := i) (by omega)
      exact (hc.page h1 h2).1
    obtain ⟨s', heq, heff⟩ := copyBytes_spec (k := 0) hwf (fun i => buf (ph.pOffset.toNat + i)) hsafe
    refine ⟨s', heq, heff, fun x => ?_⟩
    have hmem := copyBytes_mem hwf (fun i => buf (ph.pOffset.toNat + i)) b hsafe (fun i _ hi => ?_) heq x
    · rw [Nat.add_zero, Nat.zero_add] at hmem
      exact hmem
    · obtain ⟨h1, h2⟩ := hv.byte_page (i := i) (by omega)
      rw [(hc.page h1 h2).2]
      have hstart := hv.vaStart_toNat
      have hbelow := hv.below
      have hfile := hv.file
      have hadd : (ph.pVaddr + BitVec.ofNat 32 i).toNat = ph.pVaddr.toNat + i := by
        rw [BitVec.toNat_add, BitVec.toNat_ofNat]
        omega
      unfold pageOf at h1 h2 ⊢
      rw [hadd] at h1 h2 ⊢
      omega

theorem protect_spec (hv : ValidSegment ph) (hwf : WF s) (hslot : Present (pde s imageSlot))
    (hpool : PoolPages phys (segPages ph).toNat) (hmap : MappedTo s ph phys pagingUsrFlags) :
    Effect s (protect ph phys s) (fun p =>
        if InSegment ph p then rangeEntry (vaStart ph) phys (segFlags ph) p else pteAt s p) ∧
      ∀ a, SafeFrame s a → ∀ x, a ≤ x → x < a + 4096 → (protect ph phys s).mem x = s.mem x := by
  have himg := hv.image
  rw [protect, segFlags]
  by_cases hw : ph.pFlags &&& pfW = 0
  · rw [if_pos hw, if_pos hw]
    obtain ⟨s', heq, _, heff⟩ := mapPages_spec (k := 0) hwf (Or.inl hslot) pteUs
      (by simpa using himg) (by simpa using hpool)
    rw [protectPages_eq heq]
    refine ⟨⟨heff.wf, heff.ext, fun p hp => ?_⟩, fun a ha x h1 h2 => ?_⟩
    · rw [heff.entries p hp, Nat.add_zero]
      rfl
    · have hkeep := mapPages_keeps hwf ha (vaStart ph) phys pteUs 0 (segPages ph).toNat h1 h2
      rwa [heq] at hkeep
  · rw [if_neg hw, if_neg hw]
    refine ⟨⟨hwf, Extends.refl s, fun p _ => ?_⟩, fun _ _ _ _ _ => rfl⟩
    split
    · rename_i hin
      exact hmap p hin
    · rfl

theorem fillSegment_spec (buf : Mem) (hv : ValidSegment ph) (hwf : WF s)
    (hslot : Present (pde s imageSlot)) (hpool : PoolPages phys (segPages ph).toNat)
    (hframes : ∀ k < (segPages ph).toNat, SafeFrame s (phys.toNat + k * 4096))
    (hmap : MappedTo s ph phys pagingUsrFlags) :
    ∃ s', fillSegment buf ph phys s = some s' ∧ Placed buf ph phys s s' := by
  have himg := hv.image
  have hbelow := himg.below
  have hc := hmap.consecutive hpool hframes
  obtain ⟨s1, heq1, heff1⟩ := zeroPages_spec (k := 0) hwf (by simpa using himg)
    fun p h1 h2 => (hc.page (by omega) (by omega)).1
  have hzero := zeroPages_mem hwf (by simpa using himg) hc heq1
  simp only [Nat.zero_mul, Nat.add_zero, Nat.zero_add] at hzero
  have hc1 := hc.after (by simpa using himg) heff1
  obtain ⟨s2, heq2, heff2, hcopy⟩ := copyFile_mem buf hv heff1.wf hc1
  have heff := effect_trans_same heff1 heff2
  have hmap2 : MappedTo s2 ph phys pagingUsrFlags := fun p hp => by
    have h2 : p < pageOf (vaStart ph) + (segPages ph).toNat := hp.2
    rw [heff.entries p (by omega)]
    exact hmap p hp
  obtain ⟨heff3, hkeep⟩ := protect_spec hv heff.wf (heff.ext.keeps 1 (by omega) hslot).1 hpool hmap2
  refine ⟨protect ph phys s2, ?_, ⟨heff3.wf, heff.ext.trans heff3.ext, fun p hp => ?_⟩, ?_, ?_⟩
  · rw [fillSegment, heq1, Option.bind_some, heq2, Option.map_some]
  · rw [heff3.entries p hp, heff.entries p hp]
  · intro i hi
    have hframe : SafeFrame s2 (phys.toNat + i / 4096 * 4096) :=
      (hframes (i / 4096) (by omega)).extends heff.ext
    have hstart := hv.vaStart_le
    rw [hkeep _ hframe _ (by omega) (by omega), hcopy, hzero, segByte]
    by_cases hin : InFile ph ((vaStart ph).toNat + i)
    · have hin' := hin
      unfold InFile at hin'
      rw [if_pos hin, if_pos (by omega)]
      congr 1
      omega
    · have hout := hin
      unfold InFile at hout
      rw [if_neg hin, if_neg (by omega), if_pos (by omega)]
  · intro a ha hne x h1 h2
    have hstart := hv.vaStart_le
    have hend := hv.end_le
    have hfile := hv.file
    -- an aligned frame that is none of the block lies outside it
    have hout : ¬ (phys.toNat ≤ x ∧ x < phys.toNat + (segPages ph).toNat * 4096) := by
      intro hin
      have halign := ha.aligned
      have hpal := hpool.aligned
      exact hne ((x - phys.toNat) / 4096) (by omega) (by omega)
    rw [hkeep a (ha.extends heff.ext) x h1 h2, hcopy, if_neg (by omega), hzero, if_neg (by omega)]

theorem Placed.of_mapped {buf : Mem} {s₁ : Paging.State} (hwf : WF s)
    (hmap : mapPages s (vaStart ph) phys pagingUsrFlags 0 (segPages ph).toNat = (true, s₁))
    (heff : Effect s s₁ (fun p =>
      if InSegment ph p then rangeEntry (vaStart ph) phys pagingUsrFlags p else pteAt s p))
    (h : Placed buf ph phys s₁ s') : Placed buf ph phys s s' where
  effect := by
    refine ⟨h.effect.wf, heff.ext.trans h.effect.ext, fun p hp => ?_⟩
    rw [h.effect.entries p hp, heff.entries p hp]
    by_cases hin : InSegment ph p
    · rw [if_pos hin, if_pos hin]
    · rw [if_neg hin, if_neg hin, if_neg hin]
  bytes := h.bytes
  kept a ha hne x h1 h2 := by
    have hkeep := mapPages_keeps hwf ha (vaStart ph) phys pagingUsrFlags 0 (segPages ph).toNat h1 h2
    rw [hmap] at hkeep
    exact (h.kept a (ha.extends heff.ext) hne x h1 h2).trans hkeep

end Ezos.Elf
