import Ezos.Exec.Elf

/-!
# The loops of the loader over the pages of one segment

The image area lies under one directory slot. Once its table is there, mapping cannot fail
in the middle of a segment, and writes through the user addresses reach the frames of the
segment and nothing of the page structures.
-/

namespace Ezos.Elf

open Lib.Memory Paging

set_option autoImplicit false

variable {s s' : Paging.State} {va phys : U32} {k n : Nat}

def imageSlot : Nat := 1

def CanMap (s : Paging.State) : Prop := Present (pde s imageSlot) ∨ s.ptUsed.toNat < 16

structure ImagePages (va : U32) (n : Nat) : Prop where
  aligned : va.toNat % 4096 = 0
  above : 1024 ≤ pageOf va
  below : pageOf va + n ≤ 2048

structure PoolPages (phys : U32) (n : Nat) : Prop where
  aligned : phys.toNat % 4096 = 0
  above : 0xA00000 ≤ phys.toNat
  below : phys.toNat + n * 4096 ≤ 0x1000000

theorem page_add {x : U32} (h : x.toNat + k * 4096 < 2 ^ 32) :
    (x + BitVec.ofNat 32 k * Pmm.pageSize).toNat = x.toNat + k * 4096 := by
  have hk : (BitVec.ofNat 32 k * Pmm.pageSize).toNat = k * 4096 := by
    rw [BitVec.toNat_mul, BitVec.toNat_ofNat]
    have hs : Pmm.pageSize.toNat = 4096 := rfl
    rw [hs]
    omega
  rw [BitVec.toNat_add, hk, Nat.mod_eq_of_lt h]

theorem ImagePages.page (h : ImagePages va n) (hk : k < n) :
    (va + BitVec.ofNat 32 k * Pmm.pageSize).toNat % 4096 = 0 ∧
      pageOf (va + BitVec.ofNat 32 k * Pmm.pageSize) = pageOf va + k ∧
      pageOf (va + BitVec.ofNat 32 k * Pmm.pageSize) / 1024 = imageSlot := by
  have h1 := h.aligned
  have h2 := h.below
  have h3 := h.above
  unfold pageOf at h2 h3
  have hadd := page_add (x := va) (k := k) (by omega)
  unfold pageOf imageSlot
  omega

theorem PoolPages.page (h : PoolPages phys n) (hk : k < n) :
    (phys + BitVec.ofNat 32 k * Pmm.pageSize).toNat = phys.toNat + k * 4096 :=
  page_add (by have := h.below; omega)

def rangeEntry (va phys flags : U32) (p : Nat) : U32 :=
  entryOf (phys + BitVec.ofNat 32 (p - pageOf va) * Pmm.pageSize) flags

theorem mapPages_full (himg : ImagePages va n) (hn : 0 < n) (flags : U32)
    (hfull : ¬ CanMap s) : mapPages s va phys flags 0 n = (false, s) := by
  obtain ⟨n, rfl⟩ := Nat.exists_eq_succ_of_ne_zero (Nat.ne_of_gt hn)
  obtain ⟨_, _, hslot⟩ := himg.page hn
  have hmap : pagingMap s (va + BitVec.ofNat 32 0 * Pmm.pageSize)
      (phys + BitVec.ofNat 32 0 * Pmm.pageSize) flags = (false, s) := by
    unfold pagingMap
    split
    · rfl
    · rw [ptFor_of_full _ (fun hp => hfull (Or.inl (hslot ▸ hp)))
        (Nat.not_lt.mp fun h => hfull (Or.inr h))]
      rfl
  rw [mapPages, hmap]

theorem mapPages_spec (hwf : WF s) (hcan : CanMap s) (flags : U32) (himg : ImagePages va (k + n))
    (hpool : PoolPages phys (k + n)) :
    ∃ s', mapPages s va phys flags k n = (true, s') ∧ (0 < n → Present (pde s' imageSlot)) ∧
      Effect s s' (fun p => if pageOf va + k ≤ p ∧ p < pageOf va + k + n then
        rangeEntry va phys flags p else pteAt s p) := by
  induction n generalizing s k with
  | zero =>
    refine ⟨s, rfl, fun h => absurd h (Nat.lt_irrefl 0), hwf, Extends.refl s, fun p _ => ?_⟩
    rw [if_neg (by omega)]
  | succ n ih =>
    obtain ⟨hal, hpage, hslot⟩ := himg.page (k := k) (by omega)
    have hphys := hpool.page (k := k) (by omega)
    have hpal := hpool.aligned
    rcases pagingMap_cases hwf (va + BitVec.ofNat 32 k * Pmm.pageSize)
      (phys + BitVec.ofNat 32 k * Pmm.pageSize) flags with ⟨_, hwhy⟩ | ⟨_, _, s1, heq, hs1⟩
    · exfalso
      rw [hslot] at hwhy
      rcases hwhy with h | h | ⟨h1, h2⟩
      · exact h hal
      · omega
      · rcases hcan with h | h
        · exact h1 h
        · omega
    · have hp1 : Present (pde s1 imageSlot) := hslot ▸ hs1.slot
      obtain ⟨s2, heq2, hp2, heff⟩ := ih (k := k + 1) hs1.effect.wf (Or.inl hp1)
        (by simpa [Nat.add_assoc, Nat.add_comm 1 n] using himg)
        (by simpa [Nat.add_assoc, Nat.add_comm 1 n] using hpool)
      refine ⟨s2, ?_, fun _ => ?_, heff.wf, hs1.effect.ext.trans heff.ext, fun p hp => ?_⟩
      · rw [mapPages, heq]
        exact heq2
      · exact (heff.ext.keeps 1 (by omega) hp1).1
      · rw [heff.entries p hp, hs1.effect.entries p hp, hpage]
        by_cases hpk : p = pageOf va + k
        · rw [if_neg (by omega), if_pos hpk, if_pos (by omega), rangeEntry, hpk,
            Nat.add_sub_cancel_left]
        · rw [if_neg hpk]
          by_cases hr : pageOf va + (k + 1) ≤ p ∧ p < pageOf va + (k + 1) + n
          · rw [if_pos hr, if_pos (by omega)]
          · rw [if_neg hr, if_neg (by omega)]

theorem protectPages_eq (h : mapPages s va phys pteUs k n = (true, s')) :
    protectPages s va phys k n = s' := by
  induction n generalizing s k with
  | zero => exact (Prod.mk.inj h).2
  | succ n ih =>
    rw [mapPages] at h
    rw [protectPages]
    split at h
    · exact absurd (Prod.mk.inj h).1 (by decide)
    · rename_i t heq
      rw [heq]
      exact ih h

structure SafeFrame (s : Paging.State) (a : Nat) : Prop where
  aligned : a % 4096 = 0
  pool : 0xA00000 ≤ a
  noTable : ∀ i < 1024, Present (pde s i) → tableOf s i ≠ a

theorem SafeFrame.extends {a : Nat} (h : SafeFrame s a) (he : Extends s s') : SafeFrame s' a := by
  refine ⟨h.aligned, h.pool, fun i hi hp => ?_⟩
  by_cases hps : Present (pde s i)
  · rw [(he.keeps i hi hps).2]
    exact h.noTable i hi hps
  · obtain ⟨j, hj, ht⟩ := he.fresh i hi hp hps
    have := h.pool
    omega

theorem write_frame (hwf : WF s) {a : Nat} (ha : SafeFrame s a) {mem : Mem}
    (hc : ChangesOnly (fun x => a ≤ x ∧ x < a + 4096) s.mem mem) :
    Effect s { s with mem := mem } (pteAt s) := by
  have hlow := ha.pool
  have hdir : ∀ x, 0x200000 ≤ x → x < 0x201000 → ¬ (a ≤ x ∧ x < a + 4096) := by omega
  have hslot : ∀ j < 1024, _ := fun j hj => hwf.slot_of_changesOnly hc hdir s.mapped hj
  refine ⟨hwf.congr rfl rfl hslot, Extends.of_slots rfl hslot, fun p hp => ?_⟩
  have hj : p / 1024 < 1024 := by omega
  have hpde : pde { s with mem := mem } (p / 1024) = pde s (p / 1024) :=
    hwf.pde_of_changesOnly hc hdir s.mapped hj
  rw [pteAt_eq hpde, pteAt]
  by_cases hpj : Present (pde s (p / 1024))
  · rw [if_pos hpj, if_pos hpj]
    have h1 := tableOf_dvd s (p / 1024)
    have h2 := ha.aligned
    have h3 := ha.noTable _ hj hpj
    exact hc.read32 fun x h4 h5 => by omega
  · rw [if_neg hpj, if_neg hpj]

def SafePage (s : Paging.State) (p : Nat) : Prop :=
  Present (pteAt s p) ∧ SafeFrame s (pteAt s p &&& frameMask).toNat

theorem safePage_of_effect {p : Nat} (h : Effect s s' (pteAt s)) (hp : p < 2 ^ 20)
    (hs : SafePage s p) : SafePage s' p := by
  rw [SafePage, h.entries p hp]
  exact ⟨hs.1, hs.2.extends h.ext⟩

theorem effect_trans_same {t : Paging.State} (h : Effect s s' (pteAt s))
    (h' : Effect s' t (pteAt s')) : Effect s t (pteAt s) :=
  ⟨h'.wf, h.ext.trans h'.ext, fun p hp => (h'.entries p hp).trans (h.entries p hp)⟩

theorem pagingQuery_of_present {virt : U32} (hwf : WF s) (hp : Present (pteAt s (pageOf virt))) :
    pagingQuery s virt = some (pteAt s (pageOf virt) &&& frameMask, pteAt s (pageOf virt) &&& 0xFFF) := by
  rw [pagingQuery_eq hwf, if_pos hp]

theorem zeroPages_spec (hwf : WF s) (himg : ImagePages va (k + n))
    (hsafe : ∀ p, pageOf va + k ≤ p → p < pageOf va + k + n → SafePage s p) :
    ∃ s', zeroPages s va k n = some s' ∧ Effect s s' (pteAt s) := by
  induction n generalizing s k with
  | zero => exact ⟨s, rfl, Effect.refl hwf⟩
  | succ n ih =>
    obtain ⟨_, hpage, _⟩ := himg.page (k := k) (by omega)
    have hbelow := himg.below
    obtain ⟨hp, hframe⟩ := hpage ▸ hsafe (pageOf va + k) (by omega) (by omega)
    have heff := write_frame hwf hframe (changesOnly_fill s.mem _ 4096 0)
    obtain ⟨s', heq, heff'⟩ := ih heff.wf (k := k + 1)
      (by simpa [Nat.add_assoc, Nat.add_comm 1 n] using himg)
      (fun p h1 h2 => safePage_of_effect heff (by omega) (hsafe p (by omega) (by omega)))
    refine ⟨s', ?_, effect_trans_same heff heff'⟩
    rw [zeroPages, pagingQuery_of_present hwf hp]
    exact heq

theorem copyBytes_spec (hwf : WF s) (src : Nat → Byte)
    (hsafe : ∀ i, k ≤ i → i < k + n → SafePage s (pageOf (va + BitVec.ofNat 32 i))) :
    ∃ s', copyBytes s va src k n = some s' ∧ Effect s s' (pteAt s) := by
  induction n generalizing s k with
  | zero => exact ⟨s, rfl, Effect.refl hwf⟩
  | succ n ih =>
    obtain ⟨hp, hframe⟩ := hsafe k (Nat.le_refl k) (by omega)
    have hoff := Nat.mod_lt (va + BitVec.ofNat 32 k).toNat (show 0 < 4096 by omega)
    have hc := changesOnly_fill s.mem ((pteAt s (pageOf (va + BitVec.ofNat 32 k)) &&& frameMask).toNat +
      (va + BitVec.ofNat 32 k).toNat % 4096) 1 (src k)
    have heff := write_frame hwf hframe (hc.mono fun x hx => by omega)
    obtain ⟨s', heq, heff'⟩ := ih heff.wf (k := k + 1) fun i h1 h2 =>
      safePage_of_effect heff (pageOf_lt _) (hsafe i (by omega) (by omega))
    refine ⟨s', ?_, effect_trans_same heff heff'⟩
    rw [copyBytes, pagingQuery_of_present hwf hp]
    exact heq

/-- What `elf_validate` guarantees about a segment that will be loaded. -/
structure ValidSegment (ph : Phdr) : Prop where
  above : 0x400000 ≤ ph.pVaddr.toNat
  below : ph.pVaddr.toNat + ph.pMemsz.toNat ≤ 0x800000
  nonempty : 0 < ph.pMemsz.toNat
  file : ph.pFilesz.toNat ≤ ph.pMemsz.toNat

def Loadable (ph : Phdr) : Prop := ¬ (ph.pType ≠ ptLoad ∨ ph.pMemsz = 0)

instance (ph : Phdr) : Decidable (Loadable ph) := inferInstanceAs (Decidable (¬ _))

theorem rangeIn_spec {start len lo hi : U32} (hlen : len ≠ 0) (h : rangeIn start len lo hi = true) :
    lo.toNat ≤ start.toNat ∧ start.toNat + len.toNat ≤ hi.toNat := by
  have hlen' := toNat_ne_zero hlen
  unfold rangeIn at h
  rw [if_neg hlen] at h
  split at h
  · contradiction
  rename_i h1
  split at h
  · contradiction
  rename_i h2
  split at h
  · contradiction
  rename_i h3
  rw [BitVec.lt_def] at h1
  rw [BitVec.le_def] at h2
  rw [BitVec.lt_def, BitVec.toNat_sub_of_le (by rw [BitVec.le_def]; omega)] at h3
  omega

theorem reject_eq_none {c : Prop} [Decidable c] {why : String} {rest : Option String} :
    (if c then some why else rest) = none ↔ ¬ c ∧ rest = none := by
  by_cases hc : c
  · simp [hc]
  · simp [hc]

theorem validatePhdrs_valid {size nload : U32} {phs : List Phdr}
    (h : validatePhdrs size phs nload = none) {ph : Phdr} (hph : ph ∈ phs) (hl : Loadable ph) :
    ValidSegment ph := by
  induction phs generalizing nload with
  | nil => exact nomatch hph
  | cons qh phs ih =>
    rw [validatePhdrs] at h
    rcases List.mem_cons.mp hph with rfl | hph
    · have htype : ¬ ph.pType ≠ ptLoad := fun ht => hl (Or.inl ht)
      have hmem : ¬ ph.pMemsz = 0 := fun hm => hl (Or.inr hm)
      rw [if_neg htype, if_neg hmem] at h
      simp only [reject_eq_none] at h
      obtain ⟨hfile, hrange, -⟩ := h
      obtain ⟨h1, h2⟩ := rangeIn_spec hmem (Bool.not_eq_false _ ▸ hrange)
      exact ⟨h1, h2, Nat.pos_of_ne_zero (toNat_ne_zero hmem), Nat.not_lt.mp hfile⟩
    · split at h
      · exact ih h hph
      split at h
      · exact ih h hph
      · simp only [reject_eq_none] at h
        exact ih h.2.2.2.2 hph

variable {ph : Phdr}

theorem ValidSegment.vaStart_toNat (_ : ValidSegment ph) :
    (vaStart ph).toNat = ph.pVaddr.toNat / 4096 * 4096 :=
  toNat_and_not_low_mask (k := 12) (by decide) ph.pVaddr

theorem ValidSegment.vaEnd_toNat (h : ValidSegment ph) :
    (vaEnd ph).toNat = (ph.pVaddr.toNat + ph.pMemsz.toNat + 4095) / 4096 * 4096 := by
  have h1 := h.below
  have hsum : (ph.pVaddr + ph.pMemsz + Pmm.pageSize - 1).toNat =
      ph.pVaddr.toNat + ph.pMemsz.toNat + 4095 := by
    unfold Pmm.pageSize
    bv_omega
  have hmask := toNat_and_not_low_mask (k := 12) (by decide) (ph.pVaddr + ph.pMemsz + Pmm.pageSize - 1)
  rw [hsum] at hmask
  exact hmask

theorem ValidSegment.segPages_toNat (h : ValidSegment ph) : (segPages ph).toNat =
    (ph.pVaddr.toNat + ph.pMemsz.toNat + 4095) / 4096 - ph.pVaddr.toNat / 4096 := by
  have h1 := h.vaStart_toNat
  have h2 := h.vaEnd_toNat
  have h3 := h.nonempty
  have hs : Pmm.pageSize.toNat = 4096 := rfl
  have hsub : (vaEnd ph - vaStart ph).toNat = (vaEnd ph).toNat - (vaStart ph).toNat :=
    BitVec.toNat_sub_of_le (by rw [BitVec.le_def]; omega)
  rw [segPages, BitVec.toNat_udiv, hsub, h1, h2, hs]
  omega

theorem ValidSegment.pages_pos (h : ValidSegment ph) : 0 < (segPages ph).toNat := by
  have h1 := h.segPages_toNat
  have h2 := h.nonempty
  omega

theorem ValidSegment.image (h : ValidSegment ph) :
    ImagePages (vaStart ph) (segPages ph).toNat := by
  have h1 := h.vaStart_toNat
  have h2 := h.segPages_toNat
  have h3 := h.above
  have h4 := h.below
  have h5 := h.nonempty
  refine ⟨by omega, ?_, ?_⟩
  · unfold pageOf
    omega
  · unfold pageOf
    omega

theorem rangeEntry_frame {p : Nat} (flags : U32) (hpool : PoolPages phys n) (h1 : pageOf va ≤ p)
    (h2 : p < pageOf va + n) :
    (rangeEntry va phys flags p &&& frameMask).toNat = phys.toNat + (p - pageOf va) * 4096 := by
  have hal := hpool.aligned
  have hphys := hpool.page (k := p - pageOf va) (by omega)
  rw [rangeEntry, entryOf_frame, and_frameMask_of_aligned (by omega), hphys]

theorem ValidSegment.byte_page (h : ValidSegment ph) {i : Nat} (hi : i < ph.pFilesz.toNat) :
    pageOf (vaStart ph) ≤ pageOf (ph.pVaddr + BitVec.ofNat 32 i) ∧
      pageOf (ph.pVaddr + BitVec.ofNat 32 i) < pageOf (vaStart ph) + (segPages ph).toNat := by
  have h1 := h.vaStart_toNat
  have h2 := h.segPages_toNat
  have h3 := h.file
  have h4 := h.below
  have hadd : (ph.pVaddr + BitVec.ofNat 32 i).toNat = ph.pVaddr.toNat + i := by
    rw [BitVec.toNat_add, BitVec.toNat_ofNat]
    omega
  unfold pageOf
  omega

end Ezos.Elf
