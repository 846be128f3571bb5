import Ezos.Mem.Paging

/-!
# Specifications of `paging_map`, `paging_unmap` and `paging_query`

Stated over `pteAt`: a map call either changes nothing or sets the entry of one page, an
unmap call clears the entry of one page, a query reads the entry of one page.
-/

namespace Ezos.Paging

open Lib.Memory

set_option autoImplicit false

theorem present_entryOf (phys flags : U32) : Present (entryOf phys flags) := by
  intro h
  have hbit := congrArg (·.getLsbD 0) h
  simp [entryOf, pteP] at hbit

theorem entryOf_frame (phys flags : U32) : entryOf phys flags &&& frameMask = phys &&& frameMask := by
  have h1 : (0xFFF : U32) &&& frameMask = 0 := by decide
  have h2 : pteP &&& frameMask = 0 := by decide
  rw [entryOf, BitVec.and_or_distrib_right, BitVec.and_or_distrib_right, BitVec.and_assoc,
    BitVec.and_self, BitVec.and_assoc, h1, h2]
  change (phys &&& frameMask ||| flags &&& 0#32) ||| 0#32 = _
  rw [BitVec.and_zero, BitVec.or_zero, BitVec.or_zero]

theorem entryOf_flags (phys flags : U32) :
    entryOf phys flags &&& 0xFFF = (flags &&& 0xFFF) ||| pteP := by
  have h1 : frameMask &&& (0xFFF : U32) = 0 := by decide
  have h2 : pteP &&& 0xFFF = pteP := by decide
  rw [entryOf, BitVec.and_or_distrib_right, BitVec.and_or_distrib_right, BitVec.and_assoc, h1,
    BitVec.and_assoc, BitVec.and_self, h2]
  change (phys &&& 0#32 ||| flags &&& 0xFFF) ||| pteP = _
  rw [BitVec.and_zero, BitVec.zero_or]

variable {s : State}

theorem pteAt_of_present {i : Nat} (virt : U32) (hi : i = pageOf virt / 1024)
    (hp : Present (pde s i)) :
    read32 s.mem (pteAddr (pde s i &&& frameMask) virt) = pteAt s (pageOf virt) := by
  subst hi
  rw [pteAddr_eq, pteAt, if_pos hp]

theorem ptFor_of_present (virt : U32) (hp : Present (pde s (pageOf virt / 1024))) (c : Bool) :
    ptFor s virt c = (pde s (pageOf virt / 1024) &&& frameMask, s) := by
  rw [ptFor, read_pdeAddr]
  exact if_pos hp

theorem ptFor_of_not_present (virt : U32) (hp : ¬ Present (pde s (pageOf virt / 1024))) :
    ptFor s virt false = (0, s) := by
  have hp' : ¬ (pde s (pageOf virt / 1024) &&& pteP ≠ 0) := hp
  rw [ptFor, read_pdeAddr, if_neg hp', if_pos rfl]

theorem ptFor_of_full (virt : U32) (hp : ¬ Present (pde s (pageOf virt / 1024)))
    (hfull : 16 ≤ s.ptUsed.toNat) : ptFor s virt true = (0, s) := by
  have hp' : ¬ (pde s (pageOf virt / 1024) &&& pteP ≠ 0) := hp
  have hpool : s.ptUsed ≥ pagingPtMax := hfull
  rw [ptFor, read_pdeAddr, if_neg hp', if_neg (by decide), if_pos hpool]

theorem WF.ptFor_of_free (h : WF s) (virt : U32) (hp : ¬ Present (pde s (pageOf virt / 1024)))
    (hfree : s.ptUsed.toNat < 16) :
    ptFor s virt true = (pagingPtBase + s.ptUsed * pageSize, { s with
      ptUsed := s.ptUsed + 1
      mem := write32 (fill s.mem (pagingPtBase + s.ptUsed * pageSize).toNat 4096 0)
        ((pdActive s).toNat + 4 * (pageOf virt / 1024))
        (pagingPtBase + s.ptUsed * pageSize ||| pteP ||| pteRw) }) := by
  have hp' : ¬ (pde s (pageOf virt / 1024) &&& pteP ≠ 0) := hp
  have hpool : ¬ s.ptUsed ≥ pagingPtMax := Nat.not_le.mpr hfree
  rw [ptFor, read_pdeAddr, if_neg hp', if_neg (by decide), if_neg hpool,
    if_neg (not_not.mpr h.kernelDir), pdeAddr, dirIndex_toNat]

theorem WF.table_ne_null (h : WF s) (virt : U32) (hp : Present (pde s (pageOf virt / 1024))) :
    pde s (pageOf virt / 1024) &&& frameMask ≠ 0 := by
  intro hz
  have hlt := pageOf_lt virt
  exact h.table_ne_zero _ (by omega) hp ((eq_zero_iff _).mp hz)

theorem pagingQuery_eq_some (s : State) (virt : U32) (ht : tableOf s (pageOf virt / 1024) ≠ 0)
    (hp : Present (pteAt s (pageOf virt))) :
    pagingQuery s virt =
      some (pteAt s (pageOf virt) &&& frameMask, pteAt s (pageOf virt) &&& 0xFFF) := by
  by_cases hd : Present (pde s (pageOf virt / 1024))
  · have hpt : pde s (pageOf virt / 1024) &&& frameMask ≠ 0 := by
      intro h0
      exact ht (by rw [tableOf, h0]; rfl)
    unfold pagingQuery
    rw [ptFor_of_present virt hd]
    simp only [hpt, if_false, pteAt_of_present virt rfl hd]
    exact if_neg hp
  · rw [pteAt, if_neg hd] at hp
    exact absurd rfl hp

theorem of_pagingQuery_eq_some {s : State} {virt : U32} {r : U32 × U32}
    (h : pagingQuery s virt = some r) :
    tableOf s (pageOf virt / 1024) ≠ 0 ∧ Present (pteAt s (pageOf virt)) := by
  by_cases hd : Present (pde s (pageOf virt / 1024))
  · unfold pagingQuery at h
    rw [ptFor_of_present virt hd] at h
    simp only [pteAt_of_present virt rfl hd] at h
    split at h
    · cases h
    · rename_i hpt
      split at h
      · cases h
      · rename_i hp
        exact ⟨fun h0 => hpt ((eq_zero_iff _).mpr h0), hp⟩
  · unfold pagingQuery at h
    rw [ptFor_of_not_present virt hd] at h
    cases h

theorem pagingQuery_eq (h : WF s) (virt : U32) :
    pagingQuery s virt = if Present (pteAt s (pageOf virt)) then
      some (pteAt s (pageOf virt) &&& frameMask, pteAt s (pageOf virt) &&& 0xFFF) else none := by
  by_cases he : Present (pteAt s (pageOf virt))
  · have hd : Present (pde s (pageOf virt / 1024)) := by
      by_contra hd
      rw [pteAt, if_neg hd] at he
      exact he rfl
    have hlt := pageOf_lt virt
    rw [if_pos he, pagingQuery_eq_some s virt (h.table_ne_zero _ (by omega) hd) he]
  · rw [if_neg he]
    cases hq : pagingQuery s virt with
    | none => rfl
    | some r => exact absurd (of_pagingQuery_eq_some hq).2 he

structure Mapped (s s' : State) (virt phys flags : U32) : Prop where
  effect : Effect s s' (fun p => if p = pageOf virt then entryOf phys flags else pteAt s p)
  slot : Present (pde s' (pageOf virt / 1024))
  count : s'.mapped = if Present (pteAt s (pageOf virt)) then s.mapped else s.mapped + 1

theorem setEntry_spec (h : WF s) (virt phys flags : U32)
    (hp : Present (pde s (pageOf virt / 1024))) :
    Mapped s (setEntry s (pde s (pageOf virt / 1024) &&& frameMask) virt phys flags)
      virt phys flags := by
  have hlt := pageOf_lt virt
  have hi : pageOf virt / 1024 < 1024 := by omega
  have hk : pageOf virt % 1024 < 1024 := Nat.mod_lt _ (by omega)
  have hpage : ∀ p, p = pageOf virt / 1024 * 1024 + pageOf virt % 1024 ↔ p = pageOf virt := by
    intro p
    omega
  obtain ⟨mapped, hmapped⟩ : ∃ m, m =
      if Present (pteAt s (pageOf virt)) then s.mapped else s.mapped + 1 := ⟨_, rfl⟩
  have hw := h.write_entry hi hk hp (entryOf phys flags) mapped
  simp only [hpage, ← pteAddr_eq] at hw
  obtain ⟨t, ht⟩ : ∃ t : State, t = { s with
    mem := write32 s.mem (pteAddr (pde s (pageOf virt / 1024) &&& frameMask) virt)
      (entryOf phys flags)
    mapped := mapped } := ⟨_, rfl⟩
  rw [← ht] at hw
  have hcount : mapped = if read32 s.mem (pteAddr (pde s (pageOf virt / 1024) &&& frameMask) virt)
      &&& pteP = 0 then s.mapped + 1 else s.mapped := by
    rw [hmapped, pteAt_of_present virt rfl hp]
    by_cases he : Present (pteAt s (pageOf virt))
    · rw [if_pos he, if_neg he]
    · rw [if_neg he, if_pos (not_not.mp he)]
  have htslot := (hw.ext.keeps _ hi hp).1
  have hset : setEntry s (pde s (pageOf virt / 1024) &&& frameMask) virt phys flags =
      if flags &&& pteUs ≠ 0 then { t with
        mem := write32 t.mem ((pdActive t).toNat + 4 * (pageOf virt / 1024))
          (pde t (pageOf virt / 1024) ||| (pteUs ||| pteRw)) } else t := by
    simp only [setEntry, ← hcount]
    have hpd : pdeAddr t virt = (pdActive t).toNat + 4 * (pageOf virt / 1024) := by
      rw [pdeAddr, dirIndex_toNat]
    rw [← read_pdeAddr t virt, ← hpd, ht]
    by_cases hus : flags &&& pteUs ≠ 0
    · rw [if_pos hus, if_pos hus]
      rfl
    · rw [if_neg hus, if_neg hus]
  rw [hset]
  split
  · have hf := hw.wf.write_flags hi
    refine ⟨⟨hf.wf, hw.ext.trans hf.ext, fun p hpg => ?_⟩, (hf.ext.keeps _ hi htslot).1, ?_⟩
    · rw [hf.entries p hpg, hw.entries p hpg]
    · rw [ht]
      exact hmapped
  · exact ⟨hw, htslot, by rw [ht]; exact hmapped⟩

/-- `paging_map` fails on unaligned arguments or when the table pool is used up, and then
changes nothing; otherwise it sets the entry of one page. -/
theorem pagingMap_cases (h : WF s) (virt phys flags : U32) :
    (pagingMap s virt phys flags = (false, s) ∧
      (virt.toNat % 4096 ≠ 0 ∨ phys.toNat % 4096 ≠ 0 ∨
        (¬ Present (pde s (pageOf virt / 1024)) ∧ 16 ≤ s.ptUsed.toNat))) ∨
    (virt.toNat % 4096 = 0 ∧ phys.toNat % 4096 = 0 ∧
      ∃ s', pagingMap s virt phys flags = (true, s') ∧ Mapped s s' virt phys flags) := by
  unfold pagingMap
  simp only [ne_eq, and_page_mask_eq_zero_iff]
  by_cases hal : ¬ virt.toNat % 4096 = 0 ∨ ¬ phys.toNat % 4096 = 0
  · refine Or.inl ⟨if_pos hal, ?_⟩
    rcases hal with hv | hv
    · exact Or.inl hv
    · exact Or.inr (Or.inl hv)
  rw [if_neg hal]
  have hv : virt.toNat % 4096 = 0 := by omega
  have hph : phys.toNat % 4096 = 0 := by omega
  have hlt := pageOf_lt virt
  have hi : pageOf virt / 1024 < 1024 := by omega
  by_cases hp : Present (pde s (pageOf virt / 1024))
  · rw [ptFor_of_present virt hp]
    refine Or.inr ⟨hv, hph, _, if_neg (h.table_ne_null virt hp), setEntry_spec h virt phys flags hp⟩
  · by_cases hfull : 16 ≤ s.ptUsed.toNat
    · refine Or.inl ⟨?_, Or.inr (Or.inr ⟨hp, hfull⟩)⟩
      rw [ptFor_of_full virt hp hfull]
      rfl
    · obtain ⟨hne, hpt, hframe, hnew⟩ := h.new_table hi hp (by omega)
      have hfor := h.ptFor_of_free virt hp (by omega)
      rw [hfor]
      have hset := setEntry_spec hnew.wf virt phys flags hpt
      rw [hframe] at hset
      refine Or.inr ⟨hv, hph, _, if_neg hne, ⟨hset.effect.wf, hnew.ext.trans hset.effect.ext,
        fun p hpg => ?_⟩, hset.slot, ?_⟩
      · rw [hset.effect.entries p hpg, hnew.entries p hpg]
      · rw [hset.count, hnew.entries (pageOf virt) hlt]

theorem pagingUnmap_spec (h : WF s) (virt : U32) :
    Effect s (pagingUnmap s virt) (fun p => if p = pageOf virt then 0 else pteAt s p) ∧
      (pagingUnmap s virt).mapped =
        if Present (pteAt s (pageOf virt)) then s.mapped - 1 else s.mapped := by
  have hlt := pageOf_lt virt
  have hi : pageOf virt / 1024 < 1024 := by omega
  unfold pagingUnmap
  by_cases hp : Present (pde s (pageOf virt / 1024))
  · have hpage : ∀ p, p = pageOf virt / 1024 * 1024 + pageOf virt % 1024 ↔ p = pageOf virt := by
      intro p
      omega
    rw [ptFor_of_present virt hp]
    simp only [h.table_ne_null virt hp, if_false, pteAt_of_present virt rfl hp]
    have hk : pageOf virt % 1024 < 1024 := Nat.mod_lt _ (by omega)
    have hw := h.write_entry hi hk hp 0
      (if Present (pteAt s (pageOf virt)) then s.mapped - 1 else s.mapped)
    simp only [hpage, ← pteAddr_eq] at hw
    exact ⟨hw, rfl⟩
  · have hz : pteAt s (pageOf virt) = 0 := by rw [pteAt, if_neg hp]
    rw [ptFor_of_not_present virt hp]
    refine ⟨⟨h, Extends.refl s, fun p _ => ?_⟩, by rw [hz]; rfl⟩
    by_cases hpv : p = pageOf virt
    · rw [if_pos hpv, hpv]
      exact hz
    · rw [if_neg hpv]
      rfl

end Ezos.Paging
