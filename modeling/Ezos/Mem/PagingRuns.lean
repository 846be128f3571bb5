import Mathlib.Data.Finset.Card
import Mathlib.Data.Finset.Range
import Ezos.Mem.PagingCalls

/-!
# Page tables refine a flat map

The abstract state is the log of successful map and unmap calls; the answer for a page is
the newest event on that page. The two-level structure answers every query from the log,
whatever the interleaving and also when the table pool runs out.
-/

namespace Ezos.Paging

open Lib.Memory

set_option autoImplicit false

inductive Op where
  | map (virt phys flags : U32)
  | unmap (virt : U32)

inductive Event where
  | mapped (virt phys flags : U32)
  | unmapped (virt : U32)

/-- An empty kernel directory in otherwise arbitrary memory, before or after `CR3` is loaded. -/
def emptyState (m : Mem) (ready : Bool) : State :=
  { mem := fill m 0x200000 4096 0, ptUsed := 0, mapped := 0, ready := ready, cr3 := pagingPdAddr }

def step (c : State × List Event) : Op → State × List Event
  | .map virt phys flags =>
    let r := pagingMap c.1 virt phys flags
    (r.2, if r.1 then .mapped virt phys flags :: c.2 else c.2)
  | .unmap virt => (pagingUnmap c.1 virt, .unmapped virt :: c.2)

def run (m : Mem) (ready : Bool) (ops : List Op) : State × List Event :=
  ops.foldl step (emptyState m ready, [])

/-- Page and flags of the last map of `page` not followed by an unmap; `shown` is how the flags
of a mapping are reported. -/
def lastMapping (shown : U32 → U32) : List Event → Nat → Option (U32 × U32)
  | [], _ => none
  | .mapped virt phys flags :: log, page =>
    if pageOf virt = page then some (phys, shown flags) else lastMapping shown log page
  | .unmapped virt :: log, page =>
    if pageOf virt = page then none else lastMapping shown log page

def entryFlags (flags : U32) : U32 := (flags &&& 0xFFF) ||| pteP

def answer (e : U32) : Option (U32 × U32) :=
  if Present e then some (e &&& frameMask, e &&& 0xFFF) else none

def presentPages (s : State) : Finset Nat := (Finset.range (2 ^ 20)).filter fun p => Present (pteAt s p)

theorem answer_entryOf {phys : U32} (hal : phys.toNat % 4096 = 0) (flags : U32) :
    answer (entryOf phys flags) = some (phys, entryFlags flags) := by
  rw [answer, if_pos (present_entryOf phys flags), entryOf_frame, entryOf_flags,
    and_frameMask_of_aligned hal, entryFlags]

theorem answer_zero : answer 0 = none := by decide

variable {s s' : State} {q : Nat} {v : U32}

theorem mem_presentPages {p : Nat} : p ∈ presentPages s ↔ p < 2 ^ 20 ∧ Present (pteAt s p) := by
  simp [presentPages]

theorem presentPages_set (hq : q < 2 ^ 20) (hv : Present v)
    (h : Effect s s' (fun p => if p = q then v else pteAt s p)) :
    presentPages s' = insert q (presentPages s) := by
  ext p
  rw [Finset.mem_insert, mem_presentPages, mem_presentPages]
  constructor
  · rintro ⟨hp, hpres⟩
    rw [h.entries p hp] at hpres
    by_cases hpq : p = q
    · exact Or.inl hpq
    · rw [if_neg hpq] at hpres
      exact Or.inr ⟨hp, hpres⟩
  · intro hp
    by_cases hpq : p = q
    · rw [hpq, h.entries q hq, if_pos rfl]
      exact ⟨hq, hv⟩
    · obtain ⟨hlt, hpres⟩ := hp.resolve_left hpq
      rw [h.entries p hlt, if_neg hpq]
      exact ⟨hlt, hpres⟩

theorem presentPages_clear (h : Effect s s' (fun p => if p = q then 0 else pteAt s p)) :
    presentPages s' = (presentPages s).erase q := by
  ext p
  rw [Finset.mem_erase, mem_presentPages, mem_presentPages]
  constructor
  · rintro ⟨hp, hpres⟩
    rw [h.entries p hp] at hpres
    by_cases hpq : p = q
    · rw [if_pos hpq] at hpres
      exact absurd rfl hpres
    · rw [if_neg hpq] at hpres
      exact ⟨hpq, hp, hpres⟩
  · rintro ⟨hpq, hp, hpres⟩
    rw [h.entries p hp, if_neg hpq]
    exact ⟨hp, hpres⟩

theorem card_presentPages_le (s : State) : (presentPages s).card ≤ 2 ^ 20 := by
  calc (presentPages s).card ≤ (Finset.range (2 ^ 20)).card := Finset.card_filter_le _ _
    _ = 2 ^ 20 := Finset.card_range _

structure RunInv (s₀ : State) (c : State × List Event) : Prop where
  wf : WF c.1
  ext : Extends s₀ c.1
  view : ∀ p < 2 ^ 20, answer (pteAt c.1 p) = lastMapping entryFlags c.2 p
  count : c.1.mapped.toNat = (presentPages c.1).card

theorem emptyState_dir (m : Mem) (ready : Bool) : pdActive (emptyState m ready) = pagingPdAddr := by
  have hmask : pagingPdAddr &&& frameMask = pagingPdAddr := by decide
  cases ready with
  | false => rfl
  | true => exact hmask

theorem emptyState_pde (m : Mem) (ready : Bool) {i : Nat} (hi : i < 1024) :
    pde (emptyState m ready) i = 0 := by
  have hpd : (pdActive (emptyState m ready)).toNat = 0x200000 := by
    rw [emptyState_dir]
    rfl
  rw [pde, hpd]
  exact read32_fill_zero _ (by omega) (by omega)

theorem emptyState_inv (m : Mem) (ready : Bool) :
    RunInv (emptyState m ready) (emptyState m ready, []) := by
  have habs : ∀ i < 1024, ¬ Present (pde (emptyState m ready) i) := fun i hi => by
    rw [emptyState_pde m ready hi]
    decide
  have hpte : ∀ p < 2 ^ 20, pteAt (emptyState m ready) p = 0 := fun p hp =>
    if_neg (habs _ (by omega))
  refine ⟨⟨emptyState_dir m ready, Nat.zero_le 16, ?_, ?_, ?_, ?_⟩, Extends.refl _, ?_, ?_⟩
  · exact fun i hi hp => absurd hp (habs i hi)
  · exact fun i hi hp => absurd hp (habs i hi)
  · exact fun i hi hp => absurd hp (habs i hi)
  · exact fun i hi _ _ hp => absurd hp (habs i hi)
  · intro p hp
    change answer (pteAt (emptyState m ready) p) = none
    rw [hpte p hp, answer_zero]
  · have hnone : presentPages (emptyState m ready) = ∅ := by
      apply Finset.filter_eq_empty_iff.mpr
      intro p hp
      rw [hpte p (Finset.mem_range.mp hp)]
      decide
    rw [hnone]
    rfl

theorem step_map_inv {s₀ : State} {c : State × List Event} (h : RunInv s₀ c)
    (virt phys flags : U32) : RunInv s₀ (step c (.map virt phys flags)) := by
  rcases pagingMap_cases h.wf virt phys flags with ⟨heq, _⟩ | ⟨_, hal, s', heq, hm⟩
  · simp only [step, heq]
    exact h
  · simp only [step, heq]
    have hq := pageOf_lt virt
    refine ⟨hm.effect.wf, h.ext.trans hm.effect.ext, fun p hp => ?_, ?_⟩
    · change answer (pteAt s' p) = if pageOf virt = p then some (phys, entryFlags flags)
        else lastMapping entryFlags c.2 p
      rw [hm.effect.entries p hp]
      by_cases hpq : p = pageOf virt
      · rw [if_pos hpq, if_pos hpq.symm, answer_entryOf hal]
      · rw [if_neg hpq, if_neg (Ne.symm hpq), h.view p hp]
    · change s'.mapped.toNat = (presentPages s').card
      have hcount := h.count
      have hset := presentPages_set hq (present_entryOf phys flags) hm.effect
      rw [hset, hm.count]
      by_cases hpres : Present (pteAt c.1 (pageOf virt))
      · rw [if_pos hpres, Finset.insert_eq_of_mem (mem_presentPages.mpr ⟨hq, hpres⟩), hcount]
      · have hnot : pageOf virt ∉ presentPages c.1 := fun hmem =>
          hpres (mem_presentPages.mp hmem).2
        have hle := card_presentPages_le s'
        rw [hset, Finset.card_insert_of_notMem hnot] at hle
        rw [if_neg hpres, Finset.card_insert_of_notMem hnot, BitVec.toNat_add, hcount]
        change ((presentPages c.1).card + 1) % 2 ^ 32 = _
        exact Nat.mod_eq_of_lt (by omega)

theorem step_unmap_inv {s₀ : State} {c : State × List Event} (h : RunInv s₀ c) (virt : U32) :
    RunInv s₀ (step c (.unmap virt)) := by
  obtain ⟨heff, hcnt⟩ := pagingUnmap_spec h.wf virt
  refine ⟨heff.wf, h.ext.trans heff.ext, fun p hp => ?_, ?_⟩
  · change answer (pteAt (pagingUnmap c.1 virt) p) = if pageOf virt = p then none
      else lastMapping entryFlags c.2 p
    rw [heff.entries p hp]
    by_cases hpq : p = pageOf virt
    · rw [if_pos hpq, if_pos hpq.symm, answer_zero]
    · rw [if_neg hpq, if_neg (Ne.symm hpq), h.view p hp]
  · change (pagingUnmap c.1 virt).mapped.toNat = (presentPages (pagingUnmap c.1 virt)).card
    have hcount := h.count
    rw [presentPages_clear heff, hcnt]
    by_cases hpres : Present (pteAt c.1 (pageOf virt))
    · have hmem := mem_presentPages.mpr ⟨pageOf_lt virt, hpres⟩
      have hpos := Finset.card_pos.mpr ⟨_, hmem⟩
      have hlt := c.1.mapped.isLt
      rw [if_pos hpres, Finset.card_erase_of_mem hmem, BitVec.toNat_sub, ← hcount]
      change (2 ^ 32 - 1 + c.1.mapped.toNat) % 2 ^ 32 = _
      omega
    · rw [if_neg hpres, Finset.erase_eq_of_notMem (fun hmem => hpres (mem_presentPages.mp hmem).2),
        hcount]

theorem run_inv (m : Mem) (ready : Bool) (ops : List Op) :
    RunInv (emptyState m ready) (run m ready ops) := by
  refine List.foldlRecOn ops step (emptyState_inv m ready) fun c h op _ => ?_
  cases op with
  | map virt phys flags => exact step_map_inv h virt phys flags
  | unmap virt => exact step_unmap_inv h virt

structure RunSpec (s : State) (log : List Event) : Prop where
  query_eq : ∀ v, pagingQuery s v = lastMapping entryFlags log (pageOf v)
  map_other : ∀ virt phys flags v, pageOf v ≠ pageOf virt →
    pagingQuery (pagingMap s virt phys flags).2 v = pagingQuery s v
  unmap_other : ∀ virt v, pageOf v ≠ pageOf virt → pagingQuery (pagingUnmap s virt) v = pagingQuery s v
  map_fail : ∀ virt phys flags, (pagingMap s virt phys flags).1 = false →
    ∀ v, pagingQuery (pagingMap s virt phys flags).2 v = pagingQuery s v
  from_pool : ∀ i < 1024, Present (pde s i) → ∃ k < 16, tableOf s i = 0x201000 + k * 4096
  no_sharing : ∀ i < 1024, ∀ j < 1024, Present (pde s i) → Present (pde s j) →
    tableOf s i = tableOf s j → i = j
  count : s.mapped.toNat = (presentPages s).card

theorem pagingQuery_eq_answer (h : WF s) (virt : U32) :
    pagingQuery s virt = answer (pteAt s (pageOf virt)) := pagingQuery_eq h virt

theorem query_of_effect (h : WF s) (heff : Effect s s' (fun p => if p = q then v else pteAt s p))
    {virt : U32} (hne : pageOf virt ≠ q) : pagingQuery s' virt = pagingQuery s virt := by
  rw [pagingQuery_eq_answer heff.wf, pagingQuery_eq_answer h, heff.entries _ (pageOf_lt virt),
    if_neg hne]

/-- Every run from an empty kernel directory refines the flat map. -/
theorem run_paging_spec (m : Mem) (ready : Bool) (ops : List Op) :
    RunSpec (run m ready ops).1 (run m ready ops).2 := by
  have h := run_inv m ready ops
  refine ⟨fun v => ?_, fun virt phys flags v hne => ?_, fun virt v hne => ?_,
    fun virt phys flags hf v => ?_, fun i hi hp => ?_, h.wf.table_inj, h.count⟩
  · rw [pagingQuery_eq_answer h.wf, h.view _ (pageOf_lt v)]
  · rcases pagingMap_cases h.wf virt phys flags with ⟨heq, _⟩ | ⟨_, _, s', heq, hm⟩
    · rw [heq]
    · rw [heq]
      exact query_of_effect h.wf hm.effect hne
  · exact query_of_effect h.wf (pagingUnmap_spec h.wf virt).1 hne
  · rcases pagingMap_cases h.wf virt phys flags with ⟨heq, _⟩ | ⟨_, _, s', heq, _⟩
    · rw [heq]
    · rw [heq] at hf
      contradiction
  · refine h.ext.fresh i hi hp ?_
    rw [emptyState_pde m ready hi]
    decide

/-- A query does not return the flags as they were passed: the present bit is added to them. -/
theorem pagingQuery_adds_present :
    ¬ ∀ (m : Mem) (ready : Bool) (ops : List Op) (v : U32),
      pagingQuery (run m ready ops).1 v = lastMapping id (run m ready ops).2 (pageOf v) := by
  intro h
  have hq := h (fun _ => 0) true [.map 0x400000 0xA00000 pteRw] 0x400000
  have hok : (pagingMap (emptyState (fun _ => 0) true) 0x400000 0xA00000 pteRw).1 = true := by decide
  rw [(run_paging_spec _ _ _).query_eq] at hq
  revert hq
  simp only [run, List.foldl, step, hok]
  decide

end Ezos.Paging
