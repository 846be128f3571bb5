import Ezos.Exec.ElfContents
import Ezos.Lib.Overlay
import Ezos.Mem.PmmRuns

/-!
# What `unwind` gives back

`unwind` finds the frames to release by asking the page table. It gives back the frames
that the table still shows, which are all frames of the loaded segments exactly when no
later segment has been mapped over an earlier one.
-/

namespace Ezos.Elf

open Lib.Memory Lib.Overlay Paging Pmm

set_option autoImplicit false

variable {m m₀ m' : Machine} {va phys : U32} {n : Nat} {l : List ElfSeg}

theorem PoolPages.frame (h : PoolPages phys n) {k : Nat} (hk : k < n) :
    phys.toNat + k * 4096 = 0xA00000 + (firstPage phys + k) * 4096 ∧ firstPage phys + k < 1536 := by
  have h1 := h.aligned
  have h2 := h.above
  have h3 := h.below
  unfold firstPage
  omega

theorem alloc_cases (s : Pmm.State) (pages : U32) :
    pmmAllocPages s pages = (0, s) ∨
      ∃ phys s', pmmAllocPages s pages = (phys, s') ∧ phys ≠ 0 ∧ PoolPages phys pages.toNat ∧
        s'.ready = true ∧
        (∀ k, firstPage phys ≤ k → k < firstPage phys + pages.toNat → ¬ Allocated s k) ∧
        ∀ k, Allocated s' k ↔ Allocated s k ∨
          (firstPage phys ≤ k ∧ k < firstPage phys + pages.toNat) := by
  rcases pmmAllocPages_cases s pages with ⟨_, heq⟩ | ⟨hready, hn, first, hrun, heq⟩
  · exact Or.inl heq
  · have hn0 := toNat_ne_zero hn
    have hfit : first + pages.toNat ≤ 1536 := poolPages_toNat ▸ hrun.1
    have haddr := @pageAddr_toNat first (by omega)
    rw [poolStart_toNat] at haddr
    have hfirst : firstPage (poolStart + BitVec.ofNat 32 first * Pmm.pageSize) = first := by
      unfold firstPage
      omega
    refine Or.inr ⟨_, _, heq, ?_, ⟨by omega, by omega, by omega⟩, hready, ?_, ?_⟩
    · intro h
      have := (eq_zero_iff _).mp h
      omega
    · rw [hfirst]
      intro k h1 h2
      have := hrun.2 (k - first) (by omega)
      rwa [Nat.add_sub_cancel' h1] at this
    · rw [hfirst]
      exact allocated_setRange s hrun _

theorem free_run {s : Pmm.State} {pages : U32} (hready : s.ready = true) (hn : pages ≠ 0)
    (hpool : PoolPages phys pages.toNat)
    (hall : ∀ k < pages.toNat, Allocated s (firstPage phys + k)) :
    (pmmFreePages s phys pages).2.ready = true ∧
      ∀ k, Allocated (pmmFreePages s phys pages).2 k ↔
        Allocated s k ∧ ¬ (firstPage phys ≤ k ∧ k < firstPage phys + pages.toNat) := by
  have hr : PoolRange phys pages := ⟨hpool.aligned, hpool.above, hpool.below⟩
  rcases pmmFreePages_cases s hready phys pages with ⟨_, _, _, heq⟩ | ⟨hno, _⟩
  · rw [heq]
    exact ⟨hready, allocated_clearRange s hr _⟩
  · exact absurd ⟨hn, hr, hall⟩ hno

theorem free_page {s : Pmm.State} {f : Nat} (hready : s.ready = true) (hf : f < 1536)
    (hphys : phys.toNat = 0xA00000 + f * 4096) (hall : Allocated s f) :
    (pmmFreePage s phys).2.ready = true ∧
      ∀ k, Allocated (pmmFreePage s phys).2 k ↔ Allocated s k ∧ k ≠ f := by
  have hfirst : firstPage phys = f := by
    unfold firstPage
    omega
  have hone : (1 : U32).toNat = 1 := rfl
  have hpool : PoolPages phys (1 : U32).toNat := ⟨by omega, by omega, by omega⟩
  obtain ⟨hr, hfree⟩ := free_run hready (by decide) hpool fun k hk => by
    have hk0 : k = 0 := Nat.lt_one_iff.mp hk
    rw [hk0, Nat.add_zero, hfirst]
    exact hall
  refine ⟨hr, fun k => (hfree k).trans ?_⟩
  rw [hfirst, hone]
  constructor
  · rintro ⟨h1, h2⟩
    exact ⟨h1, by omega⟩
  · rintro ⟨h1, h2⟩
    exact ⟨h1, by omega⟩

structure Owned (m : Machine) (φ : Nat → Option Nat) : Prop where
  wf : WF m.pg
  owned : ∀ p f, φ p = some f → p < 2 ^ 20 ∧ f < 1536 ∧ m.pmm.ready = true ∧ Allocated m.pmm f ∧
    Present (pteAt m.pg p) ∧ (pteAt m.pg p &&& frameMask).toNat = 0xA00000 + f * 4096
  inj : ∀ p q f, φ p = some f → φ q = some f → p = q

structure Undone (m m' : Machine) (φ : Nat → Option Nat) (Q : Nat → Prop) : Prop where
  wf : WF m'.pg
  ext : Extends m.pg m'.pg
  ready : m'.pmm.ready = m.pmm.ready
  alloc : ∀ k, Allocated m'.pmm k ↔ Allocated m.pmm k ∧ ∀ p, Q p → φ p ≠ some k
  gone : ∀ p < 2 ^ 20, Q p → pteAt m'.pg p = 0
  kept : ∀ p < 2 ^ 20, ¬ Q p → pteAt m'.pg p = pteAt m.pg p

theorem not_present_zero : ¬ Present 0 := by decide

variable {φ : Nat → Option Nat} {Q : Nat → Prop}

theorem Owned.undone_nil (h : Owned m φ) : Undone m m φ (fun _ => False) :=
  ⟨h.wf, Extends.refl _, rfl, fun _ => ⟨fun ha => ⟨ha, fun _ hf => hf.elim⟩, And.left⟩,
    fun _ _ hf => hf.elim, fun _ _ _ => rfl⟩

theorem Undone.page (h : Undone m m' φ Q) (ho : Owned m φ) (va : U32)
    (hva : ∃ f, φ (pageOf va) = some f) :
    Undone m
      { pmm := match pagingQuery m'.pg va with
          | some (phys, _) => (pmmFreePage m'.pmm phys).2
          | none => m'.pmm
        pg := pagingUnmap m'.pg va } φ (fun p => Q p ∨ p = pageOf va) := by
  obtain ⟨f, hf⟩ := hva
  have hlt := pageOf_lt va
  obtain ⟨-, hf1536, hready, hall, hpres, hframe⟩ := ho.owned _ f hf
  have hun := (pagingUnmap_spec h.wf va).1
  have hgone : ∀ p < 2 ^ 20, Q p ∨ p = pageOf va → pteAt (pagingUnmap m'.pg va) p = 0 := by
    intro p hp hq
    rw [hun.entries p hp]
    by_cases hpv : p = pageOf va
    · rw [if_pos hpv]
    · rw [if_neg hpv]
      exact h.gone p hp (hq.resolve_right hpv)
  have hkept : ∀ p < 2 ^ 20, ¬ (Q p ∨ p = pageOf va) →
      pteAt (pagingUnmap m'.pg va) p = pteAt m.pg p := by
    intro p hp hq
    rw [hun.entries p hp, if_neg fun hpv => hq (Or.inr hpv)]
    exact h.kept p hp fun hqp => hq (Or.inl hqp)
  rw [pagingQuery_eq h.wf]
  by_cases hq : Q (pageOf va)
  · -- already undone by an earlier segment
    rw [h.gone _ hlt hq, if_neg not_present_zero]
    refine ⟨hun.wf, h.ext.trans hun.ext, h.ready, fun k => ?_, hgone, hkept⟩
    rw [h.alloc k]
    constructor
    · rintro ⟨hk, hno⟩
      refine ⟨hk, fun p hp => ?_⟩
      rcases hp with hp | rfl
      · exact hno p hp
      · exact hno _ hq
    · rintro ⟨hk, hno⟩
      exact ⟨hk, fun p hp => hno p (Or.inl hp)⟩
  · rw [h.kept _ hlt hq, if_pos hpres]
    have hall' : Allocated m'.pmm f :=
      (h.alloc f).mpr ⟨hall, fun p hp hpf => hq (ho.inj p _ f hpf hf ▸ hp)⟩
    obtain ⟨hr', hfree⟩ := free_page (h.ready.trans hready) hf1536 hframe hall'
    refine ⟨hun.wf, h.ext.trans hun.ext, hr'.trans hready.symm, fun k => ?_, hgone, hkept⟩
    rw [hfree k, h.alloc k]
    constructor
    · rintro ⟨⟨hk, hno⟩, hkf⟩
      refine ⟨hk, fun p hp => ?_⟩
      rcases hp with hp | rfl
      · exact hno p hp
      · intro hpf
        exact hkf (Option.some.inj (hpf.symm.trans hf))
    · rintro ⟨hk, hno⟩
      refine ⟨⟨hk, fun p hp => hno p (Or.inl hp)⟩, fun hkf => ?_⟩
      exact hno _ (Or.inr rfl) (hkf ▸ hf)

theorem Undone.congr {Q' : Nat → Prop} (h : Undone m m' φ Q) (hq : ∀ p, Q' p ↔ Q p) :
    Undone m m' φ Q' := by
  obtain rfl : Q' = Q := funext fun p => propext (hq p)
  exact h

theorem unwindPages_spec (ho : Owned m φ) (himg : ImagePages va n) (h : Undone m m' φ Q)
    (hφ : ∀ p, pageOf va ≤ p → p < pageOf va + n → ∃ f, φ p = some f) :
    Undone m (unwindPages m' va n) φ
      (fun p => Q p ∨ (pageOf va ≤ p ∧ p < pageOf va + n)) := by
  induction n generalizing m' va Q with
  | zero =>
    refine h.congr fun p => ⟨fun hp => hp.resolve_right (by omega), Or.inl⟩
  | succ n ih =>
    have hbelow := himg.below
    have habove := himg.above
    have hal := himg.aligned
    have hpage := h.page ho va (hφ _ (Nat.le_refl _) (by omega))
    have hnext : (va + Pmm.pageSize).toNat = va.toNat + 4096 := by
      unfold pageOf at hbelow
      have hs : Pmm.pageSize.toNat = 4096 := rfl
      rw [BitVec.toNat_add, hs]
      omega
    have hpageOf : pageOf (va + Pmm.pageSize) = pageOf va + 1 := by
      unfold pageOf
      omega
    have himg' : ImagePages (va + Pmm.pageSize) n := ⟨by omega, by omega, by omega⟩
    have hrest := ih himg' hpage fun p h1 h2 => hφ p (by omega) (by omega)
    rw [unwindPages]
    refine hrest.congr fun p => ?_
    rw [hpageOf]
    constructor
    · rintro (hp | hp)
      · exact Or.inl (Or.inl hp)
      · by_cases he : p = pageOf va
        · exact Or.inl (Or.inr he)
        · exact Or.inr ⟨by omega, by omega⟩
    · rintro ((hp | hp) | hp)
      · exact Or.inl hp
      · exact Or.inr ⟨by omega, by omega⟩
      · exact Or.inr ⟨by omega, by omega⟩

end Ezos.Elf
