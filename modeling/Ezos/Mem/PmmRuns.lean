import Ezos.Mem.Pmm

/-!
# The page allocator over whole runs

`Inv` is kept by every call with arbitrary 32-bit arguments, so the specifications of
the two calls hold in every state that a sequence of calls can reach.
-/

namespace Ezos.Pmm

open Lib.WordBitmap Lib

set_option autoImplicit false

theorem pmmInit_inv : Inv (pmmInit bss) where
  ready := rfl
  used := by
    rw [allocatedPages, pmmInit, BitVec.ofNat_eq_ofNat, members_replicate_zero bits_pos]
    rfl

theorem allocated_setRange (s : State) {first n : Nat} (h : FreeRun s first n) (u : U32) (i : Nat) :
    Allocated { s with bitmap := setRange s.bitmap first n, used := u } i ↔
      Allocated s i ∨ (first ≤ i ∧ i < first + n) := by
  have hfit : first + n ≤ bitsPerWord * bitmapWords := words_cover ▸ h.1
  simp only [Allocated, bitGet_setRange bits_pos _ hfit, Bool.or_eq_true, decide_eq_true_eq]
  exact or_comm

theorem allocated_clearRange (s : State) {phys n : U32} (h : PoolRange phys n) (u : U32) (i : Nat) :
    Allocated { s with bitmap := clearRange s.bitmap (firstPage phys) n.toNat, used := u } i ↔
      Allocated s i ∧ ¬ (firstPage phys ≤ i ∧ i < firstPage phys + n.toNat) := by
  simp only [Allocated, bitGet_clearRange bits_pos _ h.fits, Bool.and_eq_true, Bool.not_eq_true',
    decide_eq_false_iff_not]
  exact and_comm

theorem card_setRange (s : State) {first n : Nat} (h : FreeRun s first n) (u : U32) :
    (allocatedPages { s with bitmap := setRange s.bitmap first n, used := u }).card =
      (allocatedPages s).card + n := by
  have hfit : first + n ≤ bitsPerWord * bitmapWords := words_cover ▸ h.1
  have hfree : ∀ k < n, bitGet s.bitmap (first + k) = false := by
    intro k hk
    simpa [Allocated] using h.2 k hk
  exact card_members_setRange bits_pos s.bitmap hfit hfree

theorem pmmAllocPages_inv {s : State} (hs : Inv s) (n : U32) : Inv (pmmAllocPages s n).2 := by
  rcases pmmAllocPages_cases s n with ⟨_, heq⟩ | ⟨_, _, first, hrun, heq⟩
  · rw [heq]
    exact hs
  · rw [heq]
    refine ⟨hs.ready, ?_⟩
    have hcard := card_setRange s hrun (s.used + n)
    have hle := card_allocatedPages_le
      { s with bitmap := setRange s.bitmap first n.toNat, used := s.used + n }
    have hused := hs.used
    rw [hcard] at hle ⊢
    rw [BitVec.toNat_add]
    omega

theorem pmmFreePages_inv {s : State} (hs : Inv s) (phys n : U32) :
    Inv (pmmFreePages s phys n).2 := by
  rcases pmmFreePages_cases s hs.ready phys n with ⟨_, hr, hall, heq⟩ | ⟨_, heq⟩
  · rw [heq]
    refine ⟨hs.ready, ?_⟩
    have hcard : n.toNat ≤ (allocatedPages s).card := by
      rw [← Nat.add_sub_cancel_left (n := firstPage phys) (m := n.toNat), ← Nat.card_Ico]
      apply Finset.card_le_card
      intro i hi
      obtain ⟨hlo, hhi⟩ := Finset.mem_Ico.mp hi
      have hu := hall (i - firstPage phys) (by omega)
      rw [Nat.add_sub_cancel' hlo] at hu
      have hfit := hr.fits
      rw [words_cover] at hfit
      exact mem_allocatedPages.mpr ⟨by omega, hu⟩
    have hused := hs.used
    have hn := n.isLt
    have hlt := s.used.isLt
    rw [allocatedPages, card_members_clearRange bits_pos s.bitmap hr.fits hall, BitVec.toNat_sub]
    rw [allocatedPages] at hcard hused
    omega
  · rw [heq]
    exact hs

theorem apply_inv {s : State} (hs : Inv s) (op : Op) : Inv (apply s op) := by
  cases op with
  | allocPages n => exact pmmAllocPages_inv hs n
  | freePages phys n => exact pmmFreePages_inv hs phys n

theorem run_inv (ops : List Op) : Inv (run ops) :=
  List.foldlRecOn ops apply pmmInit_inv fun _ hs op _ => apply_inv hs op

/-- What `pmm_alloc_pages(n)` does in state `s`. -/
structure AllocSpec (s : State) (n : U32) : Prop where
  zero_iff : (pmmAllocPages s n).1 = 0 ↔
    n = 0 ∨ n > poolPages ∨ ¬ ∃ first, FreeRun s first n.toNat
  zero_unchanged : (pmmAllocPages s n).1 = 0 → (pmmAllocPages s n).2 = s
  nonzero_run : (pmmAllocPages s n).1 ≠ 0 → ∃ first, FreeRun s first n.toNat ∧
    (pmmAllocPages s n).1.toNat = poolStart.toNat + first * pageSize.toNat ∧
    ∀ i, Allocated (pmmAllocPages s n).2 i ↔ Allocated s i ∨ (first ≤ i ∧ i < first + n.toNat)

/-- What `pmm_free_pages(phys, n)` does in state `s`. -/
structure FreeSpec (s : State) (phys n : U32) : Prop where
  ok_iff : (pmmFreePages s phys n).1 = true ↔
    n ≠ 0 ∧ PoolRange phys n ∧ ∀ k < n.toNat, Allocated s (firstPage phys + k)
  ok_frees : (pmmFreePages s phys n).1 = true → ∀ i, Allocated (pmmFreePages s phys n).2 i ↔
    Allocated s i ∧ ¬ (firstPage phys ≤ i ∧ i < firstPage phys + n.toNat)
  fail_unchanged : (pmmFreePages s phys n).1 = false → (pmmFreePages s phys n).2 = s

theorem pageAddr_toNat {first : Nat} (h : first < 1536) :
    (poolStart + BitVec.ofNat 32 first * pageSize).toNat = poolStart.toNat + first * 4096 := by
  rw [BitVec.toNat_add, BitVec.toNat_mul, BitVec.toNat_ofNat, poolStart_toNat, pageSize_toNat]
  omega

theorem pmmAllocPages_spec {s : State} (hs : Inv s) (n : U32) : AllocSpec s n := by
  rcases pmmAllocPages_cases s n with ⟨hwhy, heq⟩ | ⟨_, hn, first, hrun, heq⟩
  · refine ⟨⟨fun _ => ?_, fun _ => by rw [heq]⟩, fun _ => by rw [heq], fun h => ?_⟩
    · rcases hwhy with h | h | h | h
      · rw [hs.ready] at h
        contradiction
      · exact Or.inl h
      · exact Or.inr (Or.inl h)
      · exact Or.inr (Or.inr h)
    · rw [heq] at h
      contradiction
  · have hn0 := toNat_ne_zero hn
    have hfit : first + n.toNat ≤ 1536 := poolPages_toNat ▸ hrun.1
    have haddr := @pageAddr_toNat first (by omega)
    have hne : poolStart + BitVec.ofNat 32 first * pageSize ≠ 0 := by
      intro h
      rw [(eq_zero_iff _).mp h, poolStart_toNat] at haddr
      omega
    refine ⟨⟨fun h => ?_, fun h => ?_⟩, fun h => ?_, fun _ => ?_⟩
    · rw [heq] at h
      exact absurd h hne
    · rcases h with h | h | h
      · exact absurd h hn
      · rw [gt_iff_lt, BitVec.lt_def, poolPages_toNat] at h
        omega
      · exact absurd ⟨first, hrun⟩ h
    · rw [heq] at h
      exact absurd h hne
    · rw [heq]
      exact ⟨first, hrun, haddr, allocated_setRange s hrun _⟩

theorem pmmAllocPages_card {s : State} {n : U32} (h : (pmmAllocPages s n).1 ≠ 0) :
    (allocatedPages (pmmAllocPages s n).2).card = (allocatedPages s).card + n.toNat := by
  rcases pmmAllocPages_cases s n with ⟨_, heq⟩ | ⟨_, _, first, hrun, heq⟩
  · rw [heq] at h
    contradiction
  · rw [heq]
    exact card_setRange s hrun _

structure Packed (s : State) (used : Nat) : Prop where
  ready : s.ready = true
  pages : ∀ k, Allocated s k ↔ k < used

theorem pmmInit_packed : Packed (pmmInit bss) 0 :=
  ⟨rfl, fun k => by simp [Allocated, pmmInit, bitGet_replicate_zero bits_pos]⟩

theorem Packed.alloc {s : State} {used : Nat} (h : Packed s used) {n : U32} (hn : n ≠ 0)
    (hfit : used + n.toNat ≤ 1536) :
    (pmmAllocPages s n).1 ≠ 0 ∧ Packed (pmmAllocPages s n).2 (used + n.toNat) := by
  have hpos : 0 < n.toNat := Nat.pos_of_ne_zero (toNat_ne_zero hn)
  have hwindow : FirstFit.Window (fun i => !bitGet s.bitmap i) n.toNat used :=
    (window_iff s used _).mpr fun k _ hk => by
      have := (h.pages _).mp hk
      omega
  have hok : ¬ (s.ready = false ∨ n = 0 ∨ n > poolPages) := by
    rw [h.ready, gt_iff_lt, BitVec.lt_def, poolPages_toNat]
    rintro (hr | hz | hlt)
    · contradiction
    · exact hn hz
    · omega
  have hsearch : FirstFit.search (fun i => !bitGet s.bitmap i) n.toNat poolPages.toNat = some used := by
    cases hs : FirstFit.search (fun i => !bitGet s.bitmap i) n.toNat poolPages.toNat with
    | none => exact absurd hwindow (FirstFit.search_none hpos hs (by rw [poolPages_toNat]; omega))
    | some f =>
      obtain ⟨_, hw, hlow⟩ := FirstFit.search_some hpos hs
      have hfree := (window_iff s f _).mp hw 0 hpos
      rw [Nat.add_zero, h.pages f] at hfree
      have hge : ¬ used < f := fun hlt => hlow used hlt hwindow
      rw [show f = used by omega]
  have heq : pmmAllocPages s n = (poolStart + BitVec.ofNat 32 used * pageSize,
      { s with bitmap := setRange s.bitmap used n.toNat, used := s.used + n }) := by
    rw [pmmAllocPages, if_neg hok, hsearch]
  have hrun : FreeRun s used n.toNat := ⟨poolPages_toNat ▸ hfit, (window_iff s used _).mp hwindow⟩
  rw [heq]
  refine ⟨fun hz => ?_, h.ready, fun k => ?_⟩
  · have haddr := @pageAddr_toNat used (by omega)
    rw [(eq_zero_iff _).mp hz, poolStart_toNat] at haddr
    omega
  · rw [allocated_setRange s hrun, h.pages k]
    omega

theorem pmmFreePages_spec {s : State} (hs : Inv s) (phys n : U32) : FreeSpec s phys n := by
  rcases pmmFreePages_cases s hs.ready phys n with ⟨hn, hr, hall, heq⟩ | ⟨hno, heq⟩
  · refine ⟨⟨fun _ => ⟨hn, hr, hall⟩, fun _ => by rw [heq]⟩, fun _ => ?_, fun h => ?_⟩
    · rw [heq]
      exact allocated_clearRange s hr _
    · rw [heq] at h
      contradiction
  · refine ⟨⟨fun h => ?_, fun h => absurd h hno⟩, fun h => ?_, fun _ => by rw [heq]⟩
    all_goals
      rw [heq] at h
      contradiction

/-- In every state reached from `pmm_init` the counter is exact and both calls meet their
specification for all 32-bit arguments. -/
theorem run_pmm_spec (ops : List Op) :
    (run ops).used.toNat = (allocatedPages (run ops)).card ∧
      (∀ n, AllocSpec (run ops) n) ∧ (∀ phys n, FreeSpec (run ops) phys n) :=
  ⟨(run_inv ops).used, pmmAllocPages_spec (run_inv ops), pmmFreePages_spec (run_inv ops)⟩

/-- The empty range at the start of the pool is page aligned, lies in the pool and has no free
page, yet its release is refused: `in_pool` rejects `n = 0`. -/
theorem pmmFreePages_empty_refused :
    ¬ ∀ (ops : List Op) (phys n : U32), (pmmFreePages (run ops) phys n).1 = true ↔
      PoolRange phys n ∧ ∀ k < n.toNat, Allocated (run ops) (firstPage phys + k) := by
  intro h
  have hfalse : (pmmFreePages (run []) poolStart 0).1 = false := by decide
  have htrue := (h [] poolStart 0).mpr ⟨⟨by decide, by decide, by decide⟩, by simp⟩
  rw [hfalse] at htrue
  contradiction

end Ezos.Pmm
