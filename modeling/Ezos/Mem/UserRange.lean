import Ezos.Mem.PagingCalls

/-!
# The pointer check of the system calls (`user_range_ok` of `kernel/syscall.c`)

The loop steps over the pages of the range on 32-bit addresses and has no bound of its own;
it is given fuel here and shown to need at most one unit for each of the `2^20` pages.
-/

namespace Ezos.Syscall

open Paging Lib.Memory

set_option autoImplicit false

def pageOk (s : State) (writable : Bool) (p : U32) : Bool :=
  match pagingQuery s p with
  | none => false
  | some (_, flags) =>
    if flags &&& pteUs = 0 then false
    else if writable ∧ flags &&& pteRw = 0 then false
    else true

def pages (s : State) (writable : Bool) (last : U32) : Nat → U32 → Option Bool
  | 0, _ => none
  | fuel + 1, p =>
    if pageOk s writable p = false then some false
    else if p = last then some true
    else pages s writable last fuel (p + 0x1000)

def userRangeOk (fuel : Nat) (s : State) (va len : U32) (writable : Bool) : Option Bool :=
  if len = 0 then some true
  else if va + len < va then some false
  else pages s writable ((va + len - 1) &&& frameMask) fuel (va &&& frameMask)

structure UserPage (s : State) (writable : Bool) (p : Nat) : Prop where
  table : tableOf s (p / 1024) ≠ 0
  present : Present (pteAt s p)
  user : pteAt s p &&& pteUs ≠ 0
  write : writable = true → pteAt s p &&& pteRw ≠ 0

theorem flag_of_low_bits (e : U32) (k : U32) (hk : (0xFFF : U32) &&& k = k) :
    e &&& 0xFFF &&& k = e &&& k := by
  rw [BitVec.and_assoc, hk]

theorem pageOk_iff (s : State) (writable : Bool) (p : U32) :
    pageOk s writable p = true ↔ UserPage s writable (pageOf p) := by
  by_cases hex : tableOf s (pageOf p / 1024) ≠ 0 ∧ Present (pteAt s (pageOf p))
  · obtain ⟨ht, hp⟩ := hex
    rw [pageOk, pagingQuery_eq_some s p ht hp]
    simp only [flag_of_low_bits _ pteUs rfl, flag_of_low_bits _ pteRw rfl]
    constructor
    · intro h
      by_cases hu : pteAt s (pageOf p) &&& pteUs = 0
      · rw [if_pos hu] at h
        cases h
      · rw [if_neg hu] at h
        refine ⟨ht, hp, hu, fun hw h0 => ?_⟩
        rw [if_pos ⟨hw, h0⟩] at h
        cases h
    · intro h
      rw [if_neg h.user, if_neg fun hw => h.write hw.1 hw.2]
  · constructor
    · intro h
      cases hq : pagingQuery s p with
      | none =>
        rw [pageOk, hq] at h
        cases h
      | some r => exact absurd (of_pagingQuery_eq_some hq) hex
    · intro h
      exact absurd ⟨h.table, h.present⟩ hex

theorem pages_eq (s : State) (writable : Bool) {last : U32} (hlast : last.toNat % 4096 = 0)
    (fuel : Nat) (p : U32) (hp : p.toNat % 4096 = 0) (hle : p.toNat ≤ last.toNat)
    (hfuel : (last.toNat - p.toNat) / 4096 < fuel) :
    ∃ r, pages s writable last fuel p = some r ∧
      (r = true ↔ ∀ q, pageOf p ≤ q → q ≤ pageOf last → UserPage s writable q) := by
  induction fuel generalizing p with
  | zero => omega
  | succ fuel ih =>
    rw [pages]
    by_cases hok : pageOk s writable p = true
    · rw [if_neg (by simp [hok])]
      by_cases heq : p = last
      · rw [if_pos heq]
        refine ⟨true, rfl, fun _ q hlo hhi => ?_, fun _ => rfl⟩
        subst heq
        rw [Nat.le_antisymm hhi hlo]
        exact (pageOk_iff s writable p).mp hok
      · rw [if_neg heq]
        have hne : p.toNat ≠ last.toNat := fun h => heq (BitVec.eq_of_toNat_eq h)
        have hl := last.isLt
        have hnext : (p + 0x1000).toNat = p.toNat + 4096 := by
          have h4096 : (0x1000 : U32).toNat = 4096 := rfl
          rw [BitVec.toNat_add, h4096]
          omega
        obtain ⟨r, hr, hiff⟩ := ih (p + 0x1000) (by omega) (by omega) (by omega)
        refine ⟨r, hr, hiff.trans ?_⟩
        have hpage : pageOf (p + 0x1000) = pageOf p + 1 := by
          rw [pageOf, hnext, pageOf]
          omega
        rw [hpage]
        constructor
        · intro h q hlo hhi
          rcases Nat.eq_or_lt_of_le hlo with hq | hq
          · subst hq
            exact (pageOk_iff s writable p).mp hok
          · exact h q hq hhi
        · intro h q hlo hhi
          exact h q (by omega) hhi
    · rw [if_pos (by simpa using hok)]
      refine ⟨false, rfl, fun h => (by cases h), fun h => ?_⟩
      have hpl : pageOf p ≤ pageOf last := by
        unfold pageOf
        omega
      exact absurd ((pageOk_iff s writable p).mpr (h _ (Nat.le_refl _) hpl)) hok

theorem add_lt_iff (va len : U32) : va + len < va ↔ 2 ^ 32 ≤ va.toNat + len.toNat := by
  have h1 := va.isLt
  have h2 := len.isLt
  rw [BitVec.lt_def, BitVec.toNat_add]
  omega

theorem last_toNat {va len : U32} (hlen : len ≠ 0) (hw : va.toNat + len.toNat < 2 ^ 32) :
    ((va + len - 1) &&& frameMask).toNat = (va.toNat + len.toNat - 1) / 4096 * 4096 := by
  have hpos := toNat_ne_zero hlen
  have hadd : (va + len).toNat = va.toNat + len.toNat := by rw [BitVec.toNat_add]; omega
  rw [frameMask_toNat, BitVec.toNat_sub_of_le, hadd]
  · rfl
  · rw [BitVec.le_def, hadd]
    change 1 ≤ _
    omega

theorem userRangeOk_answer (s : State) (va len : U32) (writable : Bool) {fuel : Nat}
    (hfuel : 2 ^ 20 ≤ fuel) :
    ∃ r, userRangeOk fuel s va len writable = some r ∧
      (r = true ↔ va.toNat + len.toNat < 2 ^ 32 ∧
        ∀ a, va.toNat ≤ a → a < va.toNat + len.toNat → UserPage s writable (a / 4096)) := by
  have hva := va.isLt
  unfold userRangeOk
  by_cases hlen : len = 0
  · subst hlen
    rw [if_pos rfl]
    have hz : (0 : U32).toNat = 0 := rfl
    exact ⟨true, rfl, fun _ => ⟨by omega, fun a hlo hhi => by omega⟩, fun _ => rfl⟩
  · rw [if_neg hlen]
    by_cases hw : va + len < va
    · rw [if_pos hw]
      refine ⟨false, rfl, fun h => (by cases h), fun h => ?_⟩
      have := (add_lt_iff va len).mp hw
      omega
    · rw [if_neg hw]
      have hsum : va.toNat + len.toNat < 2 ^ 32 := by
        rw [add_lt_iff] at hw
        omega
      have hpos := toNat_ne_zero hlen
      have hfirst := frameMask_toNat va
      have hlast := last_toNat hlen hsum
      have haligned : ((va + len - 1) &&& frameMask).toNat % 4096 = 0 := by omega
      obtain ⟨r, hr, hiff⟩ := pages_eq s writable haligned fuel (va &&& frameMask) (by omega)
        (by omega) (by omega)
      refine ⟨r, hr, hiff.trans ?_⟩
      have hp1 : pageOf (va &&& frameMask) = va.toNat / 4096 := by
        rw [pageOf, hfirst]
        omega
      have hp2 : pageOf ((va + len - 1) &&& frameMask) = (va.toNat + len.toNat - 1) / 4096 := by
        rw [pageOf, hlast]
        omega
      rw [hp1, hp2]
      constructor
      · intro h
        exact ⟨hsum, fun a hlo hhi => h _ (by omega) (by omega)⟩
      · intro h q hlo hhi
        -- the lowest address of the range on page `q`
        have hq := h.2 (max va.toNat (q * 4096)) (by omega) (by omega)
        have hdiv : max va.toNat (q * 4096) / 4096 = q := by omega
        rwa [hdiv] at hq

/-- A range the check accepts lies on user pages and below `2^32`, and every such range is
accepted; any amount of fuel from the number of pages on gives this one answer. -/
theorem userRangeOk_spec (s : State) (va len : U32) (writable : Bool) :
    ∃ r, (∀ fuel ≥ 2 ^ 20, userRangeOk fuel s va len writable = some r) ∧
      (r = true → va.toNat + len.toNat < 2 ^ 32 ∧
        ∀ a, va.toNat ≤ a → a < va.toNat + len.toNat → UserPage s writable (a / 4096)) ∧
      (va.toNat + len.toNat < 2 ^ 32 →
        (∀ a, va.toNat ≤ a → a < va.toNat + len.toNat → UserPage s writable (a / 4096)) →
        r = true) := by
  obtain ⟨r, hr, hiff⟩ := userRangeOk_answer s va len writable (Nat.le_refl (2 ^ 20))
  refine ⟨r, fun fuel hfuel => ?_, hiff.mp, fun h1 h2 => hiff.mpr ⟨h1, h2⟩⟩
  obtain ⟨r', hr', hiff'⟩ := userRangeOk_answer s va len writable hfuel
  rw [hr', Bool.eq_iff_iff.mpr (hiff'.trans hiff.symm)]

def uniform (w : U32) : State :=
  { mem := fun x => (w >>> (8 * (x % 4))).setWidth 8
    ptUsed := 0
    mapped := 0
    ready := false
    cr3 := 0 }

theorem read32_uniform (w : U32) (a : Nat) (ha : a % 4 = 0) :
    read32 (uniform w).mem a = w := by
  have hread : read32 (uniform w).mem a =
      read32 (write32 (uniform w).mem a w) a := by
    apply read32_congr
    intro x hlo hhi
    rw [write32, if_pos ⟨hlo, hhi⟩]
    have hx : x % 4 = x - a := by omega
    rw [← hx]
    rfl
  rw [hread, read32_write32_self]

theorem pde_uniform (w : U32) (i : Nat) : pde (uniform w) i = w := by
  have hdir : (pdActive (uniform w)).toNat = 0x200000 := rfl
  apply read32_uniform
  omega

theorem pteAt_uniform (w : U32) (hw : Present w) (p : Nat) : pteAt (uniform w) p = w := by
  rw [pteAt, pde_uniform, if_pos hw]
  apply read32_uniform
  have h := tableOf_dvd (uniform w) (p / 1024)
  omega

/-- A user page at the top of the address space is refused in full, although a range up to
`2^32` does not wrap; so is every page whose table is frame 0. -/
theorem userRangeOk_refuses_top :
    (0xFFFFF000 : U32).toNat + (0x1000 : U32).toNat = 2 ^ 32 ∧
    (∀ p, UserPage (uniform 0x7007) true p) ∧
    (∀ fuel, userRangeOk fuel (uniform 0x7007) 0xFFFFF000 0x1000 true = some false) ∧
    (∀ p, Present (pteAt (uniform 0x7) p) ∧ pteAt (uniform 0x7) p &&& pteUs ≠ 0 ∧
      pteAt (uniform 0x7) p &&& pteRw ≠ 0) ∧
    ∀ fuel ≥ 2 ^ 20, userRangeOk fuel (uniform 0x7) 0 1 true = some false := by
  have hp : Present (0x7007 : U32) := by decide
  have hp' : Present (0x7 : U32) := by decide
  refine ⟨rfl, fun p => ?_, fun fuel => rfl, fun p => ?_, fun fuel hfuel => ?_⟩
  · have he := pteAt_uniform _ hp p
    constructor
    · rw [tableOf, pde_uniform]
      decide
    all_goals rw [he]
    · exact hp
    · decide
    · intro _
      decide
  · rw [pteAt_uniform _ hp' p]
    decide
  · obtain ⟨r, hr, hiff⟩ := userRangeOk_answer (uniform 0x7) 0 1 true hfuel
    have hno : r ≠ true := by
      intro h
      have h0 := ((hiff.mp h).2 0 (by decide) (by decide)).table
      rw [tableOf, pde_uniform] at h0
      exact h0 (by decide)
    rw [hr, eq_false_of_ne_true hno]

end Ezos.Syscall
