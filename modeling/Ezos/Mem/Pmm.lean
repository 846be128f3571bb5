import Ezos.Types
import Ezos.Lib.WordBitmap
import Ezos.Lib.FirstFit

/-!
# Physical page allocator (`kernel/pmm.c`)

A bitmap of the 1536 page frames of the pool 10 MB - 16 MB, with the count of allocated
frames kept beside it. Arguments are the 32-bit words of the source and wrap as they do.
-/

namespace Ezos.Pmm

open Lib Lib.WordBitmap

set_option autoImplicit false

def pageSize : U32 := 4096
def poolStart : U32 := 0x00A00000
def poolEnd : U32 := 0x01000000
def poolPages : U32 := (poolEnd - poolStart) / pageSize
def bitsPerWord : Nat := 32
def bitmapWords : Nat := 48

structure State where
  bitmap : Vector (BitVec bitsPerWord) bitmapWords
  used : U32
  ready : Bool

/-- Everything is zero before `pmm_init` has run (`.bss`). -/
def bss : State := ⟨Vector.replicate _ 0, 0, false⟩

def pmmInit (_ : State) : State := ⟨Vector.replicate _ 0, 0, true⟩

def inPool (phys n : U32) : Bool :=
  if phys = 0 ∨ phys &&& (pageSize - 1) ≠ 0 then false
  else if phys < poolStart then false
  else if n = 0 then false
  else if phys > poolEnd then false
  else if poolEnd - phys < n * pageSize then false
  else true

def idxOf (phys : U32) : U32 := (phys - poolStart) / pageSize

/-- The search loop and the marking loop of `pmm_alloc_pages`; 0 stands for "pool exhausted". -/
def pmmAllocPages (s : State) (n : U32) : U32 × State :=
  if s.ready = false ∨ n = 0 ∨ n > poolPages then (0, s)
  else
    match FirstFit.search (fun i => !bitGet s.bitmap i) n.toNat poolPages.toNat with
    | none => (0, s)
    | some first =>
      (poolStart + BitVec.ofNat 32 first * pageSize,
        { s with bitmap := setRange s.bitmap first n.toNat, used := s.used + n })

def pmmAllocPage (s : State) : U32 × State := pmmAllocPages s 1

def pmmFreePages (s : State) (phys n : U32) : Bool × State :=
  if s.ready = false ∨ inPool phys n = false then (false, s)
  else
    let first := idxOf phys
    if first + n > poolPages then (false, s)
    -- all-or-nothing: one free page in the range refuses the whole release
    else if (List.range n.toNat).all (fun k => bitGet s.bitmap (first.toNat + k)) then
      (true, { s with bitmap := clearRange s.bitmap first.toNat n.toNat, used := s.used - n })
    else (false, s)

def pmmFreePage (s : State) (phys : U32) : Bool × State := pmmFreePages s phys 1

inductive Op where
  | allocPages (n : U32)
  | freePages (phys n : U32)

def apply (s : State) : Op → State
  | .allocPages n => (pmmAllocPages s n).2
  | .freePages phys n => (pmmFreePages s phys n).2

/-- The state after a sequence of calls, starting from `pmm_init`. -/
def run (ops : List Op) : State := ops.foldl apply (pmmInit bss)

def Allocated (s : State) (i : Nat) : Prop := bitGet s.bitmap i = true

def FreeRun (s : State) (first n : Nat) : Prop :=
  first + n ≤ poolPages.toNat ∧ ∀ k < n, ¬ Allocated s (first + k)

def allocatedPages (s : State) : Finset Nat := members s.bitmap

structure Inv (s : State) : Prop where
  ready : s.ready = true
  used : s.used.toNat = (allocatedPages s).card

theorem poolStart_toNat : poolStart.toNat = 0xA00000 := by decide
theorem poolEnd_toNat : poolEnd.toNat = 0x1000000 := by decide
theorem pageSize_toNat : pageSize.toNat = 4096 := by decide
theorem poolPages_toNat : poolPages.toNat = 1536 := by decide

theorem words_cover : bitsPerWord * bitmapWords = poolPages.toNat := by decide

theorem bits_pos : 0 < bitsPerWord := by decide

theorem mem_allocatedPages {s : State} {i : Nat} :
    i ∈ allocatedPages s ↔ i < poolPages.toNat ∧ Allocated s i := by
  rw [allocatedPages, mem_members, words_cover, Allocated]

theorem card_allocatedPages_le (s : State) : (allocatedPages s).card ≤ 1536 := by
  have h := card_members_le s.bitmap
  rwa [words_cover, poolPages_toNat] at h

theorem window_iff (s : State) (first n : Nat) :
    FirstFit.Window (fun i => !bitGet s.bitmap i) n first ↔
      ∀ k < n, ¬ Allocated s (first + k) := by
  simp [FirstFit.Window, Allocated]

theorem pmmAllocPages_cases (s : State) (n : U32) :
    ((s.ready = false ∨ n = 0 ∨ n > poolPages ∨ ¬ ∃ f, FreeRun s f n.toNat) ∧
      pmmAllocPages s n = (0, s)) ∨
    (s.ready = true ∧ n ≠ 0 ∧ ∃ first, FreeRun s first n.toNat ∧
      pmmAllocPages s n = (poolStart + BitVec.ofNat 32 first * pageSize,
        { s with bitmap := setRange s.bitmap first n.toNat, used := s.used + n })) := by
  unfold pmmAllocPages
  split
  · rename_i hbad
    refine Or.inl ⟨?_, rfl⟩
    rcases hbad with h | h | h
    · exact Or.inl h
    · exact Or.inr (Or.inl h)
    · exact Or.inr (Or.inr (Or.inl h))
  · rename_i hok
    simp only [not_or, Bool.not_eq_false] at hok
    obtain ⟨hready, hn, _⟩ := hok
    have hpos : 0 < n.toNat := Nat.pos_of_ne_zero (toNat_ne_zero hn)
    split
    · rename_i hnone
      refine Or.inl ⟨Or.inr (Or.inr (Or.inr ?_)), rfl⟩
      rintro ⟨f, hle, hfree⟩
      exact FirstFit.search_none hpos hnone hle ((window_iff s f _).mpr hfree)
    · rename_i first hsome
      obtain ⟨hle, hw, _⟩ := FirstFit.search_some hpos hsome
      exact Or.inr ⟨hready, hn, first, ⟨hle, (window_iff s first _).mp hw⟩, rfl⟩

/-- The address range `[phys, phys + n * 4096)`, without wrap-around, is a range of pool pages. -/
structure PoolRange (phys n : U32) : Prop where
  aligned : phys.toNat % 4096 = 0
  above : poolStart.toNat ≤ phys.toNat
  below : phys.toNat + n.toNat * 4096 ≤ poolEnd.toNat

theorem and_mask_eq_zero_iff (phys : U32) :
    phys &&& (pageSize - 1) = 0 ↔ phys.toNat % 4096 = 0 :=
  and_page_mask_eq_zero_iff phys

theorem idxOf_toNat {phys : U32} (h : poolStart.toNat ≤ phys.toNat) :
    (idxOf phys).toNat = (phys.toNat - 0xA00000) / 4096 := by
  have hphys := phys.isLt
  rw [poolStart_toNat] at h
  have hsub : (2 ^ 32 - 0xA00000 + phys.toNat) % 2 ^ 32 = phys.toNat - 0xA00000 := by omega
  rw [idxOf, BitVec.toNat_udiv, BitVec.toNat_sub, poolStart_toNat, pageSize_toNat, hsub]

theorem inPool_iff (phys n : U32) : inPool phys n = true ↔
    ¬ (phys = 0 ∨ phys &&& (pageSize - 1) ≠ 0) ∧ ¬ phys < poolStart ∧ ¬ n = 0 ∧
      ¬ phys > poolEnd ∧ ¬ poolEnd - phys < n * pageSize := by
  unfold inPool
  split_ifs <;> simp_all

/-- The two range checks together accept exactly the ranges of pool pages, although the
product and the sum they compute wrap modulo 2^32. -/
theorem rangeChecks_iff (phys n : U32) :
    (inPool phys n = true ∧ ¬ idxOf phys + n > poolPages) ↔ n ≠ 0 ∧ PoolRange phys n := by
  have hphys := phys.isLt
  have hn := n.isLt
  rw [inPool_iff, ne_eq, and_mask_eq_zero_iff, eq_zero_iff phys, eq_zero_iff n, gt_iff_lt,
    gt_iff_lt, BitVec.lt_def, BitVec.lt_def, BitVec.lt_def, BitVec.lt_def, BitVec.toNat_sub,
    BitVec.toNat_mul, poolStart_toNat, poolEnd_toNat, pageSize_toNat, BitVec.toNat_add,
    poolPages_toNat]
  constructor
  · rintro ⟨⟨hal, hlo, hn0, hhi, hprod⟩, hidx⟩
    rw [idxOf_toNat (by rw [poolStart_toNat]; omega)] at hidx
    refine ⟨fun h => hn0 ((eq_zero_iff n).mp h), by omega, by rw [poolStart_toNat]; omega, ?_⟩
    rw [poolEnd_toNat]
    omega
  · rintro ⟨hn0, hal, hlo, hhi⟩
    rw [idxOf_toNat hlo]
    rw [poolStart_toNat] at hlo
    rw [poolEnd_toNat] at hhi
    have hn0' := toNat_ne_zero hn0
    exact ⟨⟨by omega, by omega, hn0', by omega, by omega⟩, by omega⟩

def firstPage (phys : U32) : Nat := (phys.toNat - 0xA00000) / 4096

theorem PoolRange.fits {phys n : U32} (h : PoolRange phys n) :
    firstPage phys + n.toNat ≤ bitsPerWord * bitmapWords := by
  have hlo := h.above
  have hhi := h.below
  rw [poolStart_toNat] at hlo
  rw [poolEnd_toNat] at hhi
  rw [words_cover, poolPages_toNat, firstPage]
  omega

theorem pmmFreePages_cases (s : State) (hs : s.ready = true) (phys n : U32) :
    (n ≠ 0 ∧ PoolRange phys n ∧ (∀ k < n.toNat, Allocated s (firstPage phys + k)) ∧
      pmmFreePages s phys n = (true, { s with
        bitmap := clearRange s.bitmap (firstPage phys) n.toNat, used := s.used - n })) ∨
    (¬ (n ≠ 0 ∧ PoolRange phys n ∧ ∀ k < n.toNat, Allocated s (firstPage phys + k)) ∧
      pmmFreePages s phys n = (false, s)) := by
  by_cases hr : n ≠ 0 ∧ PoolRange phys n
  · obtain ⟨hin, hidx⟩ := (rangeChecks_iff phys n).mpr hr
    have hfirst : (idxOf phys).toNat = firstPage phys := idxOf_toNat hr.2.above
    by_cases hall : (List.range n.toNat).all (fun k => bitGet s.bitmap (firstPage phys + k))
    · refine Or.inl ⟨hr.1, hr.2, ?_, ?_⟩
      · intro k hk
        exact List.all_eq_true.mp hall k (List.mem_range.mpr hk)
      · simp only [pmmFreePages, hs, hin, hidx, hfirst, hall]
        simp
    · refine Or.inr ⟨?_, ?_⟩
      · rintro ⟨_, _, hused⟩
        apply hall
        apply List.all_eq_true.mpr
        intro k hk
        exact hused k (List.mem_range.mp hk)
      · simp only [pmmFreePages, hs, hin, hidx, hfirst, hall]
        simp
  · refine Or.inr ⟨fun h => hr ⟨h.1, h.2.1⟩, ?_⟩
    unfold pmmFreePages
    split
    · rfl
    · rename_i hok
      simp only [not_or, Bool.not_eq_false] at hok
      have hidx : idxOf phys + n > poolPages := by
        by_contra h
        exact hr ((rangeChecks_iff phys n).mp ⟨hok.2, h⟩)
      simp only [hidx, if_true]

end Ezos.Pmm
