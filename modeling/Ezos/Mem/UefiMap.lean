import Ezos.Lib.Memory
import Ezos.Mem.PmmRuns
import Mathlib.Algebra.BigOperators.Group.List.Basic
import Mathlib.Algebra.GroupWithZero.Nat
import Mathlib.Algebra.Order.BigOperators.Group.List
import Mathlib.Algebra.Order.Group.Nat

/-!
# The memory map of the firmware (`pmm_apply_uefi_map`)

The loader leaves a header at 0x5020 and the descriptors below 0x6000. The call marks the pool
pages of the descriptors that it takes for the firmware's. The two loops take a fuel argument; `none`
would mean that the loop of the source does not end.
-/

namespace Ezos.Pmm

open Lib Lib.WordBitmap Lib.Memory

set_option autoImplicit false

def pmmUefiMagic : U32 := 0x55454649
def pmmUefiData : U32 := 0x5100
def pmmUefiEnd : U32 := 0x6000

def markPages : Nat → State → U32 → U32 → U32 → Option (State × U32)
  | 0, _, _, _, _ => none
  | fuel + 1, s, p, e, marked =>
    if p < e then
      let i := ((p - poolStart) / 4096).toNat
      if bitGet s.bitmap i then markPages fuel s (p + 4096) e marked
      else markPages fuel { s with bitmap := bitSet s.bitmap i, used := s.used + 1 } (p + 4096) e (marked + 1)
    else some (s, marked)

def rangeEnd (start pages : U32) : U32 :=
  if pages ≥ 0x100000 then 0xFFFFFFFF
  else
    let e := start + pages * 4096
    if e < start then 0xFFFFFFFF else e

/-- The body of the loop over the descriptors, with `marked` and `usable_pages`. -/
def applyDescriptor (s : State) (type start pages marked usable : U32) : Option (State × U32 × U32) :=
  if type ≥ 1 ∧ type ≤ 4 then some (s, marked, usable + pages)
  else if pages = 0 then some (s, marked, usable)
  else if start ≥ poolEnd then some (s, marked, usable)
  else
    let e := rangeEnd start pages
    if e ≤ poolStart then some (s, marked, usable)
    else
      (markPages 1537 s (if start > poolStart then start else poolStart)
        (if e < poolEnd then e else poolEnd) marked).map fun r => (r.1, r.2, usable)

def applyFrom (m : Mem) (data descSize mapSize : U32) :
    Nat → State → U32 → U32 → U32 → Option (State × U32 × U32)
  | 0, _, _, _, _ => none
  | fuel + 1, s, off, marked, usable =>
    if off + descSize ≤ mapSize then
      let d := (data + off).toNat
      match applyDescriptor s (read32 m d) (read32 m (d + 8)) (read32 m (d + 24)) marked usable with
      | none => none
      | some (s, marked, usable) => applyFrom m data descSize mapSize fuel s (off + descSize) marked usable
    else some (s, marked, usable)

/-- Returns the pages marked, `*usable_kb` and the new state. -/
def pmmApplyUefiMap (s : State) (m : Mem) : Option (U32 × U32 × State) :=
  let mapSize := read32 m 0x5020
  let descSize := read32 m 0x5024
  let data := read32 m 0x502C
  if s.ready = false then some (0, 0, s)
  else if read32 m 0x5010 ≠ pmmUefiMagic then some (0, 0, s)
  else if mapSize = 0 ∨ descSize < 40 ∨ data = 0 then some (0, 0, s)
  else if data < pmmUefiData ∨ data ≥ pmmUefiEnd then some (0, 0, s)
  else
    let mapSize := if mapSize > pmmUefiEnd - data then pmmUefiEnd - data else mapSize
    (applyFrom m data descSize mapSize 97 s 0 0 0).map fun r => (r.2.1, r.2.2 * 4, r.1)

structure Descriptor where
  type : U32
  physicalStart : BitVec 64
  numberOfPages : BitVec 64

def descriptorAt (m : Mem) (a : Nat) : Descriptor := ⟨read32 m a, read64 m (a + 8), read64 m (a + 24)⟩

def mapCount (m : Mem) : Nat := (read32 m 0x5020).toNat / (read32 m 0x5024).toNat

def handed (m : Mem) : List Descriptor :=
  (List.range (mapCount m)).map fun k => descriptorAt m ((read32 m 0x502C).toNat + k * (read32 m 0x5024).toNat)

def Descriptor.limit (d : Descriptor) : Nat := d.physicalStart.toNat + d.numberOfPages.toNat * 4096

structure Descriptor.Ok (d : Descriptor) : Prop where
  aligned : d.physicalStart.toNat % 4096 = 0
  start : d.physicalStart.toNat < 2 ^ 32
  below : d.limit ≤ 2 ^ 32

structure WellFormed (m : Mem) : Prop where
  magic : read32 m 0x5010 = pmmUefiMagic
  descSize : 40 ≤ (read32 m 0x5024).toNat
  above : pmmUefiData.toNat ≤ (read32 m 0x502C).toNat
  inside : (read32 m 0x502C).toNat + (read32 m 0x5020).toNat ≤ pmmUefiEnd.toNat
  ok : ∀ d ∈ handed m, d.Ok

def Reusable (type : U32) : Prop := (1 ≤ type.toNat ∧ type.toNat ≤ 4) ∨ type = 7

instance (type : U32) : Decidable (Reusable type) := inferInstanceAs (Decidable (_ ∨ _))

def Descriptor.Covers (d : Descriptor) (i : Nat) : Prop :=
  d.physicalStart.toNat ≤ poolStart.toNat + i * 4096 ∧ poolStart.toNat + (i + 1) * 4096 ≤ d.limit

def pagesOf (ds : List Descriptor) : Nat := (ds.map fun d => d.numberOfPages.toNat).sum

structure Exact (s : State) (m : Mem) (marked kb : U32) (s' : State) : Prop where
  marks : ∀ i < 1536, ¬ Allocated s i → (Allocated s' i ↔ ∃ d ∈ handed m, d.Covers i ∧ ¬ Reusable d.type)
  count : marked.toNat = (allocatedPages s' \ allocatedPages s).card
  used : s'.used = s.used + marked
  usable : kb.toNat = 4 * pagesOf ((handed m).filter fun d => Reusable d.type)

theorem step_toNat : (4096 : U32).toNat = 4096 := rfl

structure Marks (P : Nat → Prop) (s s' : State) (k : Nat) : Prop where
  allocated : ∀ i < 1536, (Allocated s' i ↔ Allocated s i ∨ P i)
  ready : s'.ready = s.ready
  used : s'.used = s.used + BitVec.ofNat 32 k
  count : (allocatedPages s').card = (allocatedPages s).card + k

variable {P Q : Nat → Prop} {s t u : State} {k l : Nat} {m : Mem}

theorem Marks.refl (s : State) : Marks (fun _ => False) s s 0 where
  allocated i _ := by simp
  ready := rfl
  used := by simp
  count := (Nat.add_zero _).symm

theorem Marks.trans (h : Marks P s t k) (h' : Marks Q t u l) : Marks (fun i => P i ∨ Q i) s u (k + l) where
  allocated i hi := by rw [h'.allocated i hi, h.allocated i hi, or_assoc]
  ready := h'.ready.trans h.ready
  used := by rw [h'.used, h.used, BitVec.ofNat_add, BitVec.add_assoc]
  count := by rw [h'.count, h.count, Nat.add_assoc]

theorem Marks.congr (h : Marks P s t k) (hP : ∀ i < 1536, (Allocated s i ∨ P i ↔ Allocated s i ∨ Q i)) :
    Marks Q s t k :=
  ⟨fun i hi => (h.allocated i hi).trans (hP i hi), h.ready, h.used, h.count⟩

theorem marks_bitSet {a : Nat} (ha : a < 1536) (hfree : ¬ Allocated s a) :
    Marks (fun i => i = a) s { s with bitmap := bitSet s.bitmap a, used := s.used + 1 } 1 := by
  have hset : ∀ i, (Allocated { s with bitmap := bitSet s.bitmap a, used := s.used + 1 } i ↔
      Allocated s i ∨ i = a) := by
    intro i
    simp only [Allocated, bitGet_bitSet bits_pos _ (words_cover ▸ poolPages_toNat ▸ ha), Bool.or_eq_true,
      decide_eq_true_eq]
    exact ⟨fun h => h.symm.imp_right Eq.symm, fun h => (h.imp_right Eq.symm).symm⟩
  refine ⟨fun i _ => hset i, rfl, rfl, ?_⟩
  have hinsert : allocatedPages { s with bitmap := bitSet s.bitmap a, used := s.used + 1 } =
      insert a (allocatedPages s) := by
    ext i
    rw [Finset.mem_insert, mem_allocatedPages, mem_allocatedPages, hset, poolPages_toNat]
    constructor
    · rintro ⟨hi, h | h⟩
      · exact Or.inr ⟨hi, h⟩
      · exact Or.inl h
    · rintro (rfl | ⟨hi, h⟩)
      · exact ⟨ha, Or.inr rfl⟩
      · exact ⟨hi, Or.inl h⟩
  rw [hinsert, Finset.card_insert_of_notMem]
  exact fun h => hfree (mem_allocatedPages.mp h).2

theorem markPages_spec {e : U32} {b : Nat} (he : e.toNat = poolStart.toNat + b * 4096) (hb : b ≤ 1536) :
    ∀ (fuel a : Nat) (s : State) (p marked : U32), p.toNat = poolStart.toNat + a * 4096 → b - a < fuel →
      ∃ s' k, markPages fuel s p e marked = some (s', marked + BitVec.ofNat 32 k) ∧
        Marks (fun i => a ≤ i ∧ i < b) s s' k := by
  intro fuel
  rw [poolStart_toNat] at he
  induction fuel with
  | zero => exact fun a s p marked _ hfuel => absurd hfuel (Nat.not_lt_zero _)
  | succ fuel ih =>
    intro a s p marked hp hfuel
    rw [poolStart_toNat] at hp
    rw [markPages]
    by_cases hlt : p < e
    · have hab : a < b := by
        rw [BitVec.lt_def] at hlt
        omega
      have hnext : (p + 4096).toNat = poolStart.toNat + (a + 1) * 4096 := by
        rw [BitVec.toNat_add, poolStart_toNat, step_toNat]
        omega
      have hi : ((p - poolStart) / 4096).toNat = a := by
        rw [BitVec.toNat_udiv, BitVec.toNat_sub, poolStart_toNat, step_toNat]
        omega
      rw [if_pos hlt]
      dsimp only
      rw [hi]
      by_cases hbit : Allocated s a
      · obtain ⟨s', k, heq, hmarks⟩ := ih (a + 1) s (p + 4096) marked hnext (by omega)
        refine ⟨s', k, (if_pos hbit).trans heq, hmarks.congr fun i _ => ?_⟩
        by_cases hia : i = a
        · subst hia
          exact iff_of_true (Or.inl hbit) (Or.inl hbit)
        · exact or_congr_right (by omega)
      · have hone := marks_bitSet (s := s) (a := a) (by omega) hbit
        obtain ⟨s', k, heq, hmarks⟩ := ih (a + 1) _ (p + 4096) (marked + 1) hnext (by omega)
        refine ⟨s', 1 + k, (if_neg hbit).trans ?_, (hone.trans hmarks).congr fun i _ => or_congr_right (by omega)⟩
        rw [heq, BitVec.ofNat_add, BitVec.add_assoc]
        rfl
    · have hab : b ≤ a := by
        rw [BitVec.lt_def] at hlt
        omega
      rw [if_neg hlt]
      refine ⟨s, 0, by rw [BitVec.add_zero], (Marks.refl s).congr fun i _ => or_congr_right ?_⟩
      exact iff_of_false id (by omega)

def OsOwned (type : U32) : Prop := 1 ≤ type.toNat ∧ type.toNat ≤ 4

instance (type : U32) : Decidable (OsOwned type) := inferInstanceAs (Decidable (_ ∧ _))

theorem rangeEnd_toNat {start pages : U32} (h : start.toNat + pages.toNat * 4096 ≤ 2 ^ 32) :
    (rangeEnd start pages).toNat = start.toNat + pages.toNat * 4096 ∨
      ((rangeEnd start pages).toNat = 2 ^ 32 - 1 ∧ start.toNat + pages.toNat * 4096 = 2 ^ 32) := by
  have hmax : (0x100000 : U32).toNat = 1048576 := rfl
  unfold rangeEnd
  dsimp only
  split
  · rename_i hbig
    rw [ge_iff_le, BitVec.le_def, hmax] at hbig
    refine Or.inr ⟨rfl, ?_⟩
    omega
  · rename_i hbig
    rw [ge_iff_le, BitVec.le_def, hmax] at hbig
    have hsum : (start + pages * 4096).toNat = (start.toNat + pages.toNat * 4096) % 2 ^ 32 := by
      rw [BitVec.toNat_add, BitVec.toNat_mul, step_toNat]
      omega
    split
    · rename_i hwrap
      rw [BitVec.lt_def, hsum] at hwrap
      refine Or.inr ⟨rfl, ?_⟩
      omega
    · rename_i hwrap
      rw [BitVec.lt_def, hsum] at hwrap
      refine Or.inl ?_
      rw [hsum]
      have := start.isLt
      omega

theorem toNat_ite_gt (a b : U32) : (if a > b then a else b).toNat = max a.toNat b.toNat := by
  split
  · rename_i h
    rw [gt_iff_lt, BitVec.lt_def] at h
    omega
  · rename_i h
    rw [gt_iff_lt, BitVec.lt_def] at h
    omega

theorem toNat_ite_lt (a b : U32) : (if a < b then a else b).toNat = min a.toNat b.toNat := by
  split
  · rename_i h
    rw [BitVec.lt_def] at h
    omega
  · rename_i h
    rw [BitVec.lt_def] at h
    omega

theorem osOwned_iff (type : U32) : (type ≥ 1 ∧ type ≤ 4) ↔ OsOwned type := by
  rw [ge_iff_le, BitVec.le_def, BitVec.le_def]
  rfl

def Descriptor.owned (d : Descriptor) : Nat := if OsOwned d.type then d.numberOfPages.toNat else 0

theorem applyDescriptor_spec (s : State) {d : Descriptor} (hd : d.Ok) {start pages : U32}
    (hstart : start.toNat = d.physicalStart.toNat) (hpages : pages.toNat = d.numberOfPages.toNat)
    (marked usable : U32) :
    ∃ s' k, applyDescriptor s d.type start pages marked usable =
        some (s', marked + BitVec.ofNat 32 k, usable + BitVec.ofNat 32 d.owned) ∧
      Marks (fun i => d.Covers i ∧ ¬ OsOwned d.type) s s' k := by
  obtain ⟨haligned, -, hbelow⟩ := hd
  unfold Descriptor.limit at hbelow
  rw [← hstart] at haligned
  rw [← hstart, ← hpages] at hbelow
  have hcovers : ∀ i, d.Covers i ↔ start.toNat ≤ 0xA00000 + i * 4096 ∧
      0xA00000 + (i + 1) * 4096 ≤ start.toNat + pages.toNat * 4096 := fun i => by
    rw [Descriptor.Covers, Descriptor.limit, poolStart_toNat, hstart, hpages]
  have hnone : ∀ {w : Nat}, w = d.owned → (∀ i < 1536, ¬ (d.Covers i ∧ ¬ OsOwned d.type)) →
      ∃ s' k, some (s, marked, usable + BitVec.ofNat 32 w) =
        some (s', marked + BitVec.ofNat 32 k, usable + BitVec.ofNat 32 d.owned) ∧
        Marks (fun i => d.Covers i ∧ ¬ OsOwned d.type) s s' k := by
    rintro w rfl hno
    refine ⟨s, 0, by rw [BitVec.add_zero], (Marks.refl s).congr fun i hi => or_congr_right ?_⟩
    exact iff_of_false id (hno i hi)
  unfold applyDescriptor
  by_cases hos : OsOwned d.type
  · rw [if_pos ((osOwned_iff d.type).mpr hos)]
    have hadd : usable + pages = usable + BitVec.ofNat 32 pages.toNat := by rw [BitVec.ofNat_toNat, BitVec.setWidth_eq]
    rw [hadd]
    exact hnone (by rw [Descriptor.owned, if_pos hos, hpages]) fun i _ h => h.2 hos
  have howned : 0 = d.owned := by rw [Descriptor.owned, if_neg hos]
  have hkeep : some (s, marked, usable) = some (s, marked, usable + BitVec.ofNat 32 0) := by
    rw [BitVec.add_zero]
  rw [if_neg (mt (osOwned_iff d.type).mp hos)]
  by_cases hp0 : pages = 0
  · rw [if_pos hp0, hkeep]
    apply hnone howned
    rintro i hi ⟨hc, -⟩
    rw [hcovers, (eq_zero_iff pages).mp hp0] at hc
    omega
  rw [if_neg hp0]
  by_cases hhigh : start ≥ poolEnd
  · rw [if_pos hhigh, hkeep]
    apply hnone howned
    rintro i hi ⟨hc, -⟩
    rw [hcovers] at hc
    rw [ge_iff_le, BitVec.le_def, poolEnd_toNat] at hhigh
    omega
  rw [if_neg hhigh]
  have hend := rangeEnd_toNat hbelow
  dsimp only
  by_cases hlow : rangeEnd start pages ≤ poolStart
  · rw [if_pos hlow, hkeep]
    apply hnone howned
    rintro i hi ⟨hc, -⟩
    rw [hcovers] at hc
    rw [BitVec.le_def, poolStart_toNat] at hlow
    omega
  rw [if_neg hlow]
  rw [ge_iff_le, BitVec.le_def, poolEnd_toNat] at hhigh
  rw [BitVec.le_def, poolStart_toNat] at hlow
  have hfirst : (if start > poolStart then start else poolStart).toNat =
      poolStart.toNat + (max start.toNat 0xA00000 - 0xA00000) / 4096 * 4096 := by
    rw [toNat_ite_gt, poolStart_toNat]
    omega
  have hlast : (if rangeEnd start pages < poolEnd then rangeEnd start pages else poolEnd).toNat =
      poolStart.toNat + (min (start.toNat + pages.toNat * 4096) 0x1000000 - 0xA00000) / 4096 * 4096 := by
    rw [toNat_ite_lt, poolStart_toNat, poolEnd_toNat]
    omega
  obtain ⟨s', k, heq, hmarks⟩ := markPages_spec hlast (by omega) 1537 _ s _ marked hfirst (by omega)
  refine ⟨s', k, by rw [heq, ← howned, BitVec.add_zero]; rfl, hmarks.congr fun i hi => or_congr_right ?_⟩
  rw [hcovers, and_iff_left hos]
  omega

theorem toNat_read64_low {a : Nat} (h : (read64 m a).toNat < 2 ^ 32) :
    (read32 m a).toNat = (read64 m a).toNat := by
  have hlow : (read64 m a).setWidth 32 = read32 m a := BitVec.setWidth_append_eq_right
  rw [← hlow, BitVec.toNat_setWidth, Nat.mod_eq_of_lt h]

theorem Descriptor.Ok.pages_le {d : Descriptor} (h : d.Ok) : d.numberOfPages.toNat ≤ 1048576 := by
  have hbelow := h.below
  unfold Descriptor.limit at hbelow
  omega

def ownedPages (ds : List Descriptor) : Nat := (ds.map Descriptor.owned).sum

@[simp] theorem ownedPages_nil : ownedPages [] = 0 := rfl

@[simp] theorem ownedPages_cons (d : Descriptor) (ds : List Descriptor) :
    ownedPages (d :: ds) = d.owned + ownedPages ds := by
  simp [ownedPages]

def Taken (ds : List Descriptor) (i : Nat) : Prop := ∃ d ∈ ds, d.Covers i ∧ ¬ OsOwned d.type

theorem length_handed (m : Mem) : (handed m).length = mapCount m := by
  rw [handed, List.length_map, List.length_range]

theorem map_le {k : Nat} (hk : k ≤ mapCount m) :
    k * (read32 m 0x5024).toNat ≤ (read32 m 0x5020).toNat :=
  (Nat.mul_le_mul_right _ hk).trans (Nat.div_mul_le_self _ _)

theorem WellFormed.size_le (hm : WellFormed m) : (read32 m 0x5020).toNat ≤ 3840 := by
  have habove := hm.above
  have hinside := hm.inside
  have h1 : pmmUefiData.toNat = 20736 := rfl
  have h2 : pmmUefiEnd.toNat = 24576 := rfl
  omega

theorem WellFormed.count_le (hm : WellFormed m) : mapCount m ≤ 96 := by
  have h := map_le (Nat.le_refl (mapCount m))
  have hsize := hm.size_le
  have h40 := Nat.mul_le_mul_left (mapCount m) hm.descSize
  omega

theorem applyFrom_spec (hm : WellFormed m) : ∀ (fuel k : Nat) (s : State) (off marked usable : U32),
    off.toNat = k * (read32 m 0x5024).toNat → k ≤ mapCount m → mapCount m - k < fuel →
      ∃ s' n, applyFrom m (read32 m 0x502C) (read32 m 0x5024) (read32 m 0x5020) fuel s off marked usable =
          some (s', marked + BitVec.ofNat 32 n, usable + BitVec.ofNat 32 (ownedPages ((handed m).drop k))) ∧
        Marks (Taken ((handed m).drop k)) s s' n
  | 0, _, _, _, _, _, _, _, hfuel => absurd hfuel (Nat.not_lt_zero _)
  | fuel + 1, k, s, off, marked, usable, hoff, hk, hfuel => by
    have hsize := hm.size_le
    have hdesc := hm.descSize
    have hmul := map_le hk
    rw [applyFrom]
    by_cases hlt : k < mapCount m
    · have hnextMul := map_le (Nat.succ_le_of_lt hlt)
      rw [Nat.succ_mul] at hnextMul
      have hnext : (off + read32 m 0x5024).toNat = (k + 1) * (read32 m 0x5024).toNat := by
        rw [BitVec.toNat_add, Nat.succ_mul, hoff]
        omega
      have htest : off + read32 m 0x5024 ≤ read32 m 0x5020 := by
        rw [BitVec.le_def, hnext, Nat.succ_mul]
        exact hnextMul
      have haddr : (read32 m 0x502C + off).toNat =
          (read32 m 0x502C).toNat + k * (read32 m 0x5024).toNat := by
        have hinside := hm.inside
        have hend : pmmUefiEnd.toNat = 24576 := rfl
        rw [BitVec.toNat_add, hoff]
        omega
      have hdrop : (handed m).drop k =
          descriptorAt m (read32 m 0x502C + off).toNat :: (handed m).drop (k + 1) := by
        have hlen : k < (handed m).length := (length_handed m).symm ▸ hlt
        rw [List.drop_eq_getElem_cons hlen, haddr]
        congr 1
        simp [handed]
      generalize (read32 m 0x502C + off).toNat = a at hdrop ⊢
      have hok : (descriptorAt m a).Ok := by
        apply hm.ok
        apply List.mem_of_mem_drop (i := k)
        rw [hdrop]
        exact List.mem_cons_self
      have hpages := hok.pages_le
      obtain ⟨s₁, n₁, heq₁, hmarks₁⟩ := applyDescriptor_spec s hok (toNat_read64_low hok.start)
        (toNat_read64_low (Nat.lt_of_le_of_lt hpages (by decide))) marked usable
      have heq₁' : applyDescriptor s (read32 m a) (read32 m (a + 8)) (read32 m (a + 24)) marked usable = _ := heq₁
      obtain ⟨s', n, heq, hmarks⟩ := applyFrom_spec hm fuel (k + 1) s₁ _ (marked + BitVec.ofNat 32 n₁)
        (usable + BitVec.ofNat 32 (descriptorAt m a).owned) hnext hlt (by omega)
      rw [if_pos htest]
      dsimp only
      rw [heq₁']
      dsimp only
      refine ⟨s', n₁ + n, ?_, (hmarks₁.trans hmarks).congr fun i _ => or_congr_right ?_⟩
      · rw [heq, hdrop, ownedPages_cons, BitVec.ofNat_add, BitVec.ofNat_add, BitVec.add_assoc,
          BitVec.add_assoc]
      · rw [hdrop, Taken, Taken, List.exists_mem_cons_iff]
    · have hke : k = mapCount m := Nat.le_antisymm hk (Nat.not_lt.mp hlt)
      have hdrop : (handed m).drop k = [] := List.drop_eq_nil_of_le (by rw [length_handed]; omega)
      have htest : ¬ off + read32 m 0x5024 ≤ read32 m 0x5020 := by
        have hover : (read32 m 0x5020).toNat < (k + 1) * (read32 m 0x5024).toNat := by
          rw [← Nat.div_lt_iff_lt_mul (by omega), hke]
          exact Nat.lt_succ_self _
        have hsum : off.toNat + (read32 m 0x5024).toNat < 2 ^ 32 := by
          rw [hoff]
          rcases Nat.eq_zero_or_pos k with rfl | hpos
          · have := (read32 m 0x5024).isLt
            omega
          · have := Nat.le_mul_of_pos_left (read32 m 0x5024).toNat hpos
            omega
        rw [BitVec.le_def, BitVec.toNat_add, Nat.mod_eq_of_lt hsum, hoff]
        rw [Nat.succ_mul] at hover
        omega
      rw [if_neg htest, hdrop]
      refine ⟨s, 0, by simp, (Marks.refl s).congr fun i _ => or_congr_right ?_⟩
      simp [Taken]

theorem pmmApplyUefiMap_spec (hs : s.ready = true) (hm : WellFormed m) :
    ∃ n s', pmmApplyUefiMap s m = some (BitVec.ofNat 32 n, BitVec.ofNat 32 (ownedPages (handed m)) * 4, s') ∧
      Marks (Taken (handed m)) s s' n := by
  have habove := hm.above
  have hinside := hm.inside
  have hdesc := hm.descSize
  have h1 : pmmUefiData.toNat = 20736 := rfl
  have h2 : pmmUefiEnd.toNat = 24576 := rfl
  have h40 : (40 : U32).toNat = 40 := rfl
  unfold pmmApplyUefiMap
  dsimp only
  rw [if_neg (by simp [hs]), if_neg (not_not_intro hm.magic)]
  by_cases hempty : read32 m 0x5020 = 0
  · have hnil : handed m = [] := by
      rw [← List.length_eq_zero_iff, length_handed, mapCount, (eq_zero_iff _).mp hempty, Nat.zero_div]
    rw [if_pos (Or.inl hempty), hnil]
    refine ⟨0, s, rfl, (Marks.refl s).congr fun i _ => or_congr_right ?_⟩
    simp [Taken]
  have hbad : ¬ (read32 m 0x5020 = 0 ∨ read32 m 0x5024 < 40 ∨ read32 m 0x502C = 0) := by
    rw [BitVec.lt_def, eq_zero_iff (read32 m 0x502C), h40]
    rintro (h | h | h)
    · exact hempty h
    · omega
    · omega
  have hpos := toNat_ne_zero hempty
  have hrange : ¬ (read32 m 0x502C < pmmUefiData ∨ read32 m 0x502C ≥ pmmUefiEnd) := by
    rw [BitVec.lt_def, ge_iff_le, BitVec.le_def]
    omega
  have hclip : ¬ read32 m 0x5020 > pmmUefiEnd - read32 m 0x502C := by
    rw [gt_iff_lt, BitVec.lt_def, BitVec.toNat_sub]
    omega
  rw [if_neg hbad, if_neg hrange, if_neg hclip]
  have hcount := hm.count_le
  obtain ⟨s', n, heq, hmarks⟩ := applyFrom_spec hm 97 0 s 0 0 0 (by simp) (Nat.zero_le _) (by omega)
  rw [heq]
  refine ⟨n, s', ?_, hmarks⟩
  simp

theorem Marks.inv (h : Marks P s t k) (hs : Inv s) : Inv t where
  ready := h.ready.trans hs.ready
  used := by
    have hused := hs.used
    have hcount := h.count
    have hle := card_allocatedPages_le t
    rw [h.used, BitVec.toNat_add, BitVec.toNat_ofNat]
    omega

theorem pmmApplyUefiMap_inv (hs : Inv s) (hm : WellFormed m) :
    ∃ r, pmmApplyUefiMap s m = some r ∧ Inv r.2.2 := by
  obtain ⟨n, s', heq, hmarks⟩ := pmmApplyUefiMap_spec hs.ready hm
  exact ⟨_, heq, hmarks.inv hs⟩

theorem Marks.newly (h : Marks P s t k) : (allocatedPages t \ allocatedPages s).card = k := by
  have hsub : allocatedPages s ⊆ allocatedPages t := by
    intro i hi
    obtain ⟨hlt, hal⟩ := mem_allocatedPages.mp hi
    rw [poolPages_toNat] at hlt
    exact mem_allocatedPages.mpr ⟨hlt, (h.allocated i hlt).mpr (Or.inl hal)⟩
  rw [Finset.card_sdiff_of_subset hsub, h.count, Nat.add_sub_cancel_left]

theorem ownedPages_le (ds : List Descriptor) (h : ∀ d ∈ ds, d.Ok) : ownedPages ds ≤ ds.length * 1048576 := by
  induction ds with
  | nil => exact Nat.le_refl 0
  | cons d ds ih =>
    have hpages := (h d List.mem_cons_self).pages_le
    have hrest := ih fun e he => h e (List.mem_cons_of_mem d he)
    have howned : d.owned ≤ d.numberOfPages.toNat := by
      unfold Descriptor.owned
      split
      · exact Nat.le_refl _
      · exact Nat.zero_le _
    rw [ownedPages_cons, List.length_cons, Nat.succ_mul]
    omega

def conventional (ds : List Descriptor) : List Descriptor := ds.filter fun d => d.type = 7

theorem pagesOf_cons (d : Descriptor) (ds : List Descriptor) :
    pagesOf (d :: ds) = d.numberOfPages.toNat + pagesOf ds := by
  simp [pagesOf]

theorem pagesOf_reusable (ds : List Descriptor) :
    pagesOf (ds.filter fun d => Reusable d.type) = ownedPages ds + pagesOf (conventional ds) := by
  induction ds with
  | nil => rfl
  | cons d ds ih =>
    have hseven : d.type = 7 → ¬ OsOwned d.type := by
      rintro h ⟨-, hle⟩
      rw [h] at hle
      exact absurd hle (by decide)
    unfold conventional at ih ⊢
    rw [ownedPages_cons, Descriptor.owned]
    by_cases hos : OsOwned d.type
    · have h7 : ¬ d.type = 7 := fun h => hseven h hos
      have hre : Reusable d.type := Or.inl hos
      rw [List.filter_cons_of_pos (by simpa using hre), List.filter_cons_of_neg (by simpa using h7),
        if_pos hos, pagesOf_cons, ih, Nat.add_assoc]
    · rw [if_neg hos, Nat.zero_add]
      by_cases h7 : d.type = 7
      · have hre : Reusable d.type := Or.inr h7
        rw [List.filter_cons_of_pos (by simpa using hre), List.filter_cons_of_pos (by simpa using h7),
          pagesOf_cons, pagesOf_cons, ih, Nat.add_left_comm]
      · have hre : ¬ Reusable d.type := fun h => h.elim hos h7
        rw [List.filter_cons_of_neg (by simpa using hre), List.filter_cons_of_neg (by simpa using h7), ih]

theorem pagesOf_conventional_eq_zero {ds : List Descriptor} :
    pagesOf (conventional ds) = 0 ↔ ∀ d ∈ ds, d.type = 7 → d.numberOfPages = 0 := by
  unfold pagesOf conventional
  rw [List.sum_eq_zero_iff]
  simp only [List.mem_map, List.mem_filter, decide_eq_true_eq, forall_exists_index, and_imp]
  constructor
  · intro h d hd h7
    exact BitVec.eq_of_toNat_eq (h _ d hd h7 rfl)
  · rintro h _ d hd h7 rfl
    rw [h d hd h7]
    rfl

def mapBase : Mem :=
  [(0x5010, pmmUefiMagic), (0x5020, 40), (0x5024, 40), (0x502C, 0x5100), (0x5108, poolStart),
    (0x5118, 16)].foldl (fun m w => write32 m w.1 w.2) zeros

def oneDescriptor (type : U32) : Mem := write32 mapBase 0x5100 type

theorem read32_oneDescriptor (type : U32) {a : Nat} (h : 0x5104 ≤ a ∨ a + 4 ≤ 0x5100) :
    read32 (oneDescriptor type) a = read32 mapBase a :=
  read32_write32_of_disjoint _ _ h

theorem handed_oneDescriptor (type : U32) : handed (oneDescriptor type) = [⟨type, 0xA00000, 16⟩] := by
  have htype : read32 (oneDescriptor type) 0x5100 = type := read32_write32_self _ _ _
  have hdesc : descriptorAt (oneDescriptor type) 0x5100 = ⟨type, 0xA00000, 16⟩ := by
    rw [descriptorAt, htype, read64, read64, read32_oneDescriptor type (by omega),
      read32_oneDescriptor type (by omega), read32_oneDescriptor type (by omega),
      read32_oneDescriptor type (by omega)]
    rfl
  rw [handed, mapCount, read32_oneDescriptor type (by omega), read32_oneDescriptor type (by omega),
    read32_oneDescriptor type (by omega), ← hdesc]
  rfl

theorem oneDescriptor_wellFormed (type : U32) : WellFormed (oneDescriptor type) where
  magic := by
    rw [read32_oneDescriptor type (by omega)]
    rfl
  descSize := by
    rw [read32_oneDescriptor type (by omega)]
    decide
  above := by
    rw [read32_oneDescriptor type (by omega)]
    decide
  inside := by
    rw [read32_oneDescriptor type (by omega), read32_oneDescriptor type (by omega)]
    decide
  ok d hd := by
    rw [handed_oneDescriptor, List.mem_singleton] at hd
    subst hd
    refine ⟨?_, ?_, ?_⟩
    · dsimp only
      decide
    · dsimp only
      decide
    · dsimp only [Descriptor.limit]
      decide

end Ezos.Pmm
