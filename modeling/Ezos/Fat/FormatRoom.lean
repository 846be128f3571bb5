import Ezos.Fat.Fresh

/-!
# The geometry of `fat_format` and the device

The computation in front of the first write, with the exact values of the sums and products that it makes in 32 bits. What it
accepts is right when the guard `part_start + 64` is no sum that wraps and the bytes of a FAT32 are counted in 32 bits.
-/

namespace Ezos.Fat

open Lib.Memory

set_option autoImplicit false

variable {k : Kind} {cap part total fatSize count : U32} {left n : Nat}

structure Plot where
  part : U32
  total : U32
  fatSize : U32

/-- The geometry computation of `fat_format`; `none` is the answer -1. -/
def fatGeometry (cap part : U32) (k : Kind) : Option Plot :=
  if cap = 0 then none
  else
    let part := if part = 0 then 1 else part
    if cap ≤ part + 64 then none
    else
      match shrink k (cap - part) 1 8 with
      | (total, fatSize) => if k.clusters total fatSize < k.minClusters then none else some ⟨part, total, fatSize⟩

/-- The sums of `root_sectors` and `first_data`. -/
def Kind.layoutSums (k : Kind) (fatSize : U32) : List Nat :=
  [k.rootEntries.toNat * 32, k.rootEntries.toNat * 32 + 511, nfats.toNat * fatSize.toNat,
    k.reserved.toNat + nfats.toNat * fatSize.toNat, k.reserved.toNat + nfats.toNat * fatSize.toNat + k.rootSectors.toNat]

def Kind.needSums (k : Kind) (clusters : U32) : List Nat :=
  match k with
  | .fat12 => [clusters.toNat + 2, (clusters.toNat + 2) * 3, (clusters.toNat + 2) * 3 + 1,
      ((clusters.toNat + 2) * 3 + 1) / 2 + 511]
  | .fat16 => [clusters.toNat + 2, (clusters.toNat + 2) * 2, (clusters.toNat + 2) * 2 + 511]
  | .fat32 => [clusters.toNat + 2, (clusters.toNat + 2) * 4, (clusters.toNat + 2) * 4 + 511]

def growSums (k : Kind) (total fatSize : U32) (left : Nat) : List Nat :=
  let clusters := k.clusters total fatSize
  let need := k.need clusters
  k.layoutSums fatSize ++ k.needSums clusters ++
    if need ≤ fatSize then []
    else
      match left with
      | 0 => []
      | left + 1 => growSums k total need left

/-- Those of the rounds of `shrink`, and of the last `first_data`. -/
def shrinkSums (k : Kind) (total fatSize : U32) : Nat → List Nat
  | 0 => k.layoutSums fatSize
  | left + 1 =>
    let fit := growFat k total fatSize 9
    growSums k total fatSize 9 ++
      if fit.clusters ≤ k.maxClusters then k.layoutSums fit.fatSize
      else
        let want := fit.firstData.toNat + k.maxClusters.toNat * k.spc.toNat
        if want ≥ total.toNat then k.layoutSums fit.fatSize else shrinkSums k (BitVec.ofNat 32 want) 1 left

def partOf (part : U32) : U32 := if part = 0 then 1 else part

structure Exact (cap part : U32) (k : Kind) : Prop where
  guard : (partOf part).toNat + 64 < 2 ^ 32
  avail : partOf part ≤ cap
  sums : ∀ x ∈ shrinkSums k (cap - partOf part) 1 8, x < 2 ^ 32

def Kind.entryEnd (k : Kind) (n : Nat) : Nat :=
  match k with
  | .fat12 => n + n / 2 + 2
  | .fat16 => n * 2 + 2
  | .fat32 => n * 4 + 4

structure Plotted (cap part : U32) (k : Kind) (g : Plot) : Prop where
  kind : fatProbe (bootSector k g.part g.total g.fatSize) = some k
  room : ∀ n < (bpbOf (bootSector k g.part g.total g.fatSize)).clusters.toNat + 2, k.entryEnd n ≤ g.fatSize.toNat * 512
  inside : g.part.toNat + (k.firstData g.fatSize).toNat + (k.clusters g.total g.fatSize).toNat * k.spc.toNat ≤ cap.toNat
  exact : Exact cap part k

def Roomy (cap part : U32) (k : Kind) : Prop :=
  (partOf part).toNat + 64 < 2 ^ 32 ∧ (k = .fat32 → cap.toNat - (partOf part).toNat ≤ 2 ^ 30 - 96)

theorem layoutSums_lt (h : fatSize.toNat < fatSizeMax) : ∀ x ∈ k.layoutSums fatSize, x < 2 ^ 32 := by
  unfold Kind.layoutSums fatSizeMax at *
  have hfats : nfats.toNat = 2 := rfl
  rw [hfats]
  cases k <;> simp only [List.forall_mem_cons, Kind.rootEntries, Kind.reserved, Kind.rootSectors, reduceCtorEq, if_true, if_false]
  · exact ⟨by decide, by decide, by omega, by simp; omega, by simp; omega, fun _ hx => absurd hx List.not_mem_nil⟩
  · exact ⟨by decide, by decide, by omega, by simp; omega, by simp; omega, fun _ hx => absurd hx List.not_mem_nil⟩
  · exact ⟨by decide, by decide, by omega, by simp; omega, by simp; omega, fun _ hx => absurd hx List.not_mem_nil⟩

def Kind.Countable (k : Kind) (total : U32) : Prop := k = .fat32 → total.toNat ≤ 2 ^ 30 - 96

theorem needSums_lt (hpos : 1 ≤ fatSize.toNat) (hsmall : fatSize.toNat < fatSizeMax) (hc : k.Countable total) :
    ∀ x ∈ k.needSums (k.clusters total fatSize), x < 2 ^ 32 := by
  have hcount := @clusters_toNat k total fatSize hsmall
  have hlt := total.isLt
  unfold Kind.needSums
  cases k
  · have hspc : Kind.fat12.spc.toNat = 16 := rfl
    rw [hspc] at hcount
    simp only [List.forall_mem_cons]
    exact ⟨by omega, by omega, by omega, by omega, fun _ hx => absurd hx List.not_mem_nil⟩
  · have hspc : Kind.fat16.spc.toNat = 4 := rfl
    rw [hspc] at hcount
    simp only [List.forall_mem_cons]
    exact ⟨by omega, by omega, by omega, fun _ hx => absurd hx List.not_mem_nil⟩
  · have hspc : Kind.fat32.spc.toNat = 1 := rfl
    have hfixed : Kind.fat32.fixed = 32 := rfl
    have hfew := hc rfl
    rw [hspc, hfixed, Nat.div_one] at hcount
    simp only [List.forall_mem_cons]
    exact ⟨by omega, by omega, by omega, fun _ hx => absurd hx List.not_mem_nil⟩

theorem growSums_lt (hpos : 1 ≤ fatSize.toNat) (hsmall : fatSize.toNat < fatSizeMax) (hc : k.Countable total) :
    ∀ x ∈ growSums k total fatSize left, x < 2 ^ 32 := by
  have hround : ∀ {fatSize : U32}, 1 ≤ fatSize.toNat → fatSize.toNat < fatSizeMax →
      ∀ x ∈ k.layoutSums fatSize ++ k.needSums (k.clusters total fatSize), x < 2 ^ 32 := by
    intro fatSize hpos hsmall x hx
    rcases List.mem_append.mp hx with hx | hx
    · exact layoutSums_lt hsmall x hx
    · exact needSums_lt hpos hsmall hc x hx
  induction left generalizing fatSize with
  | zero =>
    unfold growSums
    dsimp only
    rw [ite_self, List.append_nil]
    exact hround hpos hsmall
  | succ left ih =>
    unfold growSums
    dsimp only
    intro x hx
    rcases List.mem_append.mp hx with hx | hx
    · exact hround hpos hsmall x hx
    · split at hx
      · contradiction
      · rename_i hgrow
        have hlt : fatSize.toNat < (k.need (k.clusters total fatSize)).toNat := BitVec.not_le.mp hgrow
        exact ih (by omega) need_lt x hx

theorem shrinkSums_lt (hc : k.Countable total) : ∀ x ∈ shrinkSums k total 1 left, x < 2 ^ 32 := by
  induction left generalizing total with
  | zero => exact layoutSums_lt (by decide)
  | succ left ih =>
    unfold shrinkSums
    dsimp only
    obtain ⟨f, hf⟩ := @growFat_grows k total 1 9 1 (by decide) (Or.inl rfl)
    have hsmall : (growFat k total 1 9).fatSize.toNat < fatSizeMax := by
      rcases hf.same with heq | ⟨-, heq⟩
      · rw [heq]
        exact hf.small
      · rw [heq]
        exact need_lt
    intro x hx
    rcases List.mem_append.mp hx with hx | hx
    · exact growSums_lt (by decide) (by decide) hc x hx
    · split at hx
      · exact layoutSums_lt hsmall x hx
      · split at hx
        · exact layoutSums_lt hsmall x hx
        · rename_i hwant
          refine ih (fun hk => ?_) x hx
          have hfew := hc hk
          rw [BitVec.toNat_ofNat]
          exact Nat.le_trans (Nat.mod_le _ _) (by omega)

theorem countable_of_sums (h : ∀ x ∈ shrinkSums .fat32 total 1 8, x < 2 ^ 32) : total.toNat ≤ 2 ^ 30 - 96 := by
  have hcount := @clusters_toNat .fat32 total 1 (by decide)
  have hspc : Kind.fat32.spc.toNat = 1 := rfl
  have hfixed : Kind.fat32.fixed = 32 := rfl
  have hone : (1 : U32).toNat = 1 := rfl
  rw [hspc, hfixed, hone, Nat.div_one] at hcount
  have hmem : ((Kind.fat32.clusters total 1).toNat + 2) * 4 + 511 ∈ shrinkSums .fat32 total 1 8 := by
    unfold shrinkSums growSums Kind.needSums
    simp only [List.mem_append, List.mem_cons, true_or, or_true]
  have hlt := h _ hmem
  omega

theorem bootSector_signed : bootSigned (bootSector k part total fatSize) = true ∧ bootSector k part total fatSize 21 = 0xF8 := by
  have hge : total ≥ 0x10000 ↔ ¬ total < 0x10000 := BitVec.not_lt.symm
  by_cases htotal : total < 0x10000 <;> constructor <;> unfold bootSector <;> cases k <;>
    simp only [hge, htotal, if_true, if_false, reduceCtorEq, ne_eq, not_true_eq_false, not_false_eq_true, bootSigned] <;>
    simp (disch := simp [labelOf_length]) only [writeBytes_of_disjoint, write16_of_disjoint, write32_of_disjoint] <;>
    rfl

theorem probe_of_fits (hfits : Fits k total fatSize) (hmin : k.minClusters ≤ k.clusters total fatSize) :
    fatProbe (bootSector k part total fatSize) = some k := by
  have hfew := hfits.few
  have hmany : k.minClusters.toNat ≤ (k.clusters total fatSize).toNat := hmin
  have hlt : k.firstData fatSize < total := by
    unfold Kind.clusters at hmany
    split at hmany
    · assumption
    · cases k <;> exact absurd hmany (by decide)
  have htotal : total ≠ 0 := by
    rintro rfl
    exact absurd hlt (by simp)
  have hsize : fatSize ≠ 0 := by
    rintro rfl
    exact absurd hfits.pos (by decide)
  have hb := (@bootSector_holds k part total fatSize).bpb hfits htotal
  obtain ⟨hsigned, hmedia⟩ := @bootSector_signed k part total fatSize
  have hclusters := clusters_eq hb hmin
  have hhead : ¬ (k.firstData fatSize ≥ total ∨ k.clusters total fatSize < 2) := by
    rintro (hge | htwo)
    · exact absurd hlt (BitVec.not_lt.mpr hge)
    · have htwo : (k.clusters total fatSize).toNat < 2 := htwo
      cases k
      · have heq : Kind.fat12.minClusters.toNat = 16 := rfl
        omega
      · have heq : Kind.fat16.minClusters.toNat = 4085 := rfl
        omega
      · have heq : Kind.fat32.minClusters.toNat = 65525 := rfl
        omega
  unfold fatProbe
  dsimp only
  rw [hsigned, hmedia, hclusters, firstData_eq hb, hb.bps, hb.spc, hb.reserved, hb.nfats, hb.total, hb.fatSize,
    hb.rootEntries, if_neg (by decide), if_neg (by decide), if_neg (by cases k <;> decide)]
  have hfields : ¬ (k.reserved = 0 ∨ nfats < 1 ∨ nfats > 2 ∨ total = 0 ∨ (0xF8 : Byte) < 0xF0 ∨ fatSize = 0) := by
    rintro (hres | hone | htwo | hzero | hlow | hnone)
    · cases k <;> exact absurd hres (by decide)
    · exact absurd hone (by decide)
    · exact absurd htwo (by decide)
    · exact htotal hzero
    · exact absurd hlow (by decide)
    · exact hsize hnone
  rw [if_neg hfields, if_neg hhead]
  cases k
  · have hmax : Kind.fat12.maxClusters.toNat = 4084 := rfl
    have hbelow : Kind.fat12.clusters total fatSize < 4085 := by
      show (Kind.fat12.clusters total fatSize).toNat < 4085
      omega
    rw [if_pos hbelow]
  · have hmax : Kind.fat16.maxClusters.toNat = 65524 := rfl
    have hleast : Kind.fat16.minClusters.toNat = 4085 := rfl
    have habove : ¬ Kind.fat16.clusters total fatSize < 4085 := by
      show ¬ (Kind.fat16.clusters total fatSize).toNat < 4085
      omega
    have hbelow : Kind.fat16.clusters total fatSize < 65525 := by
      show (Kind.fat16.clusters total fatSize).toNat < 65525
      omega
    rw [if_neg habove, if_pos hbelow]
  · have hleast : Kind.fat32.minClusters.toNat = 65525 := rfl
    have hmax : Kind.fat32.maxClusters.toNat = 0x0FFFFFF0 := rfl
    have habove : ¬ Kind.fat32.clusters total fatSize < 4085 := by
      show ¬ (Kind.fat32.clusters total fatSize).toNat < 4085
      omega
    have hbelow : ¬ Kind.fat32.clusters total fatSize < 65525 := by
      show ¬ (Kind.fat32.clusters total fatSize).toNat < 65525
      omega
    have hnarrow : ¬ (Kind.fat32.rootEntries ≠ 0 ∨ (bpbOf (bootSector .fat32 part total fatSize)).fatSize16 ≠ 0) := by
      rintro (hroot | hnarrow)
      · exact hroot rfl
      · refine hnarrow ?_
        unfold bpbOf
        dsimp only
        rw [bootSector_holds.size0 rfl]
        rfl
    have hroot : ¬ ((2 : U32) < 2 ∨ (2 : U32) ≥ Kind.fat32.clusters total fatSize + 2) := by
      rintro (hlow | hhigh)
      · exact absurd hlow (by decide)
      · have hhigh : (Kind.fat32.clusters total fatSize + 2).toNat ≤ 2 := hhigh
        have htwo : (2 : U32).toNat = 2 := rfl
        rw [BitVec.toNat_add, htwo] at hhigh
        omega
    rw [if_neg habove, if_neg hbelow, if_neg hnarrow, hb.rootCluster rfl, if_neg hroot]

theorem fatGeometry_eq_some {g : Plot} : fatGeometry cap part k = some g ↔ cap ≠ 0 ∧ ¬ cap ≤ partOf part + 64 ∧
    g.part = partOf part ∧ shrink k (cap - partOf part) 1 8 = (g.total, g.fatSize) ∧
      k.minClusters ≤ k.clusters g.total g.fatSize := by
  unfold fatGeometry partOf
  dsimp only
  generalize (if part = 0 then 1 else part) = part
  obtain ⟨total, fatSize⟩ := shrink k (cap - part) 1 8
  obtain ⟨gpart, gtotal, gsize⟩ := g
  dsimp only
  by_cases hcap : cap = 0
  · rw [if_pos hcap]
    exact ⟨fun h => (nomatch h), fun h => absurd hcap h.1⟩
  · rw [if_neg hcap]
    by_cases hroom : cap ≤ part + 64
    · rw [if_pos hroom]
      exact ⟨fun h => (nomatch h), fun h => absurd hroom h.2.1⟩
    · rw [if_neg hroom]
      by_cases hmin : k.clusters total fatSize < k.minClusters
      · rw [if_pos hmin]
        refine ⟨fun h => (nomatch h), fun ⟨_, _, _, heq, hmin'⟩ => ?_⟩
        obtain ⟨rfl, rfl⟩ := Prod.mk.inj heq
        exact absurd hmin (BitVec.not_lt.mpr hmin')
      · rw [if_neg hmin]
        constructor
        · intro h
          obtain ⟨rfl, rfl, rfl⟩ := Plot.mk.inj (Option.some.inj h)
          exact ⟨hcap, hroom, rfl, rfl, BitVec.not_lt.mp hmin⟩
        · rintro ⟨-, -, rfl, heq, -⟩
          obtain ⟨rfl, rfl⟩ := Prod.mk.inj heq
          rfl

theorem partOf_guard (h : (partOf part).toNat + 64 < 2 ^ 32) : (partOf part + 64).toNat = (partOf part).toNat + 64 := by
  have hword : (64 : U32).toNat = 64 := rfl
  rw [BitVec.toNat_add, hword, Nat.mod_eq_of_lt h]

/-- The geometry that is not refused is right if and only if the guard and the bytes of the FAT are counted in 32 bits. -/
theorem fatGeometry_plotted {g : Plot} (h : fatGeometry cap part k = some g) :
    Plotted cap part k g ↔ Roomy cap part k := by
  obtain ⟨-, hroom, hpart, hshrink, hmin⟩ := fatGeometry_eq_some.mp h
  obtain ⟨total, fatSize, heq, hsettled⟩ := shrink_settled k (cap - partOf part)
  obtain ⟨rfl, rfl⟩ := Prod.mk.inj (hshrink.symm.trans heq)
  have hfits := hsettled.fits
  constructor
  · intro hplot
    refine ⟨hplot.exact.guard, ?_⟩
    rintro rfl
    have hcount := countable_of_sums hplot.exact.sums
    rwa [BitVec.toNat_sub_of_le hplot.exact.avail] at hcount
  · rintro ⟨hguard, hcount⟩
    have hroom : (partOf part + 64).toNat < cap.toNat := BitVec.not_le.mp hroom
    rw [partOf_guard hguard] at hroom
    have havail : partOf part ≤ cap := by
      show (partOf part).toNat ≤ cap.toNat
      omega
    have htotal : g.total.toNat ≤ (cap - partOf part).toNat := hsettled.1
    have hne : g.total ≠ 0 := by
      intro hzero
      have hmin' : k.minClusters.toNat ≤ (k.clusters g.total g.fatSize).toNat := hmin
      rw [clusters_toNat hfits.small, hzero] at hmin'
      have hzero : (0 : U32).toNat = 0 := rfl
      rw [hzero, Nat.zero_sub, Nat.zero_div] at hmin'
      cases k <;> exact absurd hmin' (by decide)
    have hb := (@bootSector_holds k g.part g.total g.fatSize).bpb hfits hne
    refine ⟨probe_of_fits hfits hmin, ?_, ?_, hguard, havail, shrinkSums_lt fun hk => ?_⟩
    · intro n hn
      rw [clusters_eq hb hmin] at hn
      have hinside := entry_inside hfits.covers hn
      unfold Kind.entryEnd
      cases k <;> exact hinside
    · rw [BitVec.toNat_sub_of_le havail] at htotal
      have hdiv := Nat.div_mul_le_self (g.total.toNat - (k.fixed + 2 * g.fatSize.toNat)) k.spc.toNat
      have hmin' : k.minClusters.toNat ≤ (k.clusters g.total g.fatSize).toNat := hmin
      have hpos : 0 < (k.clusters g.total g.fatSize).toNat :=
        Nat.lt_of_lt_of_le (by cases k <;> decide) hmin'
      rw [clusters_toNat hfits.small] at hpos ⊢
      have hlt := Nat.pos_of_ne_zero (fun hz : g.total.toNat - (k.fixed + 2 * g.fatSize.toNat) = 0 => by
        rw [hz, Nat.zero_div] at hpos
        exact absurd hpos (Nat.lt_irrefl 0))
      rw [hpart, firstData_toNat hfits.small]
      omega
    · rw [BitVec.toNat_sub_of_le havail]
      exact hcount hk

theorem fatGeometry_plotted_small : Plotted 400 1 .fat12 ⟨1, 399, 1⟩ ↔ Roomy 400 1 .fat12 :=
  fatGeometry_plotted rfl

/-- A partition behind the end of the device is accepted, because the sum of the guard wraps; so is a FAT32 whose bytes
are not counted in 32 bits. -/
theorem fatGeometry_wraps : ¬ (∀ g, fatGeometry 0x80000000 0xFFFFFFF6 .fat16 = some g → Plotted 0x80000000 0xFFFFFFF6 .fat16 g) ∧
    ¬ (∀ g, fatGeometry 0x80000000 1 .fat32 = some g → Plotted 0x80000000 1 .fat32 g) := by
  constructor
  · intro h
    have hplot := h ⟨0xFFFFFFF6, 262643, 257⟩ rfl
    exact absurd hplot.inside (by decide)
  · intro h
    have hplot := h ⟨1, 268435474, 2097152⟩ rfl
    exact absurd (countable_of_sums hplot.exact.sums) (by decide)

end Ezos.Fat
