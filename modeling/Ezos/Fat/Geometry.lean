import Ezos.Fat.Format
import Mathlib.Tactic.NormNum

/-!
# The geometry that `fat_format` arrives at

A volume with more clusters than its type can address is cut, and what is cut off depends on the size of the FAT that
was too large. The excess is divided by 64 in each round, so the loop is done before its last round: the FAT has an
entry for every cluster, and no cluster has the number of a mark.
-/

namespace Ezos.Fat

open Lib.Memory

set_option autoImplicit false

variable {k : Kind} {total fatSize count : U32} {fit : Fit} {left f n : Nat}

def Kind.fixed (k : Kind) : Nat := if k = .fat32 then 32 else 33

def Kind.sizeFor (k : Kind) (c : Nat) : Nat :=
  match k with
  | .fat12 => (((c + 2) * 3 + 1) / 2 + 511) / 512
  | .fat16 => ((c + 2) * 2 + 511) / 512
  | .fat32 => ((c + 2) * 4 + 511) / 512

def fatSizeMax : Nat := 2 ^ 23

theorem firstData_toNat (h : fatSize.toNat < fatSizeMax) :
    (k.firstData fatSize).toNat = k.fixed + 2 * fatSize.toNat := by
  have hmul : (nfats * fatSize).toNat = 2 * fatSize.toNat := by
    have htwo : nfats.toNat = 2 := rfl
    rw [BitVec.toNat_mul, htwo]
    unfold fatSizeMax at h
    omega
  unfold fatSizeMax at h
  unfold Kind.firstData
  rw [BitVec.toNat_add, BitVec.toNat_add, hmul]
  cases k
  · have hres : Kind.fat12.reserved.toNat = 1 := rfl
    have hroot : Kind.fat12.rootSectors.toNat = 32 := rfl
    have hfixed : Kind.fat12.fixed = 33 := rfl
    omega
  · have hres : Kind.fat16.reserved.toNat = 1 := rfl
    have hroot : Kind.fat16.rootSectors.toNat = 32 := rfl
    have hfixed : Kind.fat16.fixed = 33 := rfl
    omega
  · have hres : Kind.fat32.reserved.toNat = 32 := rfl
    have hroot : Kind.fat32.rootSectors.toNat = 0 := rfl
    have hfixed : Kind.fat32.fixed = 32 := rfl
    omega

theorem clusters_toNat (h : fatSize.toNat < fatSizeMax) :
    (k.clusters total fatSize).toNat = (total.toNat - (k.fixed + 2 * fatSize.toNat)) / k.spc.toNat := by
  unfold Kind.clusters
  rw [← firstData_toNat h]
  by_cases hlt : total > k.firstData fatSize
  · rw [if_pos hlt, BitVec.toNat_udiv, BitVec.toNat_sub_of_le (BitVec.le_of_lt hlt)]
  · rw [if_neg hlt]
    have hle : total.toNat ≤ (k.firstData fatSize).toNat := Nat.le_of_not_lt hlt
    rw [Nat.sub_eq_zero_of_le hle, Nat.zero_div]
    rfl

theorem need_lt : (k.need count).toNat < fatSizeMax := by
  unfold Kind.need fatSizeMax
  dsimp only
  generalize (match k with
    | .fat12 => ((count + 2) * 3 + 1) / 2
    | .fat16 => (count + 2) * 2
    | .fat32 => (count + 2) * 4) + 511 = x
  have hlt := x.isLt
  have hdiv : (512 : U32).toNat = 512 := rfl
  rw [BitVec.toNat_udiv, hdiv]
  omega

def Kind.Few (k : Kind) (c : Nat) : Prop :=
  match k with
  | .fat12 => c < 2 ^ 28
  | .fat16 => c < 2 ^ 30
  | .fat32 => c < 2 ^ 29

theorem need_toNat (h : k.Few count.toNat) : (k.need count).toNat = k.sizeFor count.toNat := by
  have h2 : (2 : U32).toNat = 2 := rfl
  have h511 : (511 : U32).toNat = 511 := rfl
  have h512 : (512 : U32).toNat = 512 := rfl
  unfold Kind.need Kind.sizeFor
  unfold Kind.Few at h
  cases k
  · have h1 : (1 : U32).toNat = 1 := rfl
    have h3 : (3 : U32).toNat = 3 := rfl
    have hmul : ((count + 2) * 3 + 1).toNat = (count.toNat + 2) * 3 + 1 := by
      rw [BitVec.toNat_add, BitVec.toNat_mul, BitVec.toNat_add, h1, h2, h3]
      dsimp only at h
      omega
    dsimp only at h ⊢
    rw [BitVec.toNat_udiv, BitVec.toNat_add, BitVec.toNat_udiv, hmul, h2, h511, h512]
    omega
  · simp only [BitVec.toNat_udiv, BitVec.toNat_add, BitVec.toNat_mul, h2, h511, h512] at h ⊢
    omega
  · have h4 : (4 : U32).toNat = 4 := rfl
    simp only [BitVec.toNat_udiv, BitVec.toNat_add, BitVec.toNat_mul, h2, h4, h511, h512] at h ⊢
    omega

theorem sizeFor_mono {c c' : Nat} (h : c ≤ c') : k.sizeFor c ≤ k.sizeFor c' := by
  unfold Kind.sizeFor
  cases k <;> dsimp only <;> omega

theorem entry_inside {c : Nat} (h : k.sizeFor c ≤ n) (hf : f < c + 2) :
    match k with
    | .fat12 => f + f / 2 + 2 ≤ n * 512
    | .fat16 => f * 2 + 2 ≤ n * 512
    | .fat32 => f * 4 + 4 ≤ n * 512 := by
  unfold Kind.sizeFor at h
  cases k <;> dsimp only at h ⊢ <;> omega

/-- What the inner loop ends with: the clusters are counted for a FAT of `f` sectors, and the FAT is that one,
or the one that so many clusters need. -/
structure Grows (k : Kind) (total : U32) (start : Nat) (fit : Fit) (f : U32) : Prop where
  small : f.toNat < fatSizeMax
  firstData : fit.firstData = k.firstData f
  clusters : fit.clusters = k.clusters total f
  covers : k.need fit.clusters ≤ fit.fatSize
  same : fit.fatSize = f ∨ (f < fit.fatSize ∧ fit.fatSize = k.need fit.clusters)
  origin : f.toNat = start ∨ ∃ g : U32, g < f ∧ g.toNat < fatSizeMax ∧ f = k.need (k.clusters total g)

theorem growFat_grows {start : Nat} (hsmall : fatSize.toNat < fatSizeMax)
    (horigin : fatSize.toNat = start ∨
      ∃ g : U32, g < fatSize ∧ g.toNat < fatSizeMax ∧ fatSize = k.need (k.clusters total g)) :
    ∃ f, Grows k total start (growFat k total fatSize left) f := by
  induction left generalizing fatSize with
  | zero =>
    unfold growFat
    dsimp only
    split
    · rename_i hle
      exact ⟨fatSize, hsmall, rfl, rfl, hle, Or.inl rfl, horigin⟩
    · rename_i hno
      exact ⟨fatSize, hsmall, rfl, rfl, BitVec.le_refl _, Or.inr ⟨BitVec.not_le.mp hno, rfl⟩, horigin⟩
  | succ left ih =>
    unfold growFat
    dsimp only
    split
    · rename_i hle
      exact ⟨fatSize, hsmall, rfl, rfl, hle, Or.inl rfl, horigin⟩
    · rename_i hno
      exact ih need_lt (Or.inr ⟨fatSize, BitVec.not_le.mp hno, hsmall, rfl⟩)

/-! ## The outer loop -/

structure Cut (k : Kind) (total : U32) (f : Nat) : Prop where
  pos : 1 ≤ f
  small : f < fatSizeMax
  total : total.toNat = k.fixed + 2 * f + k.maxClusters.toNat * k.spc.toNat

def Kind.settles : Kind → Nat
  | .fat12 => 19
  | .fat16 => 257
  | .fat32 => 2130441

def Kind.after (k : Kind) (f : Nat) : Nat := k.sizeFor (k.maxClusters.toNat + (2 * f - 2) / k.spc.toNat)

theorem after_bounds (hpos : 1 ≤ f) (hsmall : f < fatSizeMax) :
    1 < k.after f ∧ k.after f < fatSizeMax ∧ k.after f - k.settles ≤ (f - k.settles) / 64 ∧
      (f ≤ k.settles → 2 * f < 2 * k.after f + k.spc.toNat) := by
  unfold Kind.after Kind.sizeFor fatSizeMax Kind.settles at *
  cases k
  · have hmax : Kind.fat12.maxClusters.toNat = 4084 := rfl
    have hspc : Kind.fat12.spc.toNat = 16 := rfl
    rw [hmax, hspc]
    dsimp only
    omega
  · have hmax : Kind.fat16.maxClusters.toNat = 65524 := rfl
    have hspc : Kind.fat16.spc.toNat = 4 := rfl
    rw [hmax, hspc]
    dsimp only
    omega
  · have hmax : Kind.fat32.maxClusters.toNat = 268435440 := rfl
    have hspc : Kind.fat32.spc.toNat = 1 := rfl
    rw [hmax, hspc]
    dsimp only
    omega

theorem spc_pos (k : Kind) : 0 < k.spc.toNat := by
  cases k <;> decide

theorem Cut.clusters (h : Cut k total f) (hg : fatSize.toNat < fatSizeMax) : (k.clusters total fatSize).toNat =
    (k.maxClusters.toNat * k.spc.toNat + 2 * f - 2 * fatSize.toNat) / k.spc.toNat := by
  have htotal := h.total
  rw [clusters_toNat hg]
  congr 1
  omega

theorem Cut.clusters_one (h : Cut k total f) :
    (k.clusters total 1).toNat = k.maxClusters.toNat + (2 * f - 2) / k.spc.toNat := by
  have hone : (1 : U32).toNat = 1 := rfl
  have hpos := h.pos
  rw [h.clusters (by decide), hone, Nat.add_sub_assoc (by omega), Nat.mul_comm, Nat.mul_add_div (spc_pos k)]

theorem Cut.few (h : Cut k total f) : k.Few (k.clusters total 1).toNat := by
  have hsmall := h.small
  rw [h.clusters_one]
  unfold fatSizeMax at hsmall
  unfold Kind.Few
  cases k
  · have hmax : Kind.fat12.maxClusters.toNat = 4084 := rfl
    have hspc : Kind.fat12.spc.toNat = 16 := rfl
    rw [hmax, hspc]
    dsimp only
    omega
  · have hmax : Kind.fat16.maxClusters.toNat = 65524 := rfl
    have hspc : Kind.fat16.spc.toNat = 4 := rfl
    rw [hmax, hspc]
    dsimp only
    omega
  · have hmax : Kind.fat32.maxClusters.toNat = 268435440 := rfl
    have hspc : Kind.fat32.spc.toNat = 1 := rfl
    rw [hmax, hspc]
    dsimp only
    omega

theorem Few.mono {c c' : Nat} (h : k.Few c') (hle : c ≤ c') : k.Few c := by
  unfold Kind.Few at h ⊢
  cases k <;> exact Nat.lt_of_le_of_lt hle h

theorem Cut.growFat (h : Cut k total f) {left : Nat} : ∃ g : U32, g.toNat = k.after f ∧
    growFat k total 1 (left + 1) = { fatSize := g, firstData := k.firstData g, clusters := k.clusters total g } := by
  obtain ⟨hone, hsmall, -, -⟩ := @after_bounds k f h.pos h.small
  have hneed : (k.need (k.clusters total 1)).toNat = k.after f := by
    rw [need_toNat h.few, h.clusters_one]
    rfl
  refine ⟨k.need (k.clusters total 1), hneed, ?_⟩
  have hgrow : ¬ k.need (k.clusters total 1) ≤ 1 := by
    rw [BitVec.not_le]
    have hlt : (1 : U32).toNat < (k.need (k.clusters total 1)).toNat := by
      rw [hneed]
      exact hone
    exact hlt
  have hle : (k.clusters total (k.need (k.clusters total 1))).toNat ≤ (k.clusters total 1).toNat := by
    rw [h.clusters need_lt, h.clusters (by decide), hneed]
    refine Nat.div_le_div_right ?_
    have hword : (1 : U32).toNat = 1 := rfl
    omega
  have hfit : k.need (k.clusters total (k.need (k.clusters total 1))) ≤ k.need (k.clusters total 1) := by
    have hmono := @sizeFor_mono k _ _ hle
    rw [← need_toNat h.few, ← need_toNat (Few.mono h.few hle)] at hmono
    exact hmono
  rw [Fat.growFat]
  rw [if_neg hgrow]
  cases left <;> rw [Fat.growFat, if_pos hfit]

def Settled (k : Kind) (avail total fatSize : U32) : Prop :=
  total ≤ avail ∧ ∃ fit f, Grows k total 1 fit f ∧ fit.clusters ≤ k.maxClusters ∧ fatSize = fit.fatSize

theorem Cut.grows (h : Cut k total f) {g : U32} (hg : g.toNat = k.after f) (hgrow : Fat.growFat k total 1 9 =
    { fatSize := g, firstData := k.firstData g, clusters := k.clusters total g }) :
    Grows k total 1 { fatSize := g, firstData := k.firstData g, clusters := k.clusters total g } g := by
  obtain ⟨x, hx⟩ := @growFat_grows k total 1 9 1 (by decide) (Or.inl rfl)
  rw [hgrow] at hx
  refine ⟨?_, rfl, rfl, hx.covers, Or.inl rfl, ?_⟩
  · rw [hg]
    exact (@after_bounds k f h.pos h.small).2.1
  · refine Or.inr ⟨1, ?_, by decide, ?_⟩
    · have hlt : (1 : U32).toNat < g.toNat := by
        rw [hg]
        exact (@after_bounds k f h.pos h.small).1
      exact hlt
    · apply BitVec.eq_of_toNat_eq
      rw [hg, need_toNat h.few, h.clusters_one]
      rfl

theorem cut_next {g : U32} (hpos : 1 ≤ g.toNat) (hsmall : g.toNat < fatSizeMax)
    (hmany : ¬ k.clusters total g ≤ k.maxClusters) :
    (k.firstData g).toNat + k.maxClusters.toNat * k.spc.toNat < total.toNat ∧
      Cut k (BitVec.ofNat 32 ((k.firstData g).toNat + k.maxClusters.toNat * k.spc.toNat)) g.toNat := by
  have hlt : k.maxClusters.toNat < (k.clusters total g).toNat := BitVec.not_le.mp hmany
  rw [clusters_toNat hsmall, Nat.lt_iff_add_one_le, Nat.le_div_iff_mul_le (spc_pos k), Nat.succ_mul] at hlt
  rw [firstData_toNat hsmall]
  have hspc := spc_pos k
  have hwant : k.fixed + 2 * g.toNat + k.maxClusters.toNat * k.spc.toNat < total.toNat := by omega
  refine ⟨hwant, hpos, hsmall, ?_⟩
  rw [BitVec.toNat_ofNat, Nat.mod_eq_of_lt (Nat.lt_trans hwant total.isLt)]

theorem shrink_settles {avail : U32} (h : Cut k total f) (hexcess : f - k.settles < 64 ^ n) (hleft : n < left)
    (hle : total ≤ avail) : ∃ total' g, shrink k total 1 left = (total', g) ∧ Settled k avail total' g := by
  induction n generalizing total f left with
  | zero =>
    obtain ⟨left, rfl⟩ : ∃ l, left = l + 1 := ⟨left - 1, by omega⟩
    obtain ⟨g, hg, hgrow⟩ := @Cut.growFat k total f h 8
    obtain ⟨-, hsmall, -, hlast⟩ := @after_bounds k f h.pos h.small
    have hfew : k.clusters total g ≤ k.maxClusters := by
      have hcount := @Cut.clusters k total g f h (by rw [hg]; exact hsmall)
      have hle : (k.clusters total g).toNat ≤ k.maxClusters.toNat := by
        rw [hcount, hg, ← Nat.lt_succ_iff, Nat.div_lt_iff_lt_mul (spc_pos k)]
        have hmul := Nat.succ_mul k.maxClusters.toNat k.spc.toNat
        have hspc := spc_pos k
        have hlast := hlast (by rw [pow_zero] at hexcess; omega)
        omega
      exact hle
    unfold shrink
    rw [hgrow]
    dsimp only
    rw [if_pos hfew]
    exact ⟨total, g, rfl, hle, _, g, h.grows hg hgrow, hfew, rfl⟩
  | succ n ih =>
    obtain ⟨left, rfl⟩ : ∃ l, left = l + 1 := ⟨left - 1, by omega⟩
    obtain ⟨g, hg, hgrow⟩ := @Cut.growFat k total f h 8
    obtain ⟨hone, hsmall, hnear, -⟩ := @after_bounds k f h.pos h.small
    unfold shrink
    rw [hgrow]
    dsimp only
    by_cases hfew : k.clusters total g ≤ k.maxClusters
    · rw [if_pos hfew]
      exact ⟨total, g, rfl, hle, _, g, h.grows hg hgrow, hfew, rfl⟩
    · obtain ⟨hwant, hcut⟩ := cut_next (by rw [hg]; omega) (by rw [hg]; exact hsmall) hfew
      rw [if_neg hfew, if_neg (Nat.not_le.mpr hwant)]
      refine ih hcut ?_ (by omega) (BitVec.le_trans ?_ hle)
      · rw [hg]
        rw [pow_succ] at hexcess
        omega
      · have hcast : (BitVec.ofNat 32 ((k.firstData g).toNat + k.maxClusters.toNat * k.spc.toNat)).toNat ≤ total.toNat := by
          rw [BitVec.toNat_ofNat]
          exact Nat.le_trans (Nat.mod_le _ _) (Nat.le_of_lt hwant)
        exact hcast

theorem shrink_settled (k : Kind) (avail : U32) :
    ∃ total g, shrink k avail 1 8 = (total, g) ∧ Settled k avail total g := by
  obtain ⟨f, hf⟩ := @growFat_grows k avail 1 9 1 (by decide) (Or.inl rfl)
  unfold shrink
  dsimp only
  by_cases hfew : (growFat k avail 1 9).clusters ≤ k.maxClusters
  · rw [if_pos hfew]
    exact ⟨avail, _, rfl, BitVec.le_refl _, _, f, hf, hfew, rfl⟩
  · rw [if_neg hfew]
    rw [hf.clusters] at hfew
    have hpos : 1 ≤ f.toNat := by
      rcases hf.origin with hone | ⟨g, hlt, -⟩
      · omega
      · have hltn : g.toNat < f.toNat := hlt
        omega
    obtain ⟨hwant, hcut⟩ := cut_next hpos hf.small hfew
    rw [hf.firstData, if_neg (Nat.not_le.mpr hwant)]
    have hsmall := hf.small
    unfold fatSizeMax at hsmall
    refine @shrink_settles k _ 7 f.toNat 4 avail hcut (by omega) (by omega) ?_
    have hcast : (BitVec.ofNat 32 ((k.firstData f).toNat + k.maxClusters.toNat * k.spc.toNat)).toNat ≤ avail.toNat := by
      rw [BitVec.toNat_ofNat]
      exact Nat.le_trans (Nat.mod_le _ _) (Nat.le_of_lt hwant)
    exact hcast

structure Fits (k : Kind) (total fatSize : U32) : Prop where
  small : fatSize.toNat < fatSizeMax
  pos : 1 ≤ fatSize.toNat
  few : (k.clusters total fatSize).toNat ≤ k.maxClusters.toNat
  covers : k.sizeFor (k.clusters total fatSize).toNat ≤ fatSize.toNat
  narrow : k ≠ .fat32 → fatSize.toNat < 2 ^ 16

theorem few_of_le {c : Nat} (h : c ≤ k.maxClusters.toNat) : k.Few c := by
  have hmax : k.Few k.maxClusters.toNat := by
    cases k
    · have heq : Kind.fat12.maxClusters.toNat = 4084 := rfl
      rw [heq]
      unfold Kind.Few
      omega
    · have heq : Kind.fat16.maxClusters.toNat = 65524 := rfl
      rw [heq]
      unfold Kind.Few
      omega
    · have heq : Kind.fat32.maxClusters.toNat = 268435440 := rfl
      rw [heq]
      unfold Kind.Few
      omega
  exact Few.mono hmax h

theorem Grows.narrow {f : U32} (h : Grows k total 1 fit f) (hfew : fit.clusters ≤ k.maxClusters) (hk : k ≠ .fat32) :
    fit.fatSize.toNat < 2 ^ 16 := by
  have hcount : (k.clusters total f).toNat ≤ k.maxClusters.toNat := by
    rw [← h.clusters]
    exact hfew
  have hneed : (k.need fit.clusters).toNat < 2 ^ 16 := by
    rw [h.clusters, need_toNat (few_of_le hcount)]
    refine Nat.lt_of_le_of_lt (sizeFor_mono hcount) ?_
    cases k
    · decide
    · decide
    · contradiction
  rcases h.same with heq | ⟨-, heq⟩
  · rw [heq]
    rcases h.origin with hone | ⟨g, hlt, hg, hfg⟩
    · omega
    · have hgf : g.toNat < f.toNat := hlt
      have htotal := total.isLt
      have hwide : k.Few (k.clusters total g).toNat := by
        rw [clusters_toNat hg]
        unfold Kind.Few
        cases k
        · have hspc : Kind.fat12.spc.toNat = 16 := rfl
          rw [hspc]
          dsimp only
          omega
        · have hspc : Kind.fat16.spc.toNat = 4 := rfl
          rw [hspc]
          dsimp only
          omega
        · contradiction
      have hsize : f.toNat = k.sizeFor (k.clusters total g).toNat := by
        rw [← need_toNat hwide, ← hfg]
      rw [clusters_toNat h.small] at hcount
      rw [clusters_toNat hg] at hsize
      unfold Kind.sizeFor at hsize
      cases k
      · have hspc : Kind.fat12.spc.toNat = 16 := rfl
        have hmax : Kind.fat12.maxClusters.toNat = 4084 := rfl
        rw [hspc] at hsize hcount
        rw [hmax] at hcount
        dsimp only at hsize
        omega
      · have hspc : Kind.fat16.spc.toNat = 4 := rfl
        have hmax : Kind.fat16.maxClusters.toNat = 65524 := rfl
        rw [hspc] at hsize hcount
        rw [hmax] at hcount
        dsimp only at hsize
        omega
      · contradiction
  · rw [heq]
    exact hneed

theorem Settled.fits {avail : U32} (h : Settled k avail total fatSize) : Fits k total fatSize := by
  obtain ⟨-, fit, f, hgrow, hfew, rfl⟩ := h
  have hcount : (k.clusters total f).toNat ≤ k.maxClusters.toNat := by
    rw [← hgrow.clusters]
    exact hfew
  have hsmall : fit.fatSize.toNat < fatSizeMax := by
    rcases hgrow.same with heq | ⟨-, heq⟩
    · rw [heq]
      exact hgrow.small
    · rw [heq]
      exact need_lt
  have hpos : 1 ≤ f.toNat := by
    rcases hgrow.origin with hone | ⟨g, hlt, -⟩
    · omega
    · have hltn : g.toNat < f.toNat := hlt
      omega
  have hle : f.toNat ≤ fit.fatSize.toNat := by
    rcases hgrow.same with heq | ⟨hlt, -⟩
    · rw [heq]
    · exact Nat.le_of_lt hlt
  have hless : (k.clusters total fit.fatSize).toNat ≤ (k.clusters total f).toNat := by
    rw [clusters_toNat hsmall, clusters_toNat hgrow.small]
    refine Nat.div_le_div_right ?_
    omega
  have hcovers : k.sizeFor (k.clusters total f).toNat ≤ fit.fatSize.toNat := by
    have hneed := hgrow.covers
    rw [hgrow.clusters] at hneed
    rw [← need_toNat (few_of_le hcount)]
    exact hneed
  exact ⟨hsmall, Nat.le_trans hpos hle, Nat.le_trans hless hcount, Nat.le_trans (sizeFor_mono hless) hcovers,
    hgrow.narrow hfew⟩

end Ezos.Fat
