import Ezos.Fat.Chains
import Ezos.Lib.Orbit

/-!
# The walk through the blocks of a directory (`kernel/fat.c`)

The walk follows the FAT a block at a time, with a second pointer that moves at every other step and a bound on the steps. It
passes every block of a chain that does not come back to itself, and leaves a cycle.
-/

namespace Ezos.Fat

open Lib.Orbit

set_option autoImplicit false

variable {v : Vol} {dir i j k t c : Nat} {w w' : DirWalk} {b : Block}

def chainAt (v : Vol) (dir : Nat) : Nat → Option Block := orbit (fatDirStep v) (fatDirBlock v dir)

def walkAt (v : Vol) (dir : Nat) : Nat → Option DirWalk := orbit (fatDirWalkNext v) (fatDirWalkStart v dir)

theorem fatDirBlock_cases (h : fatDirBlock v dir = some b) :
    (fatDirMaxBlocks v dir = v.info.rootDirSectors ∧ 0 < v.info.rootDirSectors ∧ b = .root 0) ∨
      fatDirMaxBlocks v dir = v.limit ∧ Within v dir ∧ b = .cluster dir := by
  unfold fatDirBlock at h
  unfold fatDirMaxBlocks
  by_cases hr : dir = 0 ∧ v.kind ≠ .fat32
  · rw [if_pos hr] at h ⊢
    by_cases hz : v.info.rootDirSectors = 0
    · rw [if_pos hz] at h
      contradiction
    · rw [if_neg hz] at h ⊢
      exact Or.inl ⟨rfl, Nat.pos_of_ne_zero hz, (Option.some.inj h).symm⟩
  · rw [if_neg hr] at h ⊢
    by_cases hout : dir < 2 ∨ dir ≥ v.limit
    · rw [if_pos hout] at h
      contradiction
    · rw [if_neg hout] at h
      have hlim : v.limit = v.info.clusterCount + 2 := rfl
      rw [if_neg (by omega)]
      exact Or.inr ⟨rfl, by unfold Within; omega, (Option.some.inj h).symm⟩

theorem fatDirStep_root (h : fatDirStep v (.root i) = some b) : i + 1 < v.info.rootDirSectors ∧ b = .root (i + 1) := by
  unfold fatDirStep at h
  dsimp only at h
  split at h
  · contradiction
  · exact ⟨by omega, (Option.some.inj h).symm⟩

theorem fatDirStep_cluster (h : fatDirStep v (.cluster i) = some b) : ∃ d, Within v d ∧ b = .cluster d := by
  unfold fatDirStep at h
  dsimp only at h
  split at h
  · contradiction
  · rename_i hgo
    exact ⟨_, by unfold Within; omega, (Option.some.inj h).symm⟩

theorem chainAt_root (h : fatDirBlock v dir = some (.root 0)) (hpos : 0 < v.info.rootDirSectors)
    (hb : chainAt v dir k = some b) : k < v.info.rootDirSectors ∧ b = .root k := by
  induction k generalizing b with
  | zero => exact ⟨hpos, Option.some.inj (hb.symm.trans h)⟩
  | succ k ih =>
    obtain ⟨y, hy, hstep⟩ := orbit_pred hb
    obtain ⟨-, rfl⟩ := ih hy
    exact fatDirStep_root hstep

theorem chainAt_cluster (h : fatDirBlock v dir = some (.cluster dir)) (hw : Within v dir)
    (hb : chainAt v dir k = some b) : ∃ d, Within v d ∧ b = .cluster d := by
  induction k generalizing b with
  | zero => exact ⟨dir, hw, Option.some.inj (hb.symm.trans h)⟩
  | succ k ih =>
    obtain ⟨y, hy, hstep⟩ := orbit_pred hb
    obtain ⟨d, -, rfl⟩ := ih hy
    exact fatDirStep_cluster hstep

theorem chainAt_lt_max (ha : Acyclic (fatDirStep v) (fatDirBlock v dir)) (hb : chainAt v dir k = some b) :
    k < fatDirMaxBlocks v dir := by
  obtain ⟨b₀, h₀⟩ := orbit_some_of_le hb (Nat.zero_le k)
  rcases fatDirBlock_cases h₀ with ⟨hmax, hpos, rfl⟩ | ⟨hmax, hw, rfl⟩
  · rw [hmax]
    exact (chainAt_root h₀ hpos hb).1
  · have hin : ∀ i y, orbit (fatDirStep v) (fatDirBlock v dir) i = some y →
        y ∈ (Finset.range v.limit).image Block.cluster := by
      intro i y hy
      obtain ⟨d, hd, rfl⟩ := chainAt_cluster h₀ hw hy
      exact Finset.mem_image_of_mem _ (Finset.mem_range.mpr hd.2)
    have hlt := ha.lt_card hin hb
    have hle : ((Finset.range v.limit).image Block.cluster).card ≤ (Finset.range v.limit).card := Finset.card_image_le
    rw [Finset.card_range] at hle
    rw [hmax]
    exact Nat.lt_of_lt_of_le hlt hle

theorem fatDirWalkNext_eq_some : fatDirWalkNext v w = some w' ↔
    fatDirStep v w.fast = some w'.fast ∧ w'.steps = w.steps + 1 ∧ w'.max = w.max ∧ w.steps + 1 < w.max ∧
      if (w.steps + 1) % 2 = 0 then fatDirStep v w.slow = some w'.slow ∧ sameCluster w'.fast w'.slow = false
      else w'.slow = w.slow := by
  obtain ⟨fast', slow', steps', max'⟩ := w'
  unfold fatDirWalkNext
  cases hfast : fatDirStep v w.fast with
  | none => simp
  | some fast =>
    dsimp only
    by_cases hmax : w.steps + 1 ≥ w.max
    · rw [if_pos hmax]
      simp only [reduceCtorEq, false_iff]
      omega
    · have hlt : w.steps + 1 < w.max := Nat.lt_of_not_le hmax
      rw [if_neg hmax]
      by_cases heven : (w.steps + 1) % 2 = 0
      · rw [if_pos heven, if_pos heven]
        cases hslow : fatDirStep v w.slow with
        | none => simp
        | some slow =>
          dsimp only
          cases hsame : sameCluster fast slow with
          | true =>
            simp only [if_true, reduceCtorEq, Option.some.injEq, false_iff]
            rintro ⟨rfl, -, -, -, rfl, hno⟩
            rw [hsame] at hno
            contradiction
          | false =>
            simp only [Bool.false_eq_true, if_false, Option.some.injEq, DirWalk.mk.injEq]
            constructor
            · rintro ⟨rfl, rfl, rfl, rfl⟩
              exact ⟨rfl, rfl, rfl, hlt, rfl, hsame⟩
            · rintro ⟨rfl, rfl, rfl, -, rfl, -⟩
              exact ⟨rfl, rfl, rfl, rfl⟩
      · rw [if_neg heven, if_neg heven]
        simp only [Option.some.injEq, DirWalk.mk.injEq]
        constructor
        · rintro ⟨rfl, rfl, rfl, rfl⟩
          exact ⟨rfl, rfl, rfl, hlt, rfl⟩
        · rintro ⟨rfl, rfl, rfl, -, rfl⟩
          exact ⟨rfl, rfl, rfl, rfl⟩

structure Paced (v : Vol) (dir k : Nat) (w : DirWalk) : Prop where
  fast : chainAt v dir k = some w.fast
  slow : chainAt v dir (k / 2) = some w.slow
  steps : w.steps = k
  max : w.max = fatDirMaxBlocks v dir
  bounded : k = 0 ∨ k < fatDirMaxBlocks v dir
  apart : k ≠ 0 → k % 2 = 0 → sameCluster w.fast w.slow = false

theorem fatDirWalkStart_eq_some (h : fatDirWalkStart v dir = some w) : Paced v dir 0 w := by
  unfold fatDirWalkStart at h
  cases hb : fatDirBlock v dir with
  | none =>
    rw [hb] at h
    contradiction
  | some b =>
    rw [hb] at h
    obtain rfl := Option.some.inj h
    exact ⟨hb, hb, rfl, rfl, Or.inl rfl, fun hno => absurd rfl hno⟩

theorem Paced.next (h : Paced v dir k w) (hnext : fatDirWalkNext v w = some w') : Paced v dir (k + 1) w' := by
  obtain ⟨hfast, hsteps, hmax, hlt, hslow⟩ := fatDirWalkNext_eq_some.mp hnext
  rw [h.steps] at hsteps hlt hslow
  rw [h.max] at hmax hlt
  have hnew : chainAt v dir (k + 1) = some w'.fast := (orbit_succ h.fast).trans hfast
  by_cases heven : (k + 1) % 2 = 0
  · rw [if_pos heven] at hslow
    have hhalf : (k + 1) / 2 = k / 2 + 1 := by omega
    refine ⟨hnew, ?_, hsteps, hmax, Or.inr hlt, fun _ _ => hslow.2⟩
    rw [hhalf]
    exact (orbit_succ h.slow).trans hslow.1
  · rw [if_neg heven] at hslow
    have hhalf : (k + 1) / 2 = k / 2 := by omega
    refine ⟨hnew, ?_, hsteps, hmax, Or.inr hlt, fun _ hno => absurd hno heven⟩
    rw [hhalf, hslow]
    exact h.slow

theorem walkAt_paced (h : walkAt v dir k = some w) : Paced v dir k w := by
  induction k generalizing w with
  | zero => exact fatDirWalkStart_eq_some h
  | succ k ih =>
    obtain ⟨w₀, h₀, hnext⟩ := orbit_pred h
    exact (ih h₀).next hnext

theorem walkAt_of_acyclic (ha : Acyclic (fatDirStep v) (fatDirBlock v dir)) (hb : chainAt v dir k = some b) :
    ∃ w, walkAt v dir k = some w ∧ w.fast = b := by
  induction k generalizing b with
  | zero =>
    have hfirst : fatDirBlock v dir = some b := hb
    refine ⟨{ fast := b, slow := b, steps := 0, max := fatDirMaxBlocks v dir }, ?_, rfl⟩
    change fatDirWalkStart v dir = _
    rw [fatDirWalkStart, hfirst]
  | succ k ih =>
    obtain ⟨b₀, hb₀, hstep⟩ := orbit_pred hb
    obtain ⟨w, hw, rfl⟩ := ih hb₀
    have hp := walkAt_paced hw
    have hlt := chainAt_lt_max ha hb
    obtain ⟨s, hs⟩ := orbit_some_of_le hb (Nat.succ_le_succ (Nat.div_le_self k 2))
    refine ⟨⟨b, if (k + 1) % 2 = 0 then s else w.slow, k + 1, fatDirMaxBlocks v dir⟩, (orbit_succ hw).trans ?_, rfl⟩
    refine fatDirWalkNext_eq_some.mpr ⟨hstep, by rw [hp.steps], hp.max.symm, by rw [hp.steps, hp.max]; exact hlt, ?_⟩
    rw [hp.steps]
    by_cases heven : (k + 1) % 2 = 0
    · simp only [if_pos heven]
      refine ⟨(orbit_succ hp.slow).symm.trans hs, Bool.eq_false_iff.mpr fun hsame => ?_⟩
      cases b with
      | root i => contradiction
      | cluster x =>
        cases s with
        | root i => contradiction
        | cluster y =>
          obtain rfl : x = y := beq_iff_eq.mp hsame
          have hij := ha _ _ _ hb hs
          omega
    · simp only [if_neg heven]

theorem walkAt_of_cycle (hc : 0 < c) (h : chainAt v dir (t + c) = chainAt v dir t) :
    walkAt v dir (2 * (t + c)) = none := by
  obtain ⟨m, hm, hle, hmeet⟩ := orbit_meets hc h
  refine Option.eq_none_iff_forall_not_mem.mpr fun w hw => ?_
  obtain ⟨w', hw'⟩ := orbit_some_of_le hw (Nat.mul_le_mul_left 2 hle)
  have hp := walkAt_paced hw'
  have hhalf : 2 * m / 2 = m := Nat.mul_div_cancel_left m Nat.two_pos
  have hslow := hp.slow
  rw [hhalf] at hslow
  have hsame : w'.fast = w'.slow := Option.some.inj (hp.fast.symm.trans (hmeet.trans hslow))
  have hapart := hp.apart (by omega) (Nat.mul_mod_right 2 m)
  obtain ⟨b₀, h₀⟩ := orbit_some_of_le hslow (Nat.zero_le m)
  rcases fatDirBlock_cases h₀ with ⟨-, hpos, rfl⟩ | ⟨-, hwithin, rfl⟩
  · have hfast := (chainAt_root h₀ hpos hp.fast).2
    rw [hsame, (chainAt_root h₀ hpos hslow).2] at hfast
    have hij := Block.root.inj hfast
    omega
  · obtain ⟨d, -, hd⟩ := chainAt_cluster h₀ hwithin hslow
    rw [hsame, hd] at hapart
    exact absurd (beq_self_eq_true d) (Bool.eq_false_iff.mp hapart)

theorem walkAt_max (v : Vol) (dir : Nat) : walkAt v dir (fatDirMaxBlocks v dir + 1) = none := by
  refine Option.eq_none_iff_forall_not_mem.mpr fun w hw => ?_
  have hb := (walkAt_paced hw).bounded
  omega

/-- The walk ends. It passes a chain that does not come back to itself from end to end, and of a chain with a cycle at most twice
the blocks before the end of its first round. -/
theorem dirWalk_passes (v : Vol) (dir : Nat) :
    (∃ n, walkAt v dir n = none) ∧
      (Acyclic (fatDirStep v) (fatDirBlock v dir) → ∀ k, (walkAt v dir k).map DirWalk.fast = chainAt v dir k) ∧
      ∀ t c, 0 < c → chainAt v dir (t + c) = chainAt v dir t →
        walkAt v dir (2 * (t + c)) = none ∧ ∀ k w, walkAt v dir k = some w → chainAt v dir k = some w.fast := by
  refine ⟨⟨_, walkAt_max v dir⟩, fun ha k => ?_, fun t c hc h => ⟨walkAt_of_cycle hc h, fun k w hw => ?_⟩⟩
  · cases hb : chainAt v dir k with
    | some b =>
      obtain ⟨w, hw, rfl⟩ := walkAt_of_acyclic ha hb
      rw [hw]
      rfl
    | none =>
      cases hw : walkAt v dir k with
      | none => rfl
      | some w => exact absurd ((walkAt_paced hw).fast.symm.trans hb) (Option.some_ne_none _)
  · exact (walkAt_paced hw).fast

end Ezos.Fat
