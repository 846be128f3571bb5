import Ezos.Exfat.Volume
import Ezos.Exfat.Dir

/-!
# Volume access while no fault strikes

In a calm state the pending fault belongs to another phase, so an access goes through
exactly when its sector is on the disk. Reading then depends on the disk alone: the FAT cache
is invisible.
-/

namespace Ezos.Exfat

open Lib.Memory Lib.ByteBitmap

set_option autoImplicit false

def CacheOk (v : Vol) : Prop :=
  ∀ s, v.fatSectorNo = some s → s < v.mount.capacity ∧ v.fatSector = v.disk s

structure Calm (v : Vol) : Prop where
  fault : ∀ f, v.fault = some f → f.site ≠ v.site
  cache : CacheOk v

structure Settles (v v' : Vol) (d : U32 → Mem) : Prop extends Stands v v' d where
  site : v'.site = v.site
  fault : v'.fault = v.fault
  cache : CacheOk v'

variable {v v' v'' : Vol} {d d' : U32 → Mem}

theorem Settles.refl (h : Calm v) : Settles v v v.disk := ⟨⟨rfl, rfl, rfl⟩, rfl, rfl, h.cache⟩

theorem Settles.trans (h : Settles v v' d) (h' : Settles v' v'' d') : Settles v v'' d' :=
  ⟨h.toStands.trans h'.toStands, h'.site.trans h.site, h'.fault.trans h.fault, h'.cache⟩

theorem Settles.calm (h : Settles v v' d) (hv : Calm v) : Calm v' := by
  refine ⟨?_, h.cache⟩
  intro f hf
  rw [h.site]
  exact hv.fault f (h.fault ▸ hf)

theorem Settles.info (h : Settles v v' d) : v'.info = v.info := congrArg Mount.info h.mount

theorem access_calm (h : Calm v) (write : Bool) (lba : U32) :
    v.access write lba = (decide (lba < v.mount.capacity), v) := by
  unfold Vol.access
  cases hf : v.fault with
  | none => rfl
  | some f =>
    have hmiss : f.hits v.site write lba = false := by
      rw [Fault.hits, decide_eq_false (h.fault f hf), Bool.false_and, Bool.false_and]
    simp only [hmiss, Bool.false_eq_true, if_false]

theorem exfatReadSector_calm (h : Calm v) {lba : U32} (hl : lba < v.mount.capacity) :
    exfatReadSector v lba = (some (v.disk lba), v) := by
  rw [exfatReadSector, access_calm h, decide_eq_true hl]

theorem exfatReadSector_outside (h : Calm v) {lba : U32} (hl : ¬ lba < v.mount.capacity) :
    exfatReadSector v lba = (none, v) := by
  rw [exfatReadSector, access_calm h, decide_eq_false hl]

def fatReadable (v : Vol) (c : U32) : Prop := fatSectorOf v c < v.mount.capacity

instance (c : U32) : Decidable (fatReadable v c) := inferInstanceAs (Decidable (_ < _))

def fatView (v : Vol) (c : U32) : U32 := if fatReadable v c then fatAt v c else 0xFFFFFFFF

theorem fatView_of_readable {c : U32} (h : fatReadable v c) : fatView v c = fatAt v c := if_pos h

theorem fatView_of_unreadable {c : U32} (h : ¬ fatReadable v c) : fatView v c = 0xFFFFFFFF :=
  if_neg h

theorem exfatReadFatEntry_calm (h : Calm v) (c : U32) :
    ∃ v', exfatReadFatEntry v c = (fatView v c, v') ∧ Settles v v' v.disk := by
  unfold exfatReadFatEntry
  split
  · rename_i hno
    obtain ⟨hlt, hbuf⟩ := h.cache _ hno
    rw [fatView_of_readable hlt, hbuf]
    exact ⟨v, rfl, .refl h⟩
  · by_cases hl : fatSectorOf v c < v.mount.capacity
    · rw [exfatReadSector_calm h hl, fatView_of_readable hl]
      refine ⟨_, rfl, ⟨rfl, rfl, rfl⟩, rfl, rfl, ?_⟩
      intro s hs
      obtain rfl := Option.some.inj hs
      exact ⟨hl, rfl⟩
    · rw [exfatReadSector_outside h hl, fatView_of_unreadable hl]
      exact ⟨_, rfl, ⟨rfl, rfl, rfl⟩, rfl, rfl, nofun⟩

theorem fatAt_congr (h : Settles v v' v.disk) (c : U32) : fatAt v' c = fatAt v c := by
  unfold fatAt fatSectorOf Vol.info
  rw [h.mount, h.disk]

theorem fatView_congr (h : Settles v v' v.disk) (c : U32) : fatView v' c = fatView v c := by
  have hread : fatReadable v' c ↔ fatReadable v c := by
    unfold fatReadable fatSectorOf Vol.info
    rw [h.mount]
  by_cases hc : fatReadable v c
  · rw [fatView_of_readable hc, fatView_of_readable (hread.mpr hc), fatAt_congr h]
  · rw [fatView_of_unreadable hc, fatView_of_unreadable fun h' => hc (hread.mp h')]

/-! ### Clusters -/

def clusterReadable (v : Vol) (c : U32) : Prop :=
  ∀ i, i < v.info.sectorsPerCluster → firstSector v c + BitVec.ofNat 32 i < v.mount.capacity

instance (c : U32) : Decidable (clusterReadable v c) :=
  inferInstanceAs (Decidable (∀ i, i < _ → _))

set_option maxRecDepth 2000 in
theorem readSectors_calm (h : Calm v) {first : U32} {buf : Mem} {off i : Nat} (n : Nat)
    (hr : ∀ j, i ≤ j → j < i + n → first + BitVec.ofNat 32 j < v.mount.capacity) :
    ∃ buf', readSectors v first buf off i n = (true, buf', v) ∧
      (∀ j x, i ≤ j → j < i + n → x < 512 →
        buf' (off + 512 * j + x) = v.disk (first + BitVec.ofNat 32 j) x) ∧
      ∀ x, ¬ (off + 512 * i ≤ x ∧ x < off + 512 * (i + n)) → buf' x = buf x := by
  induction n generalizing buf i with
  | zero => exact ⟨buf, rfl, fun _ _ _ _ _ => by omega, fun _ _ => rfl⟩
  | succ n ih =>
    obtain ⟨buf', hrun, hin, hout⟩ := @ih (copyIn buf (off + 512 * i) 512
      (v.disk (first + BitVec.ofNat 32 i))) (i + 1) fun j hlo hhi => hr j (by omega) (by omega)
    refine ⟨buf', ?_, ?_, ?_⟩
    · rw [readSectors, exfatReadSector_calm h (hr i (Nat.le_refl i) (by omega)), Nat.mul_comm i bytesPerSector]
      exact hrun
    · intro j x hlo hhi hx
      rcases Nat.eq_or_lt_of_le hlo with rfl | hlt
      · rw [hout _ (by omega), copyIn, if_pos (by omega), Nat.add_sub_cancel_left]
      · exact hin j x hlt (by omega) hx
    · intro x hx
      rw [hout x (by omega), copyIn, if_neg (by omega)]

set_option maxRecDepth 2000 in
theorem readSectors_fails (h : Calm v) {first : U32} {buf : Mem} {off i : Nat} (n : Nat)
    (hr : ∃ j, i ≤ j ∧ j < i + n ∧ ¬ first + BitVec.ofNat 32 j < v.mount.capacity) :
    ∃ buf', readSectors v first buf off i n = (false, buf', v) ∧
      ∀ x, ¬ (off + 512 * i ≤ x ∧ x < off + 512 * (i + n)) → buf' x = buf x := by
  induction n generalizing buf i with
  | zero =>
    obtain ⟨j, hlo, hhi, _⟩ := hr
    omega
  | succ n ih =>
    rw [readSectors, Nat.mul_comm i bytesPerSector]
    by_cases hi : first + BitVec.ofNat 32 i < v.mount.capacity
    · obtain ⟨j, hlo, hhi, hj⟩ := hr
      have hne : j ≠ i := fun he => hj (he ▸ hi)
      obtain ⟨buf', hrun, hout⟩ := @ih (copyIn buf (off + 512 * i) 512
        (v.disk (first + BitVec.ofNat 32 i))) (i + 1) ⟨j, by omega, by omega, hj⟩
      refine ⟨buf', ?_, ?_⟩
      · rw [exfatReadSector_calm h hi]
        exact hrun
      · intro x hx
        rw [hout x (by omega), copyIn, if_neg (by omega)]
    · rw [exfatReadSector_outside h hi]
      exact ⟨buf, rfl, fun _ _ => rfl⟩

theorem clusterSize_eq (v : Vol) : v.clusterSize = 512 * v.info.sectorsPerCluster := rfl

theorem exfatReadCluster_calm (h : Calm v) {c : U32} (hc : exfatClusterValid v c = true)
    (hr : clusterReadable v c) (buf : Mem) (off : Nat) :
    ∃ buf', exfatReadCluster v c buf off = (true, buf', v) ∧
      (∀ x, x < v.clusterSize → buf' (off + x) = clusterAt v c x) ∧
      ∀ x, ¬ (off ≤ x ∧ x < off + v.clusterSize) → buf' x = buf x := by
  obtain ⟨buf', hrun, hin, hout⟩ := @readSectors_calm v h (firstSector v c) buf off 0
    v.info.sectorsPerCluster fun j _ hj => hr j (by omega)
  refine ⟨buf', ?_, ?_, ?_⟩
  · rw [exfatReadCluster, hc]
    exact hrun
  · intro x hx
    rw [clusterSize_eq] at hx
    have hsplit : off + x = off + 512 * (x / 512) + x % 512 := by omega
    rw [hsplit, hin (x / 512) (x % 512) (Nat.zero_le _) (by omega) (by omega)]
    rfl
  · intro x hx
    rw [clusterSize_eq] at hx
    exact hout x (by omega)

theorem exfatReadCluster_fails (h : Calm v) {c : U32}
    (hr : exfatClusterValid v c = false ∨ ¬ clusterReadable v c) (buf : Mem) (off : Nat) :
    ∃ buf', exfatReadCluster v c buf off = (false, buf', v) ∧
      ∀ x, ¬ (off ≤ x ∧ x < off + v.clusterSize) → buf' x = buf x := by
  unfold exfatReadCluster
  split
  · exact ⟨buf, rfl, fun _ _ => rfl⟩
  · rename_i hc
    have hbad := hr.resolve_left hc
    unfold clusterReadable at hbad
    obtain ⟨j, hj⟩ := Classical.not_forall.mp hbad
    obtain ⟨hj, hbad⟩ := Classical.not_imp.mp hj
    obtain ⟨buf', hrun, hout⟩ := @readSectors_fails v h (firstSector v c) buf off 0
      v.info.sectorsPerCluster ⟨j, Nat.zero_le j, by omega, hbad⟩
    refine ⟨buf', hrun, ?_⟩
    intro x hx
    rw [clusterSize_eq] at hx
    exact hout x (by omega)

end Ezos.Exfat

/-!
## What a directory holds

The clusters of a directory and their bytes, read off the disk. In a calm state reading a directory fills
the buffer with these bytes; what lies behind them is left over from before.
-/

namespace Ezos.Exfat

open Lib.Memory

variable {v v' : Vol} {d cur : U32}

def chainView (v : Vol) (cur : U32) (n : Nat) : Nat → List U32
  | 0 => []
  | k + 1 =>
    if cur ≥ 2 ∧ cur < v.clusterLimit ∧ n < v.clusterLimit.toNat ∧
        (n + 1) * v.clusterSize ≤ dirBufSize ∧ clusterReadable v cur then
      cur :: if fatView v cur ≥ 0xFFFFFFF8 then [] else chainView v (fatView v cur) (n + 1) k
    else []

def dirClusters (v : Vol) (d : U32) : List U32 := chainView v d 0 16

def bytesOf (v : Vol) (cs : List U32) : Mem := fun x =>
  clusterAt v (cs.getD (x / v.clusterSize) 0) (x % v.clusterSize)

def dirBytes (v : Vol) (d : U32) : Mem := bytesOf v (dirClusters v d)

def dirLength (v : Vol) (d : U32) : Nat := (dirClusters v d).length * v.clusterSize

theorem clusterSize_pos (v : Vol) : 0 < v.clusterSize := by
  rw [clusterSize_eq]
  have hpos := v.info.spc_pos
  omega

theorem Settles.clusterSize (h : Settles v v' v.disk) : v'.clusterSize = v.clusterSize := by
  unfold Vol.clusterSize
  rw [h.info]

theorem Settles.clusterLimit (h : Settles v v' v.disk) : v'.clusterLimit = v.clusterLimit := by
  unfold Vol.clusterLimit
  rw [h.info]

theorem clusterAt_congr (h : Settles v v' v.disk) (c : U32) : clusterAt v' c = clusterAt v c := by
  unfold clusterAt firstSector Vol.info
  rw [h.mount, h.disk]

theorem clusterReadable_congr (h : Settles v v' v.disk) (c : U32) :
    clusterReadable v' c ↔ clusterReadable v c := by
  unfold clusterReadable firstSector Vol.info
  rw [h.mount]

theorem chainView_congr (h : Settles v v' v.disk) (cur : U32) (n k : Nat) :
    chainView v' cur n k = chainView v cur n k := by
  induction k generalizing cur n with
  | zero => rfl
  | succ k ih =>
    simp only [chainView, h.clusterLimit, h.clusterSize, clusterReadable_congr h, fatView_congr h, ih]

theorem dirClusters_congr (h : Settles v v' v.disk) (d : U32) : dirClusters v' d = dirClusters v d :=
  chainView_congr h d 0 16

theorem dirBytes_congr (h : Settles v v' v.disk) (d : U32) : dirBytes v' d = dirBytes v d := by
  funext x
  unfold dirBytes bytesOf
  rw [dirClusters_congr h, h.clusterSize, clusterAt_congr h]

theorem dirLength_congr (h : Settles v v' v.disk) (d : U32) : dirLength v' d = dirLength v d := by
  unfold dirLength
  rw [dirClusters_congr h, h.clusterSize]

theorem dirChainLoop_calm (h : Calm v) {buffer : Mem} {n k : Nat} :
    ∃ buffer' v', dirChainLoop v cur buffer n k = (n + (chainView v cur n k).length, buffer', v') ∧
      Settles v v' v.disk ∧ (∀ x, x < n * v.clusterSize → buffer' x = buffer x) ∧
      ∀ x, x < (chainView v cur n k).length * v.clusterSize →
        buffer' (n * v.clusterSize + x) = bytesOf v (chainView v cur n k) x := by
  induction k generalizing v cur n buffer with
  | zero =>
    refine ⟨buffer, v, rfl, .refl h, fun _ _ => rfl, fun x hx => ?_⟩
    rw [chainView, List.length_nil, Nat.zero_mul] at hx
    omega
  | succ k ih =>
    have hcs := clusterSize_pos v
    unfold dirChainLoop chainView
    by_cases hgo : cur ≥ 2 ∧ cur < v.clusterLimit ∧ n < v.clusterLimit.toNat ∧
        (n + 1) * v.clusterSize ≤ dirBufSize
    · obtain ⟨h2, hlim, hn, hfit⟩ := hgo
      have hvalid : exfatClusterValid v cur = true := by
        rw [exfatClusterValid, decide_eq_true h2, decide_eq_true hlim, Bool.true_and]
      rw [if_pos ⟨h2, hlim, hn, hfit⟩]
      by_cases hread : clusterReadable v cur
      · rw [if_pos ⟨h2, hlim, hn, hfit, hread⟩]
        obtain ⟨b1, hb1, hin, hout⟩ := exfatReadCluster_calm h hvalid hread buffer (n * v.clusterSize)
        obtain ⟨v1, hv1, hs1⟩ := exfatReadFatEntry_calm h cur
        simp only [hb1, hv1]
        by_cases heoc : fatView v cur ≥ 0xFFFFFFF8
        · rw [if_pos heoc, if_pos heoc]
          refine ⟨b1, v1, rfl, hs1, fun x hx => hout x (by omega), fun x hx => ?_⟩
          rw [List.length_singleton, Nat.one_mul] at hx
          rw [hin x hx, bytesOf, Nat.div_eq_of_lt hx, Nat.mod_eq_of_lt hx]
          rfl
        · rw [if_neg heoc, if_neg heoc]
          obtain ⟨b2, v2, hrun, hs2, hkeep, hnew⟩ := @ih v1 (fatView v cur) (hs1.calm h) b1 (n + 1)
          rw [chainView_congr hs1] at hrun hnew
          rw [hs1.clusterSize] at hkeep hnew
          have hs : Settles v v2 v.disk := hs1.trans (hs1.disk ▸ hs2)
          refine ⟨b2, v2, ?_, hs, fun x hx => ?_, fun x hx => ?_⟩
          · rw [hrun, List.length_cons]
            congr 1
            omega
          · rw [hkeep x (by rw [Nat.succ_mul]; omega)]
            exact hout x (by omega)
          · rw [List.length_cons, Nat.succ_mul] at hx
            by_cases hfirst : x < v.clusterSize
            · rw [hkeep _ (by rw [Nat.succ_mul]; omega), hin x hfirst, bytesOf, Nat.div_eq_of_lt hfirst,
                Nat.mod_eq_of_lt hfirst]
              rfl
            · have hx' : x = v.clusterSize + (x - v.clusterSize) := by omega
              have hplace : n * v.clusterSize + x = (n + 1) * v.clusterSize + (x - v.clusterSize) := by
                rw [Nat.succ_mul]
                omega
              rw [hplace, hnew _ (by omega), bytesOf, bytesOf, clusterAt_congr hs1, hs1.clusterSize]
              conv => rhs; rw [hx', Nat.add_div_left _ hcs, Nat.add_mod_left]
              rfl
      · rw [if_neg fun hall => hread hall.2.2.2.2]
        obtain ⟨b1, hb1, hout⟩ := exfatReadCluster_fails h (Or.inr hread) buffer (n * v.clusterSize)
        simp only [hb1]
        refine ⟨b1, v, rfl, .refl h, fun x hx => hout x (by omega), fun x hx => ?_⟩
        rw [List.length_nil, Nat.zero_mul] at hx
        omega
    · rw [if_neg hgo, if_neg fun hall => hgo ⟨hall.1, hall.2.1, hall.2.2.1, hall.2.2.2.1⟩]
      refine ⟨buffer, v, rfl, .refl h, fun _ _ => rfl, fun x hx => ?_⟩
      rw [List.length_nil, Nat.zero_mul] at hx
      omega

theorem exfatReadDirChain_calm (h : Calm v) (d : U32) (buffer : Mem) :
    ∃ buffer' v', exfatReadDirChain v d buffer = ((dirClusters v d).length, buffer', v') ∧
      Settles v v' v.disk ∧ ∀ x, x < dirLength v d → buffer' x = dirBytes v d x := by
  obtain ⟨b, v1, hrun, hs, -, hnew⟩ := @dirChainLoop_calm v d h buffer 0 16
  refine ⟨b, v1, ?_, hs, fun x hx => ?_⟩
  · rw [exfatReadDirChain, hrun, Nat.zero_add]
    rfl
  · have hx' := hnew x hx
    rw [Nat.zero_mul, Nat.zero_add] at hx'
    exact hx'

end Ezos.Exfat
