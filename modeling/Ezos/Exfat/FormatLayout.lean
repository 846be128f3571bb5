import Ezos.Exfat.Format
import Ezos.Exfat.Volume
import Mathlib.Logic.Function.Iterate

/-!
# The geometry loop

One round sends a FAT length `f` to `(V + 104 - f) / 128` for a volume of `V` sectors. Its
distance from `(V + 104) / 129` shrinks by a factor of 128 a round, so the loop is at its
fixed point after a few of the 12 rounds, unless `(V + 104) % 129 = 128`: then there is no
fixed point, two lengths alternate, and the loop ends on the shorter one.
-/

namespace Ezos.Exfat

set_option autoImplicit false

def nextLength (w f : Nat) : Nat := (w - f) / 128

section Rounds
variable {w f : Nat}

theorem nextLength_of_eq (h : w % 129 ≠ 128) (hf : f = w / 129) : nextLength w f = w / 129 := by
  unfold nextLength
  omega

theorem nextLength_near (hw : w ≤ 25157761) (hpos : 129 ≤ w) :
    w / 129 ≤ nextLength w (nextLength w (nextLength w 1)) + 1 ∧
      nextLength w (nextLength w (nextLength w 1)) ≤ w / 129 + 1 := by
  have h1 : w / 129 ≤ nextLength w 1 + 1 ∧ nextLength w 1 ≤ w / 129 + 1524 := by
    unfold nextLength
    omega
  have h2 : w / 129 ≤ nextLength w (nextLength w 1) + 12 ∧
      nextLength w (nextLength w 1) ≤ w / 129 + 1 := by
    generalize nextLength w 1 = f at h1
    unfold nextLength
    omega
  generalize nextLength w (nextLength w 1) = f at h2
  unfold nextLength
  omega

theorem nextLength_two (h : w % 129 ≠ 128) (hpos : 129 ≤ w) (hlo : w / 129 ≤ f + 1)
    (hhi : f ≤ w / 129 + 1) : nextLength w (nextLength w f) = w / 129 := by
  unfold nextLength
  omega

theorem iterate_nextLength_of_eq (h : w % 129 ≠ 128) (n : Nat) :
    (nextLength w)^[n] (w / 129) = w / 129 := by
  induction n with
  | zero => rfl
  | succ n ih => rw [Function.iterate_succ_apply, nextLength_of_eq h rfl, ih]

theorem nextLength_swap (h : w % 129 = 128) :
    nextLength w (w / 129) = w / 129 + 1 ∧ nextLength w (w / 129 + 1) = w / 129 := by
  unfold nextLength
  omega

theorem nextLength_odd (h : w % 129 = 128) (hpos : 129 ≤ w) :
    w / 129 + 1 ≤ nextLength w (nextLength w (nextLength w 1)) := by
  have h1 : w / 129 + 1 ≤ nextLength w 1 := by
    unfold nextLength
    omega
  have h2 : nextLength w (nextLength w 1) ≤ w / 129 := by
    generalize nextLength w 1 = f at h1
    unfold nextLength
    omega
  generalize nextLength w (nextLength w 1) = f at h2
  unfold nextLength
  omega

theorem twelve_rounds (hw : w ≤ 25157761) (hpos : 129 ≤ w) : (nextLength w)^[12] 1 = w / 129 := by
  obtain ⟨hlo, hhi⟩ := nextLength_near hw hpos
  have hsplit : (nextLength w)^[12] 1 =
      (nextLength w)^[9] (nextLength w (nextLength w (nextLength w 1))) := rfl
  rw [hsplit]
  by_cases h : w % 129 = 128
  · have hodd := nextLength_odd h hpos
    obtain ⟨hup, hdown⟩ := nextLength_swap h
    rw [show nextLength w (nextLength w (nextLength w 1)) = w / 129 + 1 by omega]
    simp only [Function.iterate_succ_apply, Function.iterate_zero_apply, hup, hdown]
  · have htwo := nextLength_two h hpos hlo hhi
    rw [show (nextLength w)^[9] (nextLength w (nextLength w (nextLength w 1))) = (nextLength w)^[7]
      (nextLength w (nextLength w (nextLength w (nextLength w (nextLength w 1))))) from rfl, htwo]
    exact iterate_nextLength_of_eq h 7

end Rounds

section Geometry
variable {V f : U32}

theorem fatNeed_lt (V f : U32) : (fatNeed V f).toNat < 2 ^ 23 := by
  have h : (((if V > fatOffset + f then V - (fatOffset + f) else 0) + 2) * 4 + 511 : U32).toNat
      < 2 ^ 32 := BitVec.isLt _
  have hdiv : (512 : U32).toNat = 512 := rfl
  simp only [fatNeed, BitVec.toNat_udiv, hdiv]
  omega

theorem toNat_fatNeed (hV : V.toNat ≤ 25157657) (hf : f.toNat + 25 < V.toNat) :
    (fatNeed V f).toNat = nextLength (V.toNat + 104) f.toNat := by
  have hh : (fatOffset + f).toNat = 25 + f.toNat := by
    rw [BitVec.toNat_add, show fatOffset.toNat = 25 from rfl, Nat.mod_eq_of_lt (by omega)]
  have hgt : V > fatOffset + f := by
    rw [gt_iff_lt, BitVec.lt_def, hh]
    omega
  have hcc : (V - (fatOffset + f)).toNat = V.toNat - 25 - f.toNat := by
    rw [BitVec.toNat_sub_of_le (BitVec.le_of_lt hgt), hh]
    omega
  have hsum : ((V - (fatOffset + f) + 2) * 4 + 511 : U32).toNat
      = (V.toNat - 25 - f.toNat + 2) * 4 + 511 := by
    simp only [BitVec.toNat_add, BitVec.toNat_mul, hcc, BitVec.ofNat_eq_ofNat,
      BitVec.toNat_ofNat]
    omega
  simp only [fatNeed, if_pos hgt, BitVec.toNat_udiv, hsum, show (512 : U32).toNat = 512 from rfl]
  unfold nextLength
  omega

theorem fatRounds_of_fixed (h : fatNeed V f = f) (n : Nat) : fatRounds V f n = f := by
  cases n with
  | zero => rfl
  | succ n => simp only [fatRounds, if_pos h]

theorem fatRounds_succ (V f : U32) (n : Nat) :
    fatRounds V f (n + 1) = fatRounds V (fatNeed V f) n := by
  by_cases h : fatNeed V f = f
  · rw [fatRounds_of_fixed h, h, fatRounds_of_fixed h]
  · simp only [fatRounds, if_neg h]

theorem fatRounds_lt (n : Nat) (hf : f.toNat < 2 ^ 23) : (fatRounds V f n).toNat < 2 ^ 23 := by
  induction n generalizing f with
  | zero => exact hf
  | succ n ih =>
    rw [fatRounds_succ]
    exact ih (fatNeed_lt V f)

theorem toNat_fatRounds (hV : V.toNat ≤ 25157657) (hV' : 27 ≤ V.toNat) (n : Nat)
    (hf : f.toNat + 25 < V.toNat) :
    (fatRounds V f n).toNat = (nextLength (V.toNat + 104))^[n] f.toNat := by
  induction n generalizing f with
  | zero => rfl
  | succ n ih =>
    have hneed := toNat_fatNeed hV hf
    have hsmall : (fatNeed V f).toNat + 25 < V.toNat := by
      rw [hneed, nextLength]
      omega
    rw [fatRounds_succ, ih hsmall, hneed, Function.iterate_succ_apply]

theorem formatFatLength_lt (V : U32) : (formatFatLength V).toNat < 2 ^ 23 :=
  fatRounds_lt 12 (by decide)

theorem toNat_formatFatLength (hV : V.toNat ≤ 25157657) (hV' : 27 ≤ V.toNat) :
    (formatFatLength V).toNat = (V.toNat + 104) / 129 := by
  rw [formatFatLength, toNat_fatRounds hV hV' 12 (show (1 : U32).toNat + 25 < V.toNat by
    have h1 : (1 : U32).toNat = 1 := rfl
    omega)]
  exact twelve_rounds (by omega) (by omega)

theorem toNat_formatHeap (V : U32) : (formatHeap V).toNat = 25 + (formatFatLength V).toNat := by
  have := formatFatLength_lt V
  rw [formatHeap, BitVec.toNat_add, show fatOffset.toNat = 25 from rfl,
    Nat.mod_eq_of_lt (by omega)]

theorem toNat_formatClusterCount (h : ¬ formatClusterCount V < 16) :
    16 ≤ (formatClusterCount V).toNat ∧
      (formatHeap V).toNat + (formatClusterCount V).toNat = V.toNat := by
  rw [BitVec.lt_def, show (16 : U32).toNat = 16 from rfl] at h
  refine ⟨by omega, ?_⟩
  simp only [formatClusterCount] at h ⊢
  split
  · rename_i hgt
    rw [BitVec.toNat_sub_of_le (BitVec.le_of_lt hgt)]
    have := BitVec.lt_def.mp hgt
    omega
  · rename_i hle
    simp only [if_neg hle] at h
    exact absurd (by decide) h

theorem toNat_upcaseFirst {cc : U32} (h : cc.toNat ≤ 2 ^ 32 - 26) :
    (upcaseFirst cc).toNat = 3 + (cc.toNat + 4095) / 4096 := by
  have hb : (bmpBytes cc).toNat = (cc.toNat + 7) / 8 := by
    simp only [bmpBytes, BitVec.toNat_udiv, BitVec.toNat_add, BitVec.ofNat_eq_ofNat,
      BitVec.toNat_ofNat, Nat.reducePow, Nat.reduceMod]
    omega
  have hc : (bmpClusters cc).toNat = (cc.toNat + 4095) / 4096 := by
    simp only [bmpClusters, BitVec.toNat_udiv, BitVec.toNat_add, BitVec.ofNat_eq_ofNat,
      BitVec.toNat_ofNat, Nat.reducePow, Nat.reduceMod, hb]
    omega
  simp only [upcaseFirst, BitVec.toNat_add, hc, show bmpFirst.toNat = 3 from rfl]
  omega

theorem fat_covers_iff (h : ¬ formatClusterCount V < 16) (hV : V.toNat ≤ 16900058) :
    ((formatClusterCount V).toNat + 2) * 4 ≤ (formatFatLength V).toNat * 512 ↔
      V.toNat % 129 ≠ 24 := by
  obtain ⟨hcc, hsum⟩ := toNat_formatClusterCount h
  have hheap := toNat_formatHeap V
  have hf := @toNat_formatFatLength V (by omega) (by omega)
  rw [hheap] at hsum
  omega

theorem upcaseFirst_le_iff (h : ¬ formatClusterCount V < 16) :
    (upcaseFirst (formatClusterCount V)).toNat ≤ 4097 ↔ V.toNat ≤ 16900058 := by
  obtain ⟨hcc, hsum⟩ := toNat_formatClusterCount h
  have hheap := toNat_formatHeap V
  have hlt := formatFatLength_lt V
  have hV := V.isLt
  rw [toNat_upcaseFirst (by omega)]
  by_cases hB : V.toNat ≤ 25157657
  · have hf := toNat_formatFatLength hB (by omega)
    omega
  · omega

end Geometry

end Ezos.Exfat

/-!
## Where formatting writes

All addresses are taken relative to the partition. The FAT lies in front of the cluster
heap and the heap ends inside 2^32 sectors, so a later write never lands on an earlier one.
-/

namespace Ezos.Exfat

open Lib.Memory Lib.ByteBitmap

variable {v v' : Vol}

theorem andThen_eq_true {r : Bool × Vol} {k : Vol → Bool × Vol} :
    andThen r k = (true, v') ↔ ∃ u, r = (true, u) ∧ k u = (true, v') := by
  obtain ⟨ok, u⟩ := r
  cases ok with
  | true =>
    constructor
    · intro h
      exact ⟨u, rfl, h⟩
    · rintro ⟨w, hw, h⟩
      obtain rfl := (Prod.mk.inj hw).2
      exact h
  | false =>
    constructor
    · intro h
      exact nomatch (Prod.mk.inj h).1
    · rintro ⟨w, hw, _⟩
      exact nomatch (Prod.mk.inj hw).1

theorem fillFatSector_entry (cc : U32) {s c : Nat} (hs : c / 128 = s) (m : Mem) (c₀ n : Nat) :
    read32 (fillFatSector cc s m c₀ n) (c % 128 * 4) =
      if c₀ ≤ c ∧ c < c₀ + n then metadataEntry cc (BitVec.ofNat 32 c)
      else read32 m (c % 128 * 4) := by
  induction n generalizing m c₀ with
  | zero => rw [fillFatSector, if_neg (by omega)]
  | succ n ih =>
    have hone : read32 (if c₀ / 128 ≠ s then m
        else write32 m (c₀ % 128 * 4) (metadataEntry cc (BitVec.ofNat 32 c₀))) (c % 128 * 4) =
        if c₀ = c then metadataEntry cc (BitVec.ofNat 32 c) else read32 m (c % 128 * 4) := by
      by_cases hc : c₀ = c
      · rw [if_neg (by omega), if_pos hc, hc, read32_write32_self]
      · rw [if_neg hc]
        split
        · rfl
        · exact read32_write32_of_disjoint _ _ (by omega)
    rw [fillFatSector, ih, hone]
    by_cases hc : c₀ = c
    · rw [if_neg (by omega), if_pos hc, if_pos (by omega)]
    · rw [if_neg hc]
      by_cases hin : c₀ + 1 ≤ c ∧ c < c₀ + 1 + n
      · rw [if_pos hin, if_pos (by omega)]
      · rw [if_neg hin, if_neg (by omega)]

theorem formatFatSector_entry (cc : U32) {c : Nat} (hc : 2 ≤ c) :
    read32 (formatFatSector cc (c / 128)) (c % 128 * 4) =
      if c ≤ (upcaseFirst cc).toNat then metadataEntry cc (BitVec.ofNat 32 c) else 0 := by
  rw [formatFatSector, fillFatSector_entry cc rfl]
  by_cases hup : c ≤ (upcaseFirst cc).toNat
  · rw [if_pos (by omega), if_pos hup]
  · rw [if_neg (by omega), if_neg hup]
    have hz : ∀ a, read32 zeros a = 0 := by
      intro a
      unfold read32 zeros
      rfl
    split
    · rw [read32_write32_of_disjoint _ _ (by omega), read32_write32_of_disjoint _ _ (by omega), hz]
    · exact hz _

theorem metadataEntry_ne_zero {cc c : U32} : metadataEntry cc c ≠ 0 := by
  simp only [metadataEntry]
  split
  · rename_i h
    intro h0
    have hlt := BitVec.lt_def.mp h.2
    have hle := BitVec.le_def.mp h.1
    have hsum := congrArg BitVec.toNat h0
    rw [BitVec.toNat_add, show (1 : U32).toNat = 1 from rfl, show (0 : U32).toNat = 0 from rfl] at hsum
    have := (bmpFirst + bmpClusters cc - 1).isLt
    omega
  · decide

theorem fillBitmap_bit (i : Nat) (m : Mem) {c : Nat} (hc : 2 ≤ c) (n : Nat) {b : Nat}
    (hb : b < 4096) :
    getBit (fillBitmap i m c n) b =
      (getBit m b || decide (i = 0 ∧ c ≤ b + 2 ∧ b + 2 < c + n)) := by
  induction n generalizing m c with
  | zero =>
    rw [fillBitmap, decide_eq_false (by omega), Bool.or_false]
  | succ n ih =>
    rw [fillBitmap]
    split
    · rw [decide_eq_false (by omega), Bool.or_false]
    · rw [ih _ (by omega)]
      split
      · have hi : i = 0 := by omega
        subst hi
        rw [getBit_setBit, Bool.or_comm (decide _) (getBit m b), Bool.or_assoc]
        congr 1
        rw [Nat.zero_mul, Nat.sub_zero, ← Bool.decide_or]
        exact decide_eq_decide.mpr (by omega)
      · congr 1
        exact decide_eq_decide.mpr (by omega)

theorem formatBitmap_bit (cc : U32) (i : Nat) {b : Nat} (hb : b < 4096) :
    getBit (formatBitmap cc i) b = decide (i = 0 ∧ b + 2 ≤ (upcaseFirst cc).toNat) := by
  have hz : getBit zeros b = false := by
    unfold getBit
    exact BitVec.getLsbD_zero
  rw [formatBitmap, fillBitmap_bit i zeros (by omega) _ hb, hz, Bool.false_or]
  exact decide_eq_decide.mpr (by omega)

def place (base x : U32) : Nat := (x - base).toNat

theorem place_add (base : U32) {k : Nat} (hk : k < 2 ^ 32) :
    place base (base + BitVec.ofNat 32 k) = k := by
  have h : base + BitVec.ofNat 32 k - base = BitVec.ofNat 32 k := by
    rw [BitVec.add_comm, BitVec.add_sub_cancel]
  rw [place, h, BitVec.toNat_ofNat, Nat.mod_eq_of_lt hk]

theorem eq_add_place (base x : U32) : x = base + BitVec.ofNat 32 (place base x) := by
  rw [place, BitVec.ofNat_toNat, BitVec.setWidth_eq, BitVec.add_comm, BitVec.sub_add_cancel]

theorem place_eq_iff {base x : U32} {k : Nat} (hk : k < 2 ^ 32) :
    x = base + BitVec.ofNat 32 k ↔ place base x = k := by
  constructor
  · rintro rfl
    exact place_add base hk
  · rintro rfl
    exact eq_add_place base x

structure Fills (v v' : Vol) (base : U32) (i n : Nat) (content : Nat → Mem) : Prop where
  mount : v'.mount = v.mount
  cwd : v'.cwd = v.cwd
  written : ∀ k, i ≤ k → k < i + n → v'.disk (base + BitVec.ofNat 32 k) = content k
  kept : ∀ x, ¬ (i ≤ place base x ∧ place base x < i + n) → v'.disk x = v.disk x

theorem Fills.nil (hm : v'.mount = v.mount) (hc : v'.cwd = v.cwd) (hd : v'.disk = v.disk)
    (base : U32) (i : Nat) (content : Nat → Mem) : Fills v v' base i 0 content :=
  ⟨hm, hc, fun _ _ _ => by omega, fun x _ => by rw [hd]⟩

theorem Fills.cons {u : Vol} {base : U32} {i n : Nat} {content : Nat → Mem}
    (hn : i + (n + 1) ≤ 2 ^ 32)
    (h : Stands v u (putSector v.disk (base + BitVec.ofNat 32 i) (content i)))
    (h' : Fills u v' base (i + 1) n content) : Fills v v' base i (n + 1) content := by
  refine ⟨h'.mount.trans h.mount, h'.cwd.trans h.cwd, ?_, ?_⟩
  · intro k hlo hhi
    rcases Nat.eq_or_lt_of_le hlo with rfl | hlt
    · have hout : ¬ (i + 1 ≤ place base (base + BitVec.ofNat 32 i) ∧
          place base (base + BitVec.ofNat 32 i) < i + 1 + n) := by
        rw [place_add base (by omega)]
        omega
      rw [h'.kept _ hout, h.disk]
      exact if_pos rfl
    · exact h'.written k hlt (by omega)
  · intro x hx
    have hne : x ≠ base + BitVec.ofNat 32 i := by
      rw [Ne, place_eq_iff (by omega)]
      omega
    rw [h'.kept x (by omega), h.disk]
    exact if_neg hne

theorem Fills.kept_of_ne {base x : U32} {i n : Nat} {content : Nat → Mem}
    (h : Fills v v' base i n content) (hx : ∀ k, i ≤ k → k < i + n → x ≠ base + BitVec.ofNat 32 k) :
    v'.disk x = v.disk x :=
  h.kept x fun ⟨hlo, hhi⟩ => hx _ hlo hhi (eq_add_place base x)

theorem writeFatSectors_fills {s : Nat} (n : Nat) (hn : s + n ≤ 2 ^ 32)
    (h : writeFatSectors v s n = (true, v')) :
    Fills v v' (v.mount.partitionStart + v.info.fatOffset) s n
      fun k => sectorOf (formatFatSector v.info.clusterCount k) 0 := by
  induction n generalizing v s with
  | zero =>
    obtain rfl := (Prod.mk.inj h).2
    exact Fills.nil (show (exfatFatCacheDrop v).mount = v.mount from rfl) rfl rfl _ _ _
  | succ n ih =>
    obtain ⟨u, hu, hrest⟩ := andThen_eq_true.mp h
    have hw := exfatWriteSector_stands hu
    have hr := ih (by omega) hrest
    simp only [Vol.info, hw.mount] at hr
    exact Fills.cons hn hw hr

theorem exfatWriteCluster_one {c : U32} {m : Mem} (hspc : v.info.sectorsPerCluster = 1)
    (h : exfatWriteCluster v c m 0 = (true, v')) :
    exfatClusterValid v c = true ∧
      Stands v v' (putSector v.disk (firstSector v c) (sectorOf m 0)) := by
  unfold exfatWriteCluster at h
  split at h
  · exact nomatch (Prod.mk.inj h).1
  rename_i hvalid
  refine ⟨Bool.not_eq_false _ ▸ hvalid, ?_⟩
  rw [hspc, writeSectors] at h
  split at h
  · exact nomatch (Prod.mk.inj h).1
  rename_i u hu
  obtain rfl := (Prod.mk.inj h).2
  have hw := exfatWriteSector_stands hu
  rw [sectorOf_sectorOf, Nat.zero_mul, Nat.add_zero, BitVec.add_zero] at hw
  exact hw

theorem firstSector_one (hspc : v.info.sectorsPerCluster = 1) (c : U32) :
    firstSector v c = v.mount.partitionStart + v.info.clusterHeapOffset + (c - 2) := by
  rw [firstSector, hspc]
  exact congrArg _ (BitVec.mul_one _)

theorem firstSector_add (hspc : v.info.sectorsPerCluster = 1) (c : U32) (k : Nat) :
    firstSector v (c + BitVec.ofNat 32 k) = firstSector v c + BitVec.ofNat 32 k := by
  rw [firstSector_one hspc, firstSector_one hspc]
  generalize v.mount.partitionStart + v.info.clusterHeapOffset = a
  generalize BitVec.ofNat 32 k = b
  grind

theorem writeBitmapClusters_fills {i : Nat} (n : Nat) (hn : i + n ≤ 2 ^ 32)
    (hspc : v.info.sectorsPerCluster = 1) (h : writeBitmapClusters v i n = (true, v')) :
    Fills v v' (firstSector v bmpFirst) i n
      fun k => sectorOf (formatBitmap v.info.clusterCount k) 0 := by
  induction n generalizing v i with
  | zero =>
    obtain rfl := (Prod.mk.inj h).2
    exact Fills.nil rfl rfl rfl _ _ _
  | succ n ih =>
    obtain ⟨u, hu, hrest⟩ := andThen_eq_true.mp h
    obtain ⟨_, hw⟩ := exfatWriteCluster_one hspc hu
    rw [firstSector_add hspc] at hw
    have hinfo : u.info = v.info := congrArg Mount.info hw.mount
    have hr := ih (by omega) (by rw [hinfo, hspc]) hrest
    rw [hinfo, show firstSector u bmpFirst = firstSector v bmpFirst by
      rw [firstSector, firstSector, hinfo, hw.mount]] at hr
    exact Fills.cons hn hw hr

end Ezos.Exfat
