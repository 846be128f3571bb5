import Ezos.F2fs.Volume

/-!
# The two checkpoint packs

A pack that no write goes to keeps its verdict, and the pack that is read is the one where its version belongs.
-/

namespace Ezos.F2fs

open Lib.Memory Lib.FaultyStore

set_option autoImplicit false

def OddVer (ver : U64) : Prop := ver &&& 1 ≠ 0

instance (ver : U64) : Decidable (OddVer ver) := inferInstanceAs (Decidable (_ ≠ _))

theorem oddVer_iff (ver : U64) : OddVer ver ↔ ver.toNat % 2 = 1 := by
  have hand : (ver &&& 1).toNat = ver.toNat % 2 := by
    rw [BitVec.toNat_and]
    exact Nat.and_one_is_mod _
  unfold OddVer
  rw [← BitVec.toNat_inj.ne, hand]
  change ver.toNat % 2 ≠ 0 ↔ _
  omega

theorem oddVer_succ (ver : U64) : OddVer (ver + 1) ↔ ¬ OddVer ver := by
  rw [oddVer_iff, oddVer_iff, BitVec.toNat_add]
  change (ver.toNat + 1) % 2 ^ 64 % 2 = 1 ↔ _
  omega

theorem ver_succ_nat {w : U64} (h : w ≠ BitVec.allOnes 64) : (w + 1).toNat = w.toNat + 1 := by
  have hlt := w.isLt
  have hne : w.toNat ≠ 2 ^ 64 - 1 := fun he => h (BitVec.eq_of_toNat_eq (by rw [he, BitVec.toNat_allOnes]))
  have hone : (1 : U64).toNat = 1 := rfl
  rw [BitVec.toNat_add, hone]
  omega

variable {g : Geometry} {ver : U64}

theorem packOf_odd (h : OddVer ver) : packOf g ver = g.cpBlkaddr := if_pos h

theorem packOf_even (h : ¬ OddVer ver) : packOf g ver = g.cpBlkaddr + g.bps := if_neg h

structure PacksFit (g : Geometry) : Prop where
  pos : 0 < g.cpBlkaddr.toNat
  fits : g.cpBlkaddr.toNat + 2 * g.bps.toNat ≤ 536870912

theorem PacksFit.pack_lt (h : PacksFit g) {j : U32} (hj : j.toNat < g.bps.toNat) :
    0 < (packOf g ver + j).toNat ∧ (packOf g ver + j).toNat < 536870912 := by
  have hpos := h.pos
  have hfits := h.fits
  by_cases hodd : OddVer ver
  · rw [packOf_odd hodd, BitVec.toNat_add]
    omega
  · rw [packOf_even hodd, BitVec.toNat_add, BitVec.toNat_add]
    omega

theorem toNat_block {part blk : U32} {i : Nat} (hblk : blk.toNat < 536870912) (hi : i < 8) :
    (sectorOf part blk i - part).toNat = blk.toNat * 8 + i := by
  have hsub : sectorOf part blk i - part = blk * 8 + BitVec.ofNat 32 i := by
    unfold sectorOf
    rw [BitVec.add_assoc, BitVec.add_comm, BitVec.add_sub_cancel]
  have h8 : (8 : U32).toNat = 8 := rfl
  rw [hsub, BitVec.toNat_add, BitVec.toNat_mul, h8, BitVec.toNat_ofNat]
  omega

theorem sectorOf_inj {part blk blk' : U32} {i i' : Nat} (hblk : blk.toNat < 536870912) (hblk' : blk'.toNat < 536870912)
    (hi : i < 8) (hi' : i' < 8) (h : sectorOf part blk i = sectorOf part blk' i') : blk = blk' ∧ i = i' := by
  have hnat := @toNat_block part blk i hblk hi
  rw [h, toNat_block hblk' hi'] at hnat
  exact ⟨BitVec.eq_of_toNat_eq (by omega), by omega⟩

variable {part blk : U32} {buf : Mem} {d : Device} {ws : List (U32 × Mem)}

theorem mem_blockWrites {w : U32 × Mem} :
    w ∈ blockWrites part blk buf ↔ ∃ i < 8, w = (sectorOf part blk i, fun x => buf (i * 512 + x)) := by
  unfold blockWrites
  simp only [List.mem_map, List.mem_range, eq_comm]

def Targets (part : U32) (P : U32 → Prop) (ws : List (U32 × Mem)) : Prop :=
  ∀ w ∈ ws, ∃ b i, P b ∧ i < 8 ∧ w.1 = sectorOf part b i

theorem Targets.take {P : U32 → Prop} (h : Targets part P ws) (k : Nat) : Targets part P (ws.take k) :=
  fun w hw => h w (List.mem_of_mem_take hw)

theorem Targets.readBlock {P : U32 → Prop} (h : Targets part P ws) (hP : ∀ b, P b → b.toNat < 536870912)
    (hblk : blk.toNat < 536870912) (hmiss : ¬ P blk) :
    f2ReadBlock (put ws d) part blk = f2ReadBlock d part blk := by
  funext x
  unfold f2ReadBlock
  by_cases hx : x < 4096
  · rw [if_pos hx, if_pos hx, put_of_forall_ne]
    intro w hw he
    obtain ⟨b, i, hb, hi, haddr⟩ := h w hw
    have hsame := (sectorOf_inj (hP b hb) hblk hi (by omega) (haddr.symm.trans he)).1
    exact hmiss (hsame ▸ hb)
  · rw [if_neg hx, if_neg hx]

theorem Targets.geometry {P : U32 → Prop} (h : Targets part P ws) (hP : ∀ b, P b → 0 < b.toNat ∧ b.toNat < 536870912) :
    f2Geometry (put ws d) part = f2Geometry d part := by
  have hsector : ∀ e < 2, put ws d (part + 2 + BitVec.ofNat 32 e) = d (part + 2 + BitVec.ofNat 32 e) := by
    intro e he
    apply put_of_forall_ne
    intro w hw haddr
    obtain ⟨b, i, hb, hi, hw⟩ := h w hw
    have hnat := @toNat_block part b i (hP b hb).2 hi
    have hpos := (hP b hb).1
    have hsb : part + 2 + BitVec.ofNat 32 e - part = 2 + BitVec.ofNat 32 e := by
      rw [BitVec.add_assoc, BitVec.add_comm, BitVec.add_sub_cancel]
    have h2 : (2 : U32).toNat = 2 := rfl
    rw [← hw, haddr, hsb, BitVec.toNat_add, BitVec.toNat_ofNat, h2] at hnat
    omega
  have hsb : ∀ x < 1024, sbOf (put ws d) part x = sbOf d part x := by
    intro x hx
    unfold sbOf
    rw [hsector _ (by omega)]
  have hword : ∀ a, a + 4 ≤ 1024 → read32 (sbOf (put ws d) part) a = read32 (sbOf d part) a := fun a ha =>
    read32_congr fun x _ hx => hsb x (by omega)
  have hcount : read64 (sbOf (put ws d) part) sbOffBlockCount = read64 (sbOf d part) sbOffBlockCount :=
    read64_congr fun x _ hx => hsb x (Nat.lt_trans hx (by decide))
  unfold f2Geometry
  dsimp only
  rw [hcount]
  simp only [hword 0 (by decide), hword sbOffLogBlk (by decide), hword sbOffLogSec (by decide), hword sbOffLogSpb (by decide),
    hword sbOffLogBps (by decide), hword sbOffCpBlkaddr (by decide), hword sbOffSitBlkaddr (by decide),
    hword sbOffNatBlkaddr (by decide), hword sbOffSsaBlkaddr (by decide), hword sbOffMainBlkaddr (by decide),
    hword sbOffRootIno (by decide), hword sbOffSegMain (by decide)]

theorem last_block {bps total : U32} (hpos : total ≠ 0) (hfew : total.toNat ≤ bps.toNat) (a : U32) :
    a + total - 1 = a + (total - 1) ∧ (total - 1).toNat < bps.toNat := by
  have hone : (1 : U32).toNat = 1 := rfl
  have hnat := toNat_ne_zero hpos
  refine ⟨by rw [BitVec.sub_eq_add_neg, BitVec.sub_eq_add_neg, BitVec.add_assoc], ?_⟩
  rw [BitVec.toNat_sub_of_le (BitVec.le_def.mpr (by rw [hone]; omega)), hone]
  omega

theorem f2ValidateCp_congr {d' : Device} {bps a : U32}
    (h : ∀ j : U32, j.toNat < bps.toNat → f2ReadBlock d' part (a + j) = f2ReadBlock d part (a + j)) (hpos : 0 < bps.toNat) :
    f2ValidateCp d' part bps a = f2ValidateCp d part bps a := by
  have hhead : f2ReadBlock d' part a = f2ReadBlock d part a := by
    have hzero : a + 0 = a := BitVec.add_zero a
    have h0 := h 0 hpos
    rwa [hzero] at h0
  unfold f2ValidateCp
  dsimp only
  rw [hhead]
  by_cases htotal : read32 (f2ReadBlock d part a) cpOffPackTotal = 0 ∨
      bps < read32 (f2ReadBlock d part a) cpOffPackTotal
  · rw [if_pos htotal, if_pos htotal]
  · obtain ⟨hzero, hbig⟩ := not_or.mp htotal
    obtain ⟨heq, hlt⟩ := last_block hzero (BitVec.le_def.mp (BitVec.not_lt.mp hbig)) a
    rw [heq, h _ hlt]

theorem CpSound.congr {m m' : Mem} (h : ∀ x < 4096, m' x = m x) (hs : CpSound m) : CpSound m' := by
  have hplace : read32 m' cpOffCksumOff = read32 m cpOffCksumOff :=
    read32_congr fun x _ hx => h x (Nat.lt_trans hx (by decide))
  have hsum : read32 m' checksumOffset.toNat = read32 m checksumOffset.toNat :=
    read32_congr fun x _ hx => h x (Nat.lt_of_lt_of_le hx (by decide))
  have hcrc : f2Crc32 m' checksumOffset.toNat = f2Crc32 m checksumOffset.toNat :=
    f2Crc32_congr fun x hx => h x (Nat.lt_trans hx (by decide))
  unfold CpSound
  rw [hplace, hsum, hcrc]
  exact hs

theorem f2ValidateCp_eq_some {bps a : U32} (hhead : CpSound (f2ReadBlock d part a))
    (hzero : read32 (f2ReadBlock d part a) cpOffPackTotal ≠ 0)
    (hfew : (read32 (f2ReadBlock d part a) cpOffPackTotal).toNat ≤ bps.toNat)
    (htail : CpSound (f2ReadBlock d part (a + (read32 (f2ReadBlock d part a) cpOffPackTotal - 1))))
    (hver : read64 (f2ReadBlock d part (a + (read32 (f2ReadBlock d part a) cpOffPackTotal - 1))) cpOffVer =
      read64 (f2ReadBlock d part a) cpOffVer) :
    f2ValidateCp d part bps a = some (read64 (f2ReadBlock d part a) cpOffVer) := by
  have htotal : ¬ (read32 (f2ReadBlock d part a) cpOffPackTotal = 0 ∨
      bps < read32 (f2ReadBlock d part a) cpOffPackTotal) :=
    not_or.mpr ⟨hzero, BitVec.not_lt.mpr (BitVec.le_def.mpr hfew)⟩
  unfold f2ValidateCp
  dsimp only
  rw [if_neg (not_not.mpr hhead), if_neg htotal, (last_block hzero hfew a).1, if_neg (not_not.mpr htail),
    if_neg (not_not.mpr hver), hver]

theorem f2ValidateCp_head {bps a : U32} {w : U64} (h : f2ValidateCp d part bps a = some w) :
    read64 (f2ReadBlock d part a) cpOffVer = w := by
  unfold f2ValidateCp at h
  dsimp only at h
  by_cases hs : ¬ CpSound (f2ReadBlock d part a)
  · rw [if_pos hs] at h
    cases h
  rw [if_neg hs] at h
  split at h
  · cases h
  by_cases ht : ¬ CpSound (f2ReadBlock d part (a + read32 (f2ReadBlock d part a) cpOffPackTotal - 1))
  · rw [if_pos ht] at h
    cases h
  rw [if_neg ht] at h
  split at h
  · cases h
  · rename_i hver
    rw [← Decidable.not_not.mp hver]
    exact Option.some.inj h

variable {w : U64}

theorem f2PickCp_first (h1 : f2ValidateCp d part g.bps g.cpBlkaddr = some w)
    (h2 : ∀ w', f2ValidateCp d part g.bps (g.cpBlkaddr + g.bps) = some w' → w' ≤ w) :
    f2PickCp d part g = some g.cpBlkaddr := by
  unfold f2PickCp
  dsimp only
  rw [h1]
  cases hv : f2ValidateCp d part g.bps (g.cpBlkaddr + g.bps) with
  | none => rfl
  | some w' => rw [if_pos ⟨rfl, rfl⟩, Option.getD_some, Option.getD_some, if_neg (BitVec.not_lt.mpr (h2 w' hv))]

theorem f2PickCp_second (h2 : f2ValidateCp d part g.bps (g.cpBlkaddr + g.bps) = some w)
    (h1 : ∀ w', f2ValidateCp d part g.bps g.cpBlkaddr = some w' → w' < w) :
    f2PickCp d part g = some (g.cpBlkaddr + g.bps) := by
  unfold f2PickCp
  dsimp only
  rw [h2]
  cases hv : f2ValidateCp d part g.bps g.cpBlkaddr with
  | none => rfl
  | some w' => rw [if_pos ⟨rfl, rfl⟩, Option.getD_some, Option.getD_some, if_pos (h1 w' hv)]

theorem f2PickCp_none (h1 : f2ValidateCp d part g.bps g.cpBlkaddr = none)
    (h2 : f2ValidateCp d part g.bps (g.cpBlkaddr + g.bps) = none) : f2PickCp d part g = none := by
  unfold f2PickCp
  dsimp only
  rw [h1, h2]
  rfl

theorem f2StartCp_of_pick {a : U32} (hp : f2PickCp d part g = some a) (hv : f2ValidateCp d part g.bps a = some w) :
    f2StartCp d part g = some (packOf g w) := by
  unfold f2StartCp
  rw [hp, Option.map_some, f2ValidateCp_head hv]

theorem f2PickCp_cases (d : Device) (part : U32) (g : Geometry) :
    (∃ w, f2ValidateCp d part g.bps g.cpBlkaddr = some w ∧
      ∀ w', f2ValidateCp d part g.bps (g.cpBlkaddr + g.bps) = some w' → w' ≤ w) ∨
    (∃ w, f2ValidateCp d part g.bps (g.cpBlkaddr + g.bps) = some w ∧
      ∀ w', f2ValidateCp d part g.bps g.cpBlkaddr = some w' → w' < w) ∨
    (f2ValidateCp d part g.bps g.cpBlkaddr = none ∧ f2ValidateCp d part g.bps (g.cpBlkaddr + g.bps) = none) := by
  cases h1 : f2ValidateCp d part g.bps g.cpBlkaddr with
  | none =>
    cases h2 : f2ValidateCp d part g.bps (g.cpBlkaddr + g.bps) with
    | none => exact Or.inr (Or.inr ⟨rfl, rfl⟩)
    | some w2 => exact Or.inr (Or.inl ⟨w2, rfl, fun _ h => by cases h⟩)
  | some w1 =>
    cases h2 : f2ValidateCp d part g.bps (g.cpBlkaddr + g.bps) with
    | none => exact Or.inl ⟨w1, rfl, fun _ h => by cases h⟩
    | some w2 =>
      by_cases hlt : w1 < w2
      · refine Or.inr (Or.inl ⟨w2, rfl, fun w' hw' => ?_⟩)
        rwa [← Option.some.inj hw']
      · refine Or.inl ⟨w1, rfl, fun w' hw' => ?_⟩
        rw [← Option.some.inj hw']
        exact BitVec.not_lt.mp hlt

def ReadsHigher (d : Device) (part : U32) (g : Geometry) : Prop :=
  ∀ a, f2StartCp d part g = some a → ∃ w, f2ValidateCp d part g.bps a = some w ∧
    (∀ w', f2ValidateCp d part g.bps g.cpBlkaddr = some w' → w' ≤ w) ∧
    ∀ w', f2ValidateCp d part g.bps (g.cpBlkaddr + g.bps) = some w' → w' ≤ w

def ParityFits (d : Device) (part : U32) (g : Geometry) : Prop :=
  (∀ w, f2ValidateCp d part g.bps g.cpBlkaddr = some w →
    (∀ w', f2ValidateCp d part g.bps (g.cpBlkaddr + g.bps) = some w' → w' < w) → OddVer w) ∧
  ∀ w, f2ValidateCp d part g.bps (g.cpBlkaddr + g.bps) = some w →
    (∀ w', f2ValidateCp d part g.bps g.cpBlkaddr = some w' → w' < w) → ¬ OddVer w

theorem readsHigher_iff : ReadsHigher d part g ↔ ParityFits d part g := by
  rcases f2PickCp_cases d part g with ⟨w, h1, h2⟩ | ⟨w, h2, h1⟩ | ⟨h1, h2⟩
  · have hstart := f2StartCp_of_pick (f2PickCp_first h1 h2) h1
    constructor
    · intro hread
      obtain ⟨u, hu, hge, -⟩ := hread _ hstart
      refine ⟨fun x hx hlt => ?_, fun x hx hlt => ?_⟩
      · obtain rfl := Option.some.inj (h1.symm.trans hx)
        by_contra heven
        rw [packOf_even heven] at hu
        exact absurd (hlt u hu) (BitVec.not_lt.mpr (hge w h1))
      · exact absurd (hlt w h1) (BitVec.not_lt.mpr (h2 x hx))
    · rintro ⟨hodd, -⟩ a ha
      obtain rfl := Option.some.inj (hstart.symm.trans ha)
      by_cases hw : OddVer w
      · rw [packOf_odd hw]
        exact ⟨w, h1, fun w' hw' => Option.some.inj (h1.symm.trans hw') ▸ BitVec.le_refl w, h2⟩
      -- The other pack passes with the same version.
      · rw [packOf_even hw]
        have htie : ∃ u, f2ValidateCp d part g.bps (g.cpBlkaddr + g.bps) = some u ∧ w ≤ u := by
          by_contra hno
          refine hw (hodd w h1 fun w' hw' => BitVec.not_le.mp fun hle => hno ⟨w', hw', hle⟩)
        obtain ⟨u, hu, hle⟩ := htie
        obtain rfl := BitVec.le_antisymm hle (h2 u hu)
        exact ⟨w, hu, fun w' hw' => Option.some.inj (h1.symm.trans hw') ▸ BitVec.le_refl w, h2⟩
  · have hstart := f2StartCp_of_pick (f2PickCp_second h2 h1) h2
    constructor
    · intro hread
      obtain ⟨u, hu, -, hge⟩ := hread _ hstart
      refine ⟨fun x hx hlt => ?_, fun x hx hlt => ?_⟩
      · exact absurd (h1 x hx) (BitVec.not_lt.mpr (BitVec.le_of_lt (hlt w h2)))
      · obtain rfl := Option.some.inj (h2.symm.trans hx)
        intro hodd
        rw [packOf_odd hodd] at hu
        exact absurd (hlt u hu) (BitVec.not_lt.mpr (hge w h2))
    · rintro ⟨-, heven⟩ a ha
      obtain rfl := Option.some.inj (hstart.symm.trans ha)
      rw [packOf_even (heven w h2 h1)]
      exact ⟨w, h2, fun w' hw' => BitVec.le_of_lt (h1 w' hw'),
        fun w' hw' => Option.some.inj (h2.symm.trans hw') ▸ BitVec.le_refl w⟩
  · have hstart : f2StartCp d part g = none := by
      unfold f2StartCp
      rw [f2PickCp_none h1 h2]
      rfl
    refine ⟨fun _ => ⟨fun w hw => ?_, fun w hw => ?_⟩, fun _ a ha => ?_⟩
    · exact absurd (h1.symm.trans hw).symm (Option.some_ne_none w)
    · exact absurd (h2.symm.trans hw).symm (Option.some_ne_none w)
    · exact absurd (hstart.symm.trans ha).symm (Option.some_ne_none a)

theorem startCp_of_newer (hver : f2ValidateCp d part g.bps (packOf g ver) = some ver)
    (hother : ∀ w, f2ValidateCp d part g.bps (packOf g (ver + 1)) = some w → w ≤ ver) :
    f2StartCp d part g = some (packOf g ver) ∧
      ∃ a, f2PickCp d part g = some a ∧ read64 (f2ReadBlock d part a) cpOffVer = ver := by
  by_cases hodd : OddVer ver
  · rw [packOf_odd hodd] at hver ⊢
    rw [packOf_even fun h => (oddVer_succ ver).mp h hodd] at hother
    have hpick := f2PickCp_first hver hother
    refine ⟨?_, _, hpick, f2ValidateCp_head hver⟩
    rw [f2StartCp_of_pick hpick hver, packOf_odd hodd]
  · rw [packOf_even hodd] at hver ⊢
    rw [packOf_odd ((oddVer_succ ver).mpr hodd)] at hother
    rcases f2PickCp_cases d part g with ⟨w, h1, h2⟩ | ⟨w, h2, h1⟩ | ⟨-, h2⟩
    -- Both pass with this version.
    · obtain rfl := BitVec.le_antisymm (hother w h1) (h2 ver hver)
      have hpick := f2PickCp_first h1 h2
      refine ⟨?_, _, hpick, f2ValidateCp_head h1⟩
      rw [f2StartCp_of_pick hpick h1, packOf_even hodd]
    · obtain rfl := Option.some.inj (h2.symm.trans hver)
      have hpick := f2PickCp_second h2 h1
      refine ⟨?_, _, hpick, f2ValidateCp_head h2⟩
      rw [f2StartCp_of_pick hpick h2, packOf_even hodd]
    · exact absurd (h2.symm.trans hver).symm (Option.some_ne_none ver)

end Ezos.F2fs
