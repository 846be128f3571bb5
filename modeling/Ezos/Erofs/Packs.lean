import Ezos.Erofs.ZmapLaws

/-!
# The compacted format of an index

The packs of an index lie at multiples of their size. Going back through a pack from a head, the driver adds up the blocks of the
extents before it.
-/

namespace Ezos.Erofs

open Lib.Memory

set_option autoImplicit false

variable {v : Vol} {ino : Inode} {zi : ZInfo} {heads : Heads} {n : Nat}

/-! ## Blocks before a head -/

def sumBack (w : Nat → Nat) : Nat → Nat → Nat
  | _, 0 => 0
  | c, i + 1 => w (c - 1) + sumBack w (c - 1) i

theorem sumBack_skip {w : Nat → Nat} {c i j : Nat} (hji : j ≤ i) (hzero : ∀ k < j, w (c - 1 - k) = 0) :
    sumBack w c i = sumBack w (c - j) (i - j) := by
  induction j generalizing c i with
  | zero => rfl
  | succ j ih =>
    obtain ⟨i, rfl⟩ : ∃ i', i = i' + 1 := ⟨i - 1, by omega⟩
    have hhead : w (c - 1) = 0 := hzero 0 (by omega)
    have hrest : ∀ k < j, w (c - 1 - 1 - k) = 0 := fun k hk => by
      have hplace : c - 1 - 1 - k = c - 1 - (k + 1) := by omega
      rw [hplace]
      exact hzero (k + 1) (by omega)
    rw [sumBack, hhead, Nat.zero_add, ih (by omega) hrest, Nat.sub_sub, Nat.add_comm 1 j, Nat.add_sub_add_right]

def headWeight (heads : Heads) (c : Nat) : Nat := if (heads c).isSome then 1 else 0

def toldWeight (heads : Heads) (c : Nat) : Nat :=
  if (heads c).isSome then if (heads (c + 1)).isSome then 1 else 0 else ((heads (c - 1)).map Head.blocks).getD 0

def blocksBefore (zi : ZInfo) (heads : Heads) (c i : Nat) : Nat :=
  if zi.bigPcluster then sumBack (toldWeight heads) c i else 1 + sumBack (headWeight heads) c i

structure EntriesTell (zi : ZInfo) (heads : Heads) (entry : Nat → Nat × Nat) (c₀ i : Nat) : Prop where
  head : ∀ k < i, ∀ h, heads (c₀ + k) = some h → (entry k).2 = h.ltype
  nonhead : ∀ k < i, heads (c₀ + k) = none → (entry k).2 = ltypeNonhead ∧ (entry k).1 = wayBack zi heads (c₀ + k)

theorem nblkFrom_of_neg {entry : Nat → Nat × Nat} {fuel nblk : Nat} {i : Int} (hi : i ≤ 0) : nblkFrom entry fuel i nblk = nblk := by
  cases fuel with
  | zero => rfl
  | succ fuel => exact if_neg (by omega)

theorem nblkBigFrom_of_neg {entry : Nat → Nat × Nat} {fuel nblk : Nat} {i : Int} (hi : i ≤ 0) :
    nblkBigFrom entry fuel i nblk = some nblk := by
  cases fuel with
  | zero => rfl
  | succ fuel => exact if_neg (by omega)

theorem lastHead_lt_of_none (h0 : (heads 0).isSome) {c : Nat} (hc : heads c = none) : lastHead heads c < c := by
  obtain ⟨h, hh⟩ := lastHead_some h0 c
  have hle := lastHead_le heads c
  rcases Nat.lt_or_eq_of_le hle with hlt | heq
  · exact hlt
  · rw [heq, hc] at hh
    cases hh

theorem nblkFrom_eq {entry : Nat → Nat × Nat} {c₀ i fuel nblk : Nat} (h0 : (heads 0).isSome) (hbig : zi.bigPcluster = false)
    (he : EntriesTell zi heads entry c₀ i) (hfuel : i ≤ fuel) :
    nblkFrom entry fuel i nblk = nblk + sumBack (headWeight heads) (c₀ + i) i := by
  induction fuel generalizing i nblk with
  | zero =>
    obtain rfl : i = 0 := by omega
    rfl
  | succ fuel ih =>
    rcases Nat.eq_zero_or_pos i with rfl | hpos
    · exact nblkFrom_of_neg (Int.le_refl 0)
    · obtain ⟨i, rfl⟩ : ∃ i', i = i' + 1 := ⟨i - 1, by omega⟩
      have hsum : sumBack (headWeight heads) (c₀ + (i + 1)) (i + 1) =
          headWeight heads (c₀ + i) + sumBack (headWeight heads) (c₀ + i) i := rfl
      have hto : ((i + 1 : Nat) : Int) - 1 = i := by omega
      have hnat : ((i : Nat) : Int).toNat = i := Int.toNat_natCast i
      have hsub : ∀ j ≤ i, EntriesTell zi heads entry c₀ j := fun j hj =>
        ⟨fun k hk => he.head k (by omega), fun k hk => he.nonhead k (by omega)⟩
      rw [nblkFrom, if_pos (by omega), hto, hnat, hsum]
      dsimp only
      cases hc : heads (c₀ + i) with
      | some h =>
        have htype : ¬ (entry i).2 = ltypeNonhead := he.head i (by omega) h hc ▸ ltype_ne_nonhead h
        have hone : headWeight heads (c₀ + i) = 1 := if_pos (by rw [hc]; rfl)
        rw [if_neg htype, if_pos (by omega), ih (hsub i (Nat.le_refl i)) (by omega), hone, Nat.add_assoc]
      | none =>
        obtain ⟨htype, hlo⟩ := he.nonhead i (by omega) hc
        have hlast := lastHead_lt_of_none h0 hc
        have hway : (entry i).1 = c₀ + i - lastHead heads (c₀ + i) := by
          rw [hlo, wayBack, hbig]
          rfl
        have hnone : ∀ k < c₀ + i - lastHead heads (c₀ + i), headWeight heads (c₀ + i - k) = 0 := fun k hk => by
          rw [headWeight, none_of_lastHead_lt (by omega : lastHead heads (c₀ + i) < c₀ + i - k) (by omega)]
          rfl
        have hzero : headWeight heads (c₀ + i) = 0 := hnone 0 (by omega)
        rw [if_pos htype, hway, hzero, Nat.zero_add]
        generalize hd : c₀ + i - lastHead heads (c₀ + i) = d at *
        by_cases hin : d ≤ i
        · -- The head is in the pack.
          have hback : ((i : Nat) : Int) - d = ((i - d : Nat) : Int) := by omega
          rw [hback, if_pos (by omega), ih (hsub (i - d) (by omega)) (by omega)]
          obtain ⟨h, hh⟩ := lastHead_some h0 (c₀ + i)
          have hskip : sumBack (headWeight heads) (c₀ + i) i = sumBack (headWeight heads) (c₀ + i - (d - 1)) (i - (d - 1)) :=
            sumBack_skip (by omega) fun k hk => by
              rw [Nat.sub_sub]
              exact hnone (1 + k) (by omega)
          have hnext : sumBack (headWeight heads) (c₀ + i - (d - 1)) (i - (d - 1)) =
              headWeight heads (lastHead heads (c₀ + i)) + sumBack (headWeight heads) (c₀ + (i - d)) (i - d) := by
            have hi : i - (d - 1) = i - d + 1 := by omega
            have hc1 : c₀ + i - (d - 1) - 1 = c₀ + (i - d) := by omega
            have hl : lastHead heads (c₀ + i) = c₀ + (i - d) := by omega
            rw [hi, sumBack, hc1, hl]
          have hone : headWeight heads (lastHead heads (c₀ + i)) = 1 := if_pos (by rw [hh]; rfl)
          rw [hskip, hnext, hone, Nat.add_assoc]
        · have hskip : sumBack (headWeight heads) (c₀ + i) i = sumBack (headWeight heads) (c₀ + i - i) (i - i) :=
            sumBack_skip (Nat.le_refl i) fun k hk => by
              rw [Nat.sub_sub]
              exact hnone (1 + k) (by omega)
          rw [if_neg (by omega), nblkFrom_of_neg (by omega), hskip, Nat.sub_self]
          rfl

theorem nblkBigFrom_eq {entry : Nat → Nat × Nat} {c₀ i fuel nblk : Nat} (h0 : (heads 0).isSome) (hbig : zi.bigPcluster = true)
    (ht : ∀ c h, heads c = some h → h.blocks < d0Cblkcnt) (hnear : ∀ k < i, c₀ + k - lastHead heads (c₀ + k) < d0Cblkcnt)
    (he : EntriesTell zi heads entry c₀ i) (hfuel : i ≤ fuel)
    (hnext : (heads (c₀ + i - 1)).isSome → (heads (c₀ + i)).isSome) :
    nblkBigFrom entry fuel i nblk = some (nblk + sumBack (toldWeight heads) (c₀ + i) i) := by
  induction fuel generalizing i nblk with
  | zero =>
    obtain rfl : i = 0 := by omega
    rfl
  | succ fuel ih =>
    rcases Nat.eq_zero_or_pos i with rfl | hpos
    · exact nblkBigFrom_of_neg (Int.le_refl 0)
    · obtain ⟨i, rfl⟩ : ∃ i', i = i' + 1 := ⟨i - 1, by omega⟩
      have hsum : sumBack (toldWeight heads) (c₀ + (i + 1)) (i + 1) =
          toldWeight heads (c₀ + i) + sumBack (toldWeight heads) (c₀ + i) i := rfl
      have hto : ((i + 1 : Nat) : Int) - 1 = i := by omega
      have hnat : ((i : Nat) : Int).toNat = i := Int.toNat_natCast i
      have hsub : ∀ j ≤ i, EntriesTell zi heads entry c₀ j := fun j hj =>
        ⟨fun k hk => he.head k (by omega), fun k hk => he.nonhead k (by omega)⟩
      have hcl : c₀ + (i + 1) - 1 = c₀ + i := by omega
      rw [hcl] at hnext
      rw [nblkBigFrom, if_pos (by omega), hto, hnat, hsum]
      dsimp only
      cases hc : heads (c₀ + i) with
      | some h =>
        have htype : ¬ (entry i).2 = ltypeNonhead := he.head i (by omega) h hc ▸ ltype_ne_nonhead h
        have hsome : (heads (c₀ + i)).isSome := by rw [hc]; rfl
        have hone : toldWeight heads (c₀ + i) = 1 := by
          rw [toldWeight, if_pos hsome]
          exact if_pos (hnext hsome)
        rw [if_neg htype, ih (fun k hk => hnear k (by omega)) (hsub i (Nat.le_refl i)) (by omega) fun _ => hsome, hone,
          Nat.add_assoc]
      | none =>
        obtain ⟨htype, hlo⟩ := he.nonhead i (by omega) hc
        have hlast := lastHead_lt_of_none h0 hc
        have hi := hnear i (by omega)
        rw [if_pos htype, hlo]
        cases htell : tells zi heads (c₀ + i) with
        | true =>
          obtain ⟨h', _, hh, hone, hway, _⟩ := of_tells htell hc
          have hblocks := ht _ h' hh
          have hbit : (d0Cblkcnt + h'.blocks) / d0Cblkcnt % 2 = 1 := by
            unfold d0Cblkcnt at *
            omega
          have hmod : (d0Cblkcnt + h'.blocks) % d0Cblkcnt = h'.blocks := by
            rw [Nat.add_mod_left, Nat.mod_eq_of_lt hblocks]
          have hw : toldWeight heads (c₀ + i) = h'.blocks := by
            rw [toldWeight, hc, if_neg (by decide), hh]
            rfl
          rw [hway, if_pos hbit, hmod, hw]
          rcases Nat.eq_zero_or_pos i with rfl | hipos
          · rw [nblkBigFrom_of_neg (by omega)]
            rfl
          · obtain ⟨j, rfl⟩ : ∃ j, i = j + 1 := ⟨i - 1, by omega⟩
            have hto2 : ((j + 1 + 1 : Nat) : Int) - 2 = j := by omega
            have hcl1 : c₀ + (j + 1) - 1 = c₀ + j := by omega
            rw [hcl1] at hh
            have hsome : (heads (c₀ + j)).isSome := by rw [hh]; rfl
            have hskip : toldWeight heads (c₀ + j) = 0 := by
              rw [toldWeight, if_pos hsome]
              exact if_neg (by rw [Nat.add_assoc, hc]; decide)
            have hsum1 : sumBack (toldWeight heads) (c₀ + (j + 1)) (j + 1) =
                toldWeight heads (c₀ + j) + sumBack (toldWeight heads) (c₀ + j) j := rfl
            rw [hto2, ih (fun k hk => hnear k (by omega)) (hsub j (by omega)) (by omega) fun _ => hsome, hsum1, hskip,
              Nat.zero_add, Nat.add_assoc]
        | false =>
          have hway := wayBack_of_not_tells htell
          have hprev : heads (c₀ + i - 1) = none := by
            rw [tells, hbig, Bool.true_and] at htell
            exact Option.isNone_iff_eq_none.mp (Option.isSome_eq_false_iff.mp htell)
          have hlast2 : lastHead heads (c₀ + i) < c₀ + i - 1 := by
            obtain ⟨h, hh⟩ := lastHead_some h0 (c₀ + i)
            have hne : lastHead heads (c₀ + i) ≠ c₀ + i - 1 := fun heq => by
              rw [heq, hprev] at hh
              cases hh
            omega
          have hbit : ¬ (c₀ + i - lastHead heads (c₀ + i)) / d0Cblkcnt % 2 = 1 := by
            rw [Nat.div_eq_of_lt hi]
            decide
          have hnone : ∀ k, k + 1 < c₀ + i - lastHead heads (c₀ + i) → toldWeight heads (c₀ + i - k) = 0 := fun k hk => by
            rw [toldWeight, none_of_lastHead_lt (by omega : lastHead heads (c₀ + i) < c₀ + i - k) (by omega),
              if_neg (by decide), none_of_lastHead_lt (by omega : lastHead heads (c₀ + i) < c₀ + i - k - 1) (by omega)]
            rfl
          have hzero : toldWeight heads (c₀ + i) = 0 := hnone 0 (by omega)
          rw [hway, if_neg hbit, if_neg (by omega), hzero, Nat.zero_add]
          generalize hd : c₀ + i - lastHead heads (c₀ + i) = d at *
          by_cases hin : d - 2 < i
          · have hback : ((i : Nat) : Int) - ((d : Nat) - 2 : Int) = ((i - (d - 2) : Nat) : Int) := by omega
            have hskip : sumBack (toldWeight heads) (c₀ + i) i = sumBack (toldWeight heads) (c₀ + i - (d - 2)) (i - (d - 2)) :=
              sumBack_skip (by omega) fun k hk => by
                rw [Nat.sub_sub]
                exact hnone (1 + k) (by omega)
            have hplace : c₀ + i - (d - 2) = c₀ + (i - (d - 2)) := by omega
            have hcbl : heads (c₀ + (i - (d - 2)) - 1) = none :=
              none_of_lastHead_lt (by omega : lastHead heads (c₀ + i) < c₀ + (i - (d - 2)) - 1) (by omega)
            rw [hback, ih (fun k hk => hnear k (by omega)) (hsub (i - (d - 2)) (by omega)) (by omega)
              (fun hs => by rw [hcbl] at hs; cases hs), hskip, hplace]
          · have hskip : sumBack (toldWeight heads) (c₀ + i) i = sumBack (toldWeight heads) (c₀ + i - i) (i - i) :=
              sumBack_skip (Nat.le_refl i) fun k hk => by
                rw [Nat.sub_sub]
                exact hnone (1 + k) (by omega)
            rw [nblkBigFrom_of_neg (by omega), hskip, Nat.sub_self]
            rfl

def widthAt (v : Vol) (ino : Inode) (zi : ZInfo) (c : Nat) : Nat := (compactedAt v ino zi c).1

def placeAt (v : Vol) (ino : Inode) (zi : ZInfo) (c : Nat) : Nat := (compactedAt v ino zi c).2

def packStart (v : Vol) (ino : Inode) (zi : ZInfo) (c : Nat) : Nat :=
  placeAt v ino zi c / packSize (widthAt v ino zi c) * packSize (widthAt v ino zi c)

def packPos (v : Vol) (ino : Inode) (zi : ZInfo) (c : Nat) : Nat :=
  placeAt v ino zi c % packSize (widthAt v ino zi c) / 2 ^ widthAt v ino zi c

def entryAt (v : Vol) (ino : Inode) (zi : ZInfo) (c : Nat) : Nat × Nat :=
  erZDecodeBits zi.lclusterbits (fun x => v.byte (packStart v ino zi c + x))
    (encodebits (widthAt v ino zi c) * packPos v ino zi c)

def packBase (v : Vol) (ino : Inode) (zi : ZInfo) (c : Nat) : U32 :=
  read32 v.byte (packStart v ino zi c + (packSize (widthAt v ino zi c) - 4))

theorem widthAt_cases (v : Vol) (ino : Inode) (zi : ZInfo) (c : Nat) : widthAt v ino zi c = 2 ∨ widthAt v ino zi c = 1 := by
  unfold widthAt compactedAt
  dsimp only
  split
  · exact Or.inl rfl
  · split
    · exact Or.inr rfl
    · exact Or.inl rfl

theorem ebase_mod (ino : Inode) : ino.ebase % 8 = 0 := by
  unfold Inode.ebase Inode.zHeader
  omega

theorem initial_mod (ino : Inode) : (ino.ebase + compacted4bInitial ino * 4) % 32 = 0 := by
  have hmod := ebase_mod ino
  unfold compacted4bInitial
  by_cases h : ino.ebase % 32 = 0
  · rw [if_pos h, Nat.zero_mul]
    exact h
  · rw [if_neg h]
    omega

theorem compacted2b_mod (v : Vol) (ino : Inode) (zi : ZInfo) : compacted2b v ino zi % 16 = 0 := by
  unfold compacted2b
  split
  · exact Nat.mul_mod_left _ 16
  · rfl

theorem compactedAt_back {c : Nat} (h : packPos v ino zi c ≠ 0) :
    0 < c ∧ compactedAt v ino zi (c - 1) = (widthAt v ino zi c, placeAt v ino zi c - 2 ^ widthAt v ino zi c) ∧
      2 ^ widthAt v ino zi c ≤ placeAt v ino zi c := by
  have hbase := ebase_mod ino
  have hinitial := initial_mod ino
  have htwos := compacted2b_mod v ino zi
  unfold packPos at h
  unfold widthAt placeAt at *
  unfold compactedAt at *
  dsimp only at *
  generalize compacted4bInitial ino = initial at *
  generalize compacted2b v ino zi = twos at *
  generalize ino.ebase = ebase at *
  have hsize2 : packSize 2 = 8 := rfl
  have hsize1 : packSize 1 = 32 := rfl
  by_cases h1 : c < initial
  · rw [if_pos h1] at h ⊢
    dsimp only at h ⊢
    rw [hsize2] at h
    have hpos : 0 < c := by omega
    rw [if_pos (by omega)]
    exact ⟨hpos, Prod.ext rfl (by dsimp only; omega), by omega⟩
  · rw [if_neg h1] at h ⊢
    by_cases h2 : c - initial < twos
    · rw [if_pos h2] at h ⊢
      dsimp only at h ⊢
      rw [hsize1] at h
      have hpos : initial < c := by omega
      rw [if_neg (by omega), if_pos (by omega)]
      exact ⟨by omega, Prod.ext rfl (by dsimp only; omega), by omega⟩
    · rw [if_neg h2] at h ⊢
      dsimp only at h ⊢
      rw [hsize2] at h
      have hpos : initial + twos < c := by omega
      rw [if_neg (by omega), if_neg (by omega)]
      exact ⟨by omega, Prod.ext rfl (by dsimp only; omega), by omega⟩

theorem pack_back {c i : Nat} (h : packPos v ino zi c = i + 1) :
    0 < c ∧ widthAt v ino zi (c - 1) = widthAt v ino zi c ∧ packStart v ino zi (c - 1) = packStart v ino zi c ∧
      packPos v ino zi (c - 1) = i := by
  obtain ⟨hpos, hback, hle⟩ := compactedAt_back (by omega : packPos v ino zi c ≠ 0)
  have hwidth : widthAt v ino zi (c - 1) = widthAt v ino zi c := by
    rw [widthAt, hback]
  have hplace : placeAt v ino zi (c - 1) = placeAt v ino zi c - 2 ^ widthAt v ino zi c := by
    rw [placeAt, hback]
  refine ⟨hpos, hwidth, ?_⟩
  unfold packPos packStart at *
  rw [hwidth, hplace]
  rcases widthAt_cases v ino zi c with hw | hw
  · have hsize : packSize 2 = 8 := rfl
    rw [hw] at h hle ⊢
    rw [hsize] at h ⊢
    omega
  · have hsize : packSize 1 = 32 := rfl
    rw [hw] at h hle ⊢
    rw [hsize] at h ⊢
    omega

theorem pack_entries {c k : Nat} (hk : k ≤ packPos v ino zi c) :
    packPos v ino zi c - k ≤ c ∧ widthAt v ino zi (c - (packPos v ino zi c - k)) = widthAt v ino zi c ∧
      packStart v ino zi (c - (packPos v ino zi c - k)) = packStart v ino zi c ∧
      packPos v ino zi (c - (packPos v ino zi c - k)) = k := by
  induction hd : packPos v ino zi c - k generalizing c with
  | zero => exact ⟨Nat.zero_le _, rfl, rfl, by rw [Nat.sub_zero]; omega⟩
  | succ d ih =>
    obtain ⟨i, hi⟩ : ∃ i, packPos v ino zi c = i + 1 := ⟨packPos v ino zi c - 1, by omega⟩
    obtain ⟨hpos, hwidth, hstart, hprev⟩ := pack_back hi
    obtain ⟨hle, h1, h2, h3⟩ := ih (c := c - 1) (by omega) (by omega)
    have hplace : c - 1 - d = c - (d + 1) := by omega
    rw [hplace] at h1 h2 h3
    exact ⟨by omega, h1.trans hwidth, h2.trans hstart, h3⟩

theorem packSize_cases {w : Nat} (hw : w = 2 ∨ w = 1) : packSize w ∣ 512 ∧ 0 < packSize w := by
  rcases hw with rfl | rfl
  · exact ⟨by decide, by decide⟩
  · exact ⟨by decide, by decide⟩

theorem div_mul_split {a p b : Nat} (hdvd : p ∣ b) : a % b / p * p + a / b * b = a / p * p := by
  obtain ⟨m, rfl⟩ := hdvd
  have hmod : a % (p * m) / p = a / p % m := Nat.mod_mul_right_div_self a p m
  have hdiv : a / (p * m) = a / p / m := (Nat.div_div_eq_div_mul a p m).symm
  have hsplit := Nat.div_add_mod (a / p) m
  calc a % (p * m) / p * p + a / (p * m) * (p * m) = (m * (a / p / m) + a / p % m) * p := by
        rw [hmod, hdiv, Nat.add_mul, Nat.add_comm, Nat.mul_comm p m, ← Nat.mul_assoc, Nat.mul_comm (a / p / m) m]
    _ = a / p * p := by rw [hsplit]

theorem blksz_dvd (hbits : 9 ≤ v.blkszbits) : 512 ∣ v.blksz := by
  have hsplit : v.blkszbits = 9 + (v.blkszbits - 9) := by omega
  rw [Vol.blksz, hsplit, Nat.pow_add]
  exact Nat.dvd_mul_right _ _

theorem packMem_eq (hbits : 9 ≤ v.blkszbits) {w pos : Nat} (hw : w = 2 ∨ w = 1) (hpos : pos / v.blksz < 2 ^ 32) {x : Nat}
    (hx : x < packSize w) : packMem v w pos x = v.byte (pos / packSize w * packSize w + x) := by
  obtain ⟨hdvd, hsize⟩ := packSize_cases hw
  have hdvd' := Nat.dvd_trans hdvd (blksz_dvd hbits)
  have hsplit := @div_mul_split pos (packSize w) v.blksz hdvd'
  have hroom : pos % v.blksz / packSize w * packSize w + x < v.blksz := by
    obtain ⟨m, hm⟩ := hdvd'
    have hlt := Nat.mod_lt pos v.blksz_pos
    have hq : pos % v.blksz / packSize w < m := by
      rw [Nat.div_lt_iff_lt_mul hsize, Nat.mul_comm, ← hm]
      exact hlt
    calc pos % v.blksz / packSize w * packSize w + x < (pos % v.blksz / packSize w + 1) * packSize w := by
          rw [Nat.succ_mul]
          omega
      _ ≤ m * packSize w := Nat.mul_le_mul_right _ hq
      _ = v.blksz := by rw [hm, Nat.mul_comm]
  rw [packMem, v.read_zero _ _ hroom, Nat.mod_eq_of_lt hpos, ← Nat.add_assoc, Nat.add_comm (pos / v.blksz * v.blksz), hsplit]

theorem packIndex_eq (hbits : 9 ≤ v.blkszbits) {w pos : Nat} (hw : w = 2 ∨ w = 1) :
    packIndex v w pos = pos % packSize w / 2 ^ w := by
  obtain ⟨hdvd, hsize⟩ := packSize_cases hw
  have hmod : pos % v.blksz % packSize w = pos % packSize w := Nat.mod_mod_of_dvd _ (Nat.dvd_trans hdvd (blksz_dvd hbits))
  have hsub : pos % v.blksz - pos % v.blksz / packSize w * packSize w = pos % v.blksz % packSize w := by
    have hdiv := Nat.div_add_mod' (pos % v.blksz) (packSize w)
    omega
  rw [packIndex, hsub, hmod]

theorem erZDecodeBits_congr {f g : Mem} {lobits pos len : Nat} (h : ∀ x < len, f x = g x) (hpos : pos / 8 + 4 ≤ len) :
    erZDecodeBits lobits f pos = erZDecodeBits lobits g pos := by
  unfold erZDecodeBits
  rw [read32_congr fun x _ hx => h x (by omega)]

theorem entry_room {w k : Nat} (hw : w = 2 ∨ w = 1) (hk : k < packCount w) : encodebits w * k / 8 + 4 ≤ packSize w := by
  rcases hw with rfl | rfl
  · have hc : packCount 2 = 2 := rfl
    have he : encodebits 2 = 16 := rfl
    have hs : packSize 2 = 8 := rfl
    rw [he, hs]
    omega
  · have hc : packCount 1 = 16 := rfl
    have he : encodebits 1 = 14 := rfl
    have hs : packSize 1 = 32 := rfl
    rw [he, hs]
    omega

theorem packPos_lt (v : Vol) (ino : Inode) (zi : ZInfo) (c : Nat) : packPos v ino zi c < packCount (widthAt v ino zi c) := by
  unfold packPos
  rcases widthAt_cases v ino zi c with hw | hw
  · have hc : packCount 2 = 2 := rfl
    have hs : packSize 2 = 8 := rfl
    rw [hw, hc, hs]
    omega
  · have hc : packCount 1 = 16 := rfl
    have hs : packSize 1 = 32 := rfl
    rw [hw, hc, hs]
    omega

structure CompactIndex (v : Vol) (ino : Inode) (zi : ZInfo) (heads : Heads) (n : Nat) : Prop where
  layout : ino.datalayout = compressedCompact
  bits : zi.lclusterbits = 12
  room : n ≤ totalidx v ino
  addressable : ∀ c < n, placeAt v ino zi c / v.blksz < 2 ^ 32
  head : ∀ c h, c < n → heads c = some h → entryAt v ino zi c = (h.ofs, h.ltype) ∧
    packBase v ino zi c + BitVec.ofNat 32 (blocksBefore zi heads c (packPos v ino zi c)) = h.pblk
  nonhead : ∀ c, c < n → heads c = none → (entryAt v ino zi c).2 = ltypeNonhead ∧
    (tells zi heads c = true ∨ packPos v ino zi c + 1 ≠ packCount (widthAt v ino zi c) →
      (entryAt v ino zi c).1 = wayBack zi heads c) ∧
    (tells zi heads c = false → (entryAt v ino zi c).1 < d0Cblkcnt)

def readEntry (v : Vol) (ino : Inode) (zi : ZInfo) (c k : Nat) : Nat × Nat :=
  erZDecodeBits zi.lclusterbits (packMem v (widthAt v ino zi c) (placeAt v ino zi c)) (encodebits (widthAt v ino zi c) * k)

theorem CompactIndex.readEntry_eq (h : CompactIndex v ino zi heads n) (hbits : 9 ≤ v.blkszbits) {c k : Nat} (hc : c < n)
    (hk : k ≤ packPos v ino zi c) : readEntry v ino zi c k = entryAt v ino zi (c - (packPos v ino zi c - k)) := by
  obtain ⟨_, hwidth, hstart, hpos⟩ := pack_entries hk
  have hw := widthAt_cases v ino zi c
  have hroom := entry_room hw (Nat.lt_of_le_of_lt hk (packPos_lt v ino zi c))
  have hmem : ∀ x < packSize (widthAt v ino zi c), packMem v (widthAt v ino zi c) (placeAt v ino zi c) x =
      v.byte (packStart v ino zi c + x) := fun x hx => packMem_eq hbits hw (h.addressable c hc) hx
  rw [readEntry, entryAt, hwidth, hstart, hpos]
  exact erZDecodeBits_congr hmem hroom

theorem CompactIndex.load_eq (h : CompactIndex v ino zi heads n) (hbits : 9 ≤ v.blkszbits) (m : ZRec) {c : Nat} (hc : c < n) :
    erZLoadCluster v ino zi m c =
      unpackEntry zi { m with lcn := c } (packCount (widthAt v ino zi c)) (packPos v ino zi c) (readEntry v ino zi c)
        (packBase v ino zi c) := by
  have hw := widthAt_cases v ino zi c
  have hroom := h.room
  have hne : ¬ ino.datalayout = compressedFull := by
    rw [h.layout]
    decide
  have hshift : ¬ ¬ (widthAt v ino zi c = 2 ∨ widthAt v ino zi c = 1 ∧ zi.lclusterbits = 12) :=
    not_not.mpr (hw.imp_right fun h1 => ⟨h1, h.bits⟩)
  have hindex : packIndex v (widthAt v ino zi c) (placeAt v ino zi c) = packPos v ino zi c := packIndex_eq hbits hw
  have hsize : 4 ≤ packSize (widthAt v ino zi c) := by
    rcases hw with h2 | h1
    · rw [h2]
      decide
    · rw [h1]
      decide
  have hbase : read32 (packMem v (widthAt v ino zi c) (placeAt v ino zi c)) (packSize (widthAt v ino zi c) - 4) =
      packBase v ino zi c := by
    have hmem : ∀ x < packSize (widthAt v ino zi c), packMem v (widthAt v ino zi c) (placeAt v ino zi c) x =
        v.byte (packStart v ino zi c + x) := fun x hx => packMem_eq hbits hw (h.addressable c hc) hx
    rw [read32_congr fun x _ hx => hmem x (by omega)]
    rfl
  rw [erZLoadCluster, if_neg hne, if_pos h.layout, erZLoadCompacted, if_neg (not_not.mpr h.bits), if_neg (by omega)]
  change erZUnpackCompacted v zi { m with lcn := c } (widthAt v ino zi c) (placeAt v ino zi c) = _
  rw [erZUnpackCompacted, if_neg hshift, hindex, hbase]
  rfl

theorem CompactIndex.entriesTell (h : CompactIndex v ino zi heads n) (hbits : 9 ≤ v.blkszbits) {c : Nat} (hc : c < n) :
    EntriesTell zi heads (readEntry v ino zi c) (c - packPos v ino zi c) (packPos v ino zi c) := by
  obtain ⟨hle, _⟩ := pack_entries (Nat.zero_le (packPos v ino zi c))
  have hlast := packPos_lt v ino zi c
  have hplace : ∀ k < packPos v ino zi c, c - packPos v ino zi c + k = c - (packPos v ino zi c - k) := fun k hk => by omega
  constructor
  · intro k hk hd hh
    rw [hplace k hk] at hh
    rw [h.readEntry_eq hbits hc (by omega), (h.head _ hd (by omega) hh).1]
  · intro k hk hnone
    obtain ⟨_, hwidth, _, hpos⟩ := @pack_entries v ino zi c k (by omega)
    rw [hplace k hk] at hnone ⊢
    obtain ⟨htype, hway, _⟩ := h.nonhead _ (by omega) hnone
    rw [h.readEntry_eq hbits hc (by omega)]
    exact ⟨htype, hway (Or.inr (by rw [hwidth, hpos]; omega))⟩

theorem CompactIndex.loads (h : CompactIndex v ino zi heads n) (hbits : 9 ≤ v.blkszbits) (ht : Tellable heads n)
    (h0 : (heads 0).isSome) : Loads v ino zi heads n := by
  constructor
  · intro m c hd hc hh
    obtain ⟨hentry, hpblk⟩ := h.head c hd hc hh
    obtain ⟨hle, _⟩ := pack_entries (Nat.zero_le (packPos v ino zi c))
    have hread : readEntry v ino zi c (packPos v ino zi c) = (hd.ofs, hd.ltype) := by
      rw [h.readEntry_eq hbits hc (Nat.le_refl _), Nat.sub_self]
      exact hentry
    have htell := h.entriesTell hbits hc
    have hlast := packPos_lt v ino zi c
    have hback : c - packPos v ino zi c + packPos v ino zi c = c := by omega
    have hnblk : (if ¬ zi.bigPcluster = true then
          some (nblkFrom (readEntry v ino zi c) (packCount (widthAt v ino zi c)) (packPos v ino zi c) 1)
        else nblkBigFrom (readEntry v ino zi c) (packCount (widthAt v ino zi c)) (packPos v ino zi c) 0) =
        some (blocksBefore zi heads c (packPos v ino zi c)) := by
      cases hbig : zi.bigPcluster with
      | false =>
        rw [if_pos Bool.false_ne_true, nblkFrom_eq h0 hbig htell (by omega), hback, blocksBefore, hbig]
        rfl
      | true =>
        rw [if_neg (not_not.mpr rfl), nblkBigFrom_eq h0 hbig ht.blocks (fun k hk => ht.near _ (by omega)) htell (by omega)
          fun _ => by rw [hback, hh]; rfl, hback, blocksBefore, hbig, Nat.zero_add]
        rfl
    refine ⟨{ m with lcn := c, type := hd.ltype, clusterofs := hd.ofs, delta := 0, pblk := hd.pblk }, ?_, ⟨rfl, rfl, rfl⟩,
      rfl, rfl⟩
    rw [h.load_eq hbits m hc, unpackEntry]
    dsimp only
    rw [hread, if_neg (ltype_ne_nonhead hd), hnblk]
    dsimp only
    rw [hpblk]
  · intro m c hc hnone
    obtain ⟨htype, hway, hfree⟩ := h.nonhead c hc hnone
    have hread : readEntry v ino zi c (packPos v ino zi c) = entryAt v ino zi c := by
      rw [h.readEntry_eq hbits hc (Nat.le_refl _), Nat.sub_self]
      rfl
    rw [h.load_eq hbits m hc, unpackEntry]
    dsimp only
    rw [hread, if_pos htype]
    cases htell : tells zi heads c with
    | true =>
      obtain ⟨h', hbig, hh, hone, hback, htold⟩ := of_tells htell hnone
      have hblocks := ht.blocks _ h' hh
      have hbit : (d0Cblkcnt + h'.blocks) / d0Cblkcnt % 2 = 1 := by
        unfold d0Cblkcnt at *
        omega
      have hmod : (d0Cblkcnt + h'.blocks) % d0Cblkcnt = h'.blocks := by
        rw [Nat.add_mod_left, Nat.mod_eq_of_lt hblocks]
      rw [hway (Or.inl htell), hback, if_pos hbit, if_neg (not_not.mpr hbig), hmod, htype]
      exact ⟨_, rfl, rfl, rfl, hone.symm, (htold _).symm⟩
    | false =>
      have hlo := hfree htell
      have hbit : ¬ (entryAt v ino zi c).1 / d0Cblkcnt % 2 = 1 := by
        rw [Nat.div_eq_of_lt hlo]
        decide
      rw [if_neg hbit, htype]
      by_cases hend : packPos v ino zi c + 1 = packCount (widthAt v ino zi c)
      · -- The way back follows from that of the entry before.
        have hcount : 2 ≤ packCount (widthAt v ino zi c) := by
          rcases widthAt_cases v ino zi c with hw | hw
          · rw [hw]
            decide
          · rw [hw]
            decide
        obtain ⟨i, hi⟩ : ∃ i, packPos v ino zi c = i + 1 := ⟨packPos v ino zi c - 1, by omega⟩
        obtain ⟨hcpos, hwidth, _, hprevpos⟩ := pack_back hi
        obtain ⟨b, rfl⟩ : ∃ b, c = b + 1 := ⟨c - 1, by omega⟩
        rw [Nat.add_sub_cancel] at hwidth hprevpos
        have hprev : readEntry v ino zi (b + 1) (packPos v ino zi (b + 1) - 1) = entryAt v ino zi b := by
          have hone : b + 1 - (packPos v ino zi (b + 1) - (packPos v ino zi (b + 1) - 1)) = b := by omega
          rw [h.readEntry_eq hbits hc (by omega), hone]
        have hlast := lastHead_succ_of_none hnone
        have hle := lastHead_le heads b
        have hdelta : (if (entryAt v ino zi b).2 ≠ ltypeNonhead then 0
            else if (entryAt v ino zi b).1 / d0Cblkcnt % 2 = 1 then 1 else (entryAt v ino zi b).1) + 1 =
            b + 1 - lastHead heads (b + 1) := by
          cases hb : heads b with
          | some hd =>
            have hhead : (entryAt v ino zi b).2 ≠ ltypeNonhead := by
              rw [(h.head b hd (by omega) hb).1]
              exact ltype_ne_nonhead hd
            rw [if_pos hhead, hlast, lastHead_of_some hb]
            omega
          | none =>
            obtain ⟨htype', hway', _⟩ := h.nonhead b (by omega) hb
            have hlo' := hway' (Or.inr (by rw [hwidth, hprevpos]; omega))
            rw [if_neg (not_not.mpr htype'), hlo', hlast]
            cases htell' : tells zi heads b with
            | true =>
              obtain ⟨h', _, hh, hone, hback, _⟩ := of_tells htell' hb
              have hblocks := ht.blocks _ h' hh
              have hbit' : (d0Cblkcnt + h'.blocks) / d0Cblkcnt % 2 = 1 := by
                unfold d0Cblkcnt at *
                omega
              rw [hback, if_pos hbit']
              omega
            | false =>
              have hnear := ht.near b (by omega)
              have hbit' : ¬ (b - lastHead heads b) / d0Cblkcnt % 2 = 1 := by
                rw [Nat.div_eq_of_lt hnear]
                decide
              rw [wayBack_of_not_tells htell', if_neg hbit']
              omega
        rw [if_neg (not_not.mpr hend), hprev]
        exact ⟨_, rfl, rfl, rfl, hdelta, (toldBlocks_of_not_tells htell).symm⟩
      · rw [if_pos hend, hway (Or.inr hend), wayBack_of_not_tells htell]
        exact ⟨_, rfl, rfl, rfl, rfl, (toldBlocks_of_not_tells htell).symm⟩

end Ezos.Erofs
