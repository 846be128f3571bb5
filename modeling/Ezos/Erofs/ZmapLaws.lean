import Ezos.Erofs.Extents
import Ezos.Erofs.Zmap

/-!
# The map of a position

An index loads an inode's extents if it tells, of each logical cluster, the extent that begins in it or the way back to the one
that lasts into it. From such an index every position is mapped to its extent; what is told of the length of its physical
cluster stands in the index behind that of its head.
-/

namespace Ezos.Erofs

open Lib.Memory

set_option autoImplicit false

def Head.ltype (h : Head) : Nat := if h.plain then ltypePlain else ltypeHead1

variable {v : Vol} {ino : Inode} {zi : ZInfo} {heads : Heads} {n : Nat}

structure IsHead (r : ZRec) (c : Nat) (h : Head) : Prop where
  lcn : r.lcn = c
  clusterofs : r.clusterofs = h.ofs
  pblk : r.pblk = h.pblk

def toldBlocks (zi : ZInfo) (heads : Heads) (c before : Nat) : Nat :=
  if zi.bigPcluster then ((heads (c - 1)).map Head.blocks).getD before else before

structure Loads (v : Vol) (ino : Inode) (zi : ZInfo) (heads : Heads) (n : Nat) : Prop where
  head : ∀ m c h, c < n → heads c = some h → ∃ r, erZLoadCluster v ino zi m c = some r ∧ IsHead r c h ∧ r.type = h.ltype ∧
    r.compressedblks = m.compressedblks
  nonhead : ∀ m c, c < n → heads c = none → ∃ r, erZLoadCluster v ino zi m c = some r ∧ r.lcn = c ∧ r.type = ltypeNonhead ∧
    r.delta = c - lastHead heads c ∧ r.compressedblks = toldBlocks zi heads c m.compressedblks

structure Clusters (v : Vol) (zi : ZInfo) (heads : Heads) : Prop where
  bits : v.blkszbits ≤ zi.lclusterbits
  one : ∀ c h, heads c = some h → h.plain = true ∨ zi.bigPcluster = false ∨ (heads (c + 1)).isSome →
    h.blocks * v.blksz = zi.lclustersz
  pos : ∀ c h, heads c = some h → 0 < h.blocks

theorem ltype_cases (h : Head) : h.ltype = ltypePlain ∨ h.ltype = ltypeHead1 := by
  unfold Head.ltype
  cases h.plain with
  | true => exact Or.inl rfl
  | false => exact Or.inr rfl

theorem ltype_ne_nonhead (h : Head) : h.ltype ≠ ltypeNonhead := by
  rcases ltype_cases h with hl | hl <;> rw [hl] <;> decide

theorem Loads.lookback_head (hl : Loads v ino zi heads n) {m : ZRec} {dist c : Nat} {h : Head} (hdist : dist ≤ m.lcn)
    (hc : m.lcn - dist = c) (hlt : c < n) (hh : heads c = some h) (fuel : Nat) :
    ∃ r, erZLookback v ino zi (fuel + 1) m dist = some r ∧ IsHead r c h ∧ r.headtype = h.ltype ∧
      r.compressedblks = m.compressedblks := by
  obtain ⟨r, hload, hhead, htype, hblks⟩ := hl.head m c h hlt hh
  refine ⟨{ r with headtype := r.type }, ?_, ⟨hhead.lcn, hhead.clusterofs, hhead.pblk⟩, htype, hblks⟩
  rw [erZLookback, if_neg (by omega), hc, hload]
  dsimp only
  rw [if_neg (htype ▸ ltype_ne_nonhead h), if_pos (htype ▸ ltype_cases h)]

theorem Loads.lookback_nonhead (hl : Loads v ino zi heads n) (h0 : (heads 0).isSome) {m : ZRec} {dist c : Nat}
    (hdist : dist ≤ m.lcn) (hc : m.lcn - dist = c) (hlt : c < n) (hnone : heads c = none) (fuel : Nat) :
    ∃ r h, erZLookback v ino zi (fuel + 2) m dist = some r ∧ heads (lastHead heads c) = some h ∧
      IsHead r (lastHead heads c) h ∧ r.headtype = h.ltype ∧ r.compressedblks = toldBlocks zi heads c m.compressedblks := by
  obtain ⟨r, hload, hlcn, htype, hdelta, hblks⟩ := hl.nonhead m c hlt hnone
  obtain ⟨h, hh⟩ := lastHead_some h0 c
  have hle := lastHead_le heads c
  have hne : lastHead heads c ≠ c := fun heq => by
    rw [heq, hnone] at hh
    cases hh
  obtain ⟨r', hback, hhead, hheadtype, hblks'⟩ :=
    hl.lookback_head (m := r) (by omega : r.delta ≤ r.lcn) (by omega : r.lcn - r.delta = lastHead heads c) (by omega) hh fuel
  refine ⟨r', h, ?_, hh, hhead, hheadtype, hblks'.trans hblks⟩
  rw [erZLookback, if_neg (by omega), hc, hload]
  dsimp only
  rw [if_pos htype, if_neg (by omega)]
  exact hback

theorem told_eq {c : Nat} {h : Head} (hnone : heads c = none) (h0 : (heads 0).isSome)
    (hh : heads (lastHead heads c) = some h) :
    toldBlocks zi heads c 0 = 0 ∨ zi.bigPcluster = true ∧ toldBlocks zi heads c 0 = h.blocks ∧ lastHead heads c + 1 = c := by
  unfold toldBlocks
  by_cases hbig : zi.bigPcluster = true
  · rw [if_pos hbig]
    cases hprev : heads (c - 1) with
    | none => exact Or.inl rfl
    | some h' =>
      have hpos : c ≠ 0 := fun hz => by
        rw [← hz, hnone] at h0
        cases h0
      obtain ⟨k, rfl⟩ : ∃ k, c = k + 1 := ⟨c - 1, by omega⟩
      rw [Nat.add_sub_cancel] at hprev
      rw [lastHead_succ_of_none hnone, lastHead_of_some hprev] at hh ⊢
      rw [hprev] at hh
      obtain rfl := Option.some.inj hh
      exact Or.inr ⟨hbig, rfl, rfl⟩
  · rw [if_neg hbig]
    exact Or.inl rfl

theorem Loads.head_eq (hl : Loads v ino zi heads n) {size : Nat} (hcut : Cut heads zi.lclustersz size) {la : Nat}
    (hla : la < size) (hlt : la / zi.lclustersz < n) :
    ∃ r h, erZHead v ino zi la = some (r, nextTurn heads zi.lclustersz la) ∧
      heads (owner heads zi.lclustersz la) = some h ∧ IsHead r (owner heads zi.lclustersz la) h ∧ r.headtype = h.ltype ∧
      (r.compressedblks = 0 ∨
        zi.bigPcluster = true ∧ r.compressedblks = h.blocks ∧ owner heads zi.lclustersz la + 1 < n) := by
  have h0 := hcut.isSome_zero hla
  have hzero : ZRec.empty.compressedblks = 0 := rfl
  unfold erZHead owner nextTurn
  cases hc : heads (la / zi.lclustersz) with
  | none =>
    have hpos : la / zi.lclustersz ≠ 0 := fun hz => by
      rw [hz] at hc
      rw [hc] at h0
      cases h0
    obtain ⟨k, hk⟩ := Nat.exists_eq_succ_of_ne_zero hpos
    have hlast : lastHead heads (la / zi.lclustersz) = lastHead heads (la / zi.lclustersz - 1) := by
      rw [hk] at hc ⊢
      exact lastHead_succ_of_none hc
    have hle := lastHead_le heads (la / zi.lclustersz - 1)
    obtain ⟨r, hload, hlcn, htype, hdelta, hblks⟩ := hl.nonhead ZRec.empty _ hlt hc
    obtain ⟨h, hh⟩ := lastHead_some h0 (la / zi.lclustersz)
    obtain ⟨r', hback, hhead, hheadtype, hblks'⟩ :=
      hl.lookback_head (m := r) (by omega : r.delta ≤ r.lcn)
        (by omega : r.lcn - r.delta = lastHead heads (la / zi.lclustersz)) (by omega) hh 64
    rw [begun_of_none hc, if_neg Bool.false_ne_true, if_neg Bool.false_ne_true, hload]
    dsimp only
    have hne : ¬ (r.type = ltypePlain ∨ r.type = ltypeHead1) := by rw [htype]; decide
    rw [if_neg hne, if_pos htype, hback, ← hlast]
    refine ⟨r', h, by rw [hlcn]; rfl, hh, hhead, hheadtype, ?_⟩
    rw [hblks', hblks, hzero]
    rcases told_eq hc h0 hh with hz | ⟨hbig, hb, hnext⟩
    · exact Or.inl hz
    · exact Or.inr ⟨hbig, hb, by omega⟩
  | some h =>
    obtain ⟨r, hload, hhead, htype, hblks⟩ := hl.head ZRec.empty _ h hlt hc
    rw [hload, begun_of_some hc]
    dsimp only
    rw [if_pos (htype ▸ ltype_cases h)]
    by_cases hle : h.ofs ≤ la % zi.lclustersz
    · rw [decide_eq_true hle, if_pos (hhead.clusterofs.symm ▸ hle), if_pos rfl, if_pos rfl]
      exact ⟨{ r with headtype := r.type }, h, by rw [hhead.lcn], hc, ⟨hhead.lcn, hhead.clusterofs, hhead.pblk⟩, htype,
        Or.inl (hblks.trans hzero)⟩
    · have hpos : la / zi.lclustersz ≠ 0 := fun hz => by
        obtain ⟨h', hh, hofs⟩ := hcut.first (by omega)
        rw [hz, hh] at hc
        obtain rfl := Option.some.inj hc
        omega
      obtain ⟨k, hk⟩ := Nat.exists_eq_succ_of_ne_zero hpos
      have hor : headLa zi r = la / zi.lclustersz * zi.lclustersz + h.ofs := by
        rw [headLa, hhead.lcn, hhead.clusterofs, Nat.mul_comm]
        exact (Nat.two_pow_add_eq_or_of_lt (hcut.ofs_lt _ _ hc) _).symm
      rw [decide_eq_false hle, if_neg (hhead.clusterofs.symm ▸ hle), if_neg (by rw [hhead.lcn]; exact hpos), if_neg Bool.false_ne_true,
        if_neg Bool.false_ne_true, Option.map_some, Option.getD_some, hor]
      have hstep : ({ r with delta := 1 } : ZRec).lcn - 1 = la / zi.lclustersz - 1 := by
        rw [← hhead.lcn]
      have hone : 1 ≤ ({ r with delta := 1 } : ZRec).lcn := by
        dsimp only
        rw [hhead.lcn]
        omega
      cases hprev : heads (la / zi.lclustersz - 1) with
      | some h' =>
        obtain ⟨r', hback, hhead', hheadtype, hblks'⟩ :=
          hl.lookback_head hone hstep (by omega) hprev 64
        rw [hback, lastHead_of_some hprev]
        exact ⟨r', h', rfl, hprev, hhead', hheadtype, Or.inl (hblks'.trans (hblks.trans hzero))⟩
      | none =>
        obtain ⟨r', h', hback, hh', hhead', hheadtype, hblks'⟩ :=
          hl.lookback_nonhead h0 hone hstep (by omega) hprev 63
        have hle' := lastHead_le heads (la / zi.lclustersz - 1)
        rw [hback]
        refine ⟨r', h', rfl, hh', hhead', hheadtype, ?_⟩
        rw [hblks']
        dsimp only
        rw [hblks, hzero]
        rcases told_eq hprev h0 hh' with hz | ⟨hbig, hb, hnext⟩
        · exact Or.inl hz
        · exact Or.inr ⟨hbig, hb, by omega⟩

def lengthKey (r : ZRec) : Nat × Nat × Nat := (r.type, if r.type = ltypeNonhead then r.delta else 0, r.compressedblks)

theorem lengthKey_congr {r r' : ZRec} (htype : r.type = r'.type) (hdelta : r.type = ltypeNonhead → r.delta = r'.delta)
    (hblks : r.compressedblks = r'.compressedblks) : lengthKey r = lengthKey r' := by
  unfold lengthKey
  rw [htype, hblks]
  by_cases h : r'.type = ltypeNonhead
  · rw [if_pos h, if_pos h, hdelta (htype.trans h)]
  · rw [if_neg h, if_neg h]

theorem erZLoadLegacy_congr {m m' : ZRec} (h : m.compressedblks = m'.compressedblks) (c : Nat) :
    (erZLoadLegacy v ino zi m c).map lengthKey = (erZLoadLegacy v ino zi m' c).map lengthKey := by
  unfold erZLoadLegacy
  dsimp only
  split
  · split
    · split
      · rfl
      · rfl
    · exact congrArg some (lengthKey_congr rfl (fun _ => rfl) h)
  · rename_i htype
    split
    · exact congrArg some (lengthKey_congr rfl (fun hc => absurd hc htype) h)
    · rfl

theorem unpackEntry_congr {m m' : ZRec} (h : m.compressedblks = m'.compressedblks) (vcnt i : Nat) (entry : Nat → Nat × Nat)
    (base : U32) : (unpackEntry zi m vcnt i entry base).map lengthKey = (unpackEntry zi m' vcnt i entry base).map lengthKey := by
  unfold unpackEntry
  dsimp only
  split
  · split
    · split
      · rfl
      · exact congrArg some (lengthKey_congr rfl (fun _ => rfl) rfl)
    · split
      · exact congrArg some (lengthKey_congr rfl (fun _ => rfl) h)
      · exact congrArg some (lengthKey_congr rfl (fun _ => rfl) h)
  · rename_i htype
    cases (if ¬ zi.bigPcluster = true then some (nblkFrom entry vcnt i 1) else nblkBigFrom entry vcnt i 0) with
    | none => rfl
    | some nblk => exact congrArg some (lengthKey_congr rfl (fun hc => absurd hc htype) h)

theorem erZLoadCluster_congr {m m' : ZRec} (h : m.compressedblks = m'.compressedblks) (c : Nat) :
    (erZLoadCluster v ino zi m c).map lengthKey = (erZLoadCluster v ino zi m' c).map lengthKey := by
  unfold erZLoadCluster
  split
  · exact erZLoadLegacy_congr h c
  · split
    · unfold erZLoadCompacted
      split
      · rfl
      · split
        · rfl
        · unfold erZUnpackCompacted
          split
          · rfl
          · apply unpackEntry_congr
            exact h
    · rfl

theorem erZComplen_congr {m m' : ZRec} (hlcn : m.lcn = m'.lcn) (htype : m.headtype = m'.headtype)
    (hblks : m.compressedblks = m'.compressedblks) : erZComplen v ino zi m = erZComplen v ino zi m' := by
  have hload := @erZLoadCluster_congr v ino zi m m' hblks (m.lcn + 1)
  unfold erZComplen
  rw [← hlcn, ← htype, ← hblks]
  cases h1 : erZLoadCluster v ino zi m (m.lcn + 1) with
  | none =>
    rw [h1, Option.map_none, eq_comm, Option.map_eq_none_iff] at hload
    rw [hload]
  | some r =>
    rw [h1, Option.map_some, eq_comm, Option.map_eq_some_iff] at hload
    obtain ⟨r', h2, hkey⟩ := hload
    obtain ⟨hty, hrest⟩ := Prod.mk.inj hkey
    obtain ⟨hdelta, hcb⟩ := Prod.mk.inj hrest
    rw [h2]
    dsimp only
    rw [hty, hcb]
    by_cases hnon : r.type = ltypeNonhead
    · rw [if_pos hnon, if_pos (hty.trans hnon)] at hdelta
      rw [hdelta]
    · rw [if_neg hnon, if_neg hnon]

def plenBehind (v : Vol) (ino : Inode) (zi : ZInfo) (c : Nat) : Option Nat :=
  erZComplen v ino zi { ZRec.empty with lcn := c, headtype := ltypeHead1 }

def plenAt (v : Vol) (ino : Inode) (zi : ZInfo) (n c : Nat) (h : Head) : Option Nat :=
  if h.plain = true ∨ zi.bigPcluster = false ∨ c + 1 < n then some (h.blocks * v.blksz) else plenBehind v ino zi c

theorem Clusters.lclustersz_eq (hcl : Clusters v zi heads) : 2 ^ (zi.lclusterbits - v.blkszbits) * v.blksz = zi.lclustersz := by
  have hsplit : zi.lclusterbits - v.blkszbits + v.blkszbits = zi.lclusterbits := by
    have hbits := hcl.bits
    omega
  rw [Vol.blksz, ZInfo.lclustersz, ← Nat.pow_add, hsplit]

theorem Loads.complen_eq (hl : Loads v ino zi heads n) (hcl : Clusters v zi heads) {r : ZRec} {c : Nat} {h : Head}
    (hh : heads c = some h) (hhead : IsHead r c h) (htype : r.headtype = h.ltype)
    (hblks : r.compressedblks = 0 ∨ zi.bigPcluster = true ∧ r.compressedblks = h.blocks ∧ c + 1 < n) :
    erZComplen v ino zi r = plenAt v ino zi n c h := by
  unfold plenAt
  by_cases hone : h.plain = true ∨ zi.bigPcluster = false
  · -- One logical cluster.
    have hcond : r.headtype = ltypePlain ∨ ¬ zi.bigPcluster = true := by
      rcases hone with hp | hb
      · left
        rw [htype, Head.ltype, if_pos hp]
      · right
        rw [hb]
        exact Bool.false_ne_true
    rw [if_pos (hone.elim Or.inl fun hb => Or.inr (Or.inl hb)), hcl.one c h hh (hone.elim Or.inl fun hb => Or.inr (Or.inl hb)),
      erZComplen, if_pos hcond]
  · obtain ⟨hplain, hbig⟩ := not_or.mp hone
    have hbig' : zi.bigPcluster = true := Bool.not_eq_false _ ▸ hbig
    have hhead1 : r.headtype = ltypeHead1 := by rw [htype, Head.ltype, if_neg hplain]
    have hcond : ¬ (r.headtype = ltypePlain ∨ ¬ zi.bigPcluster = true) := by
      rw [hhead1, hbig']
      decide
    by_cases hlt : c + 1 < n
    · rw [if_pos (Or.inr (Or.inr hlt)), erZComplen, if_neg hcond]
      by_cases hzero : r.compressedblks = 0
      · -- The next index tells.
        rw [if_neg (not_not.mpr hzero), hhead.lcn]
        cases hnext : heads (c + 1) with
        | some h' =>
          obtain ⟨r', hload, _, htype', _⟩ := hl.head r (c + 1) h' hlt hnext
          rw [hload]
          dsimp only
          rw [if_pos (htype' ▸ ltype_cases h'), hcl.lclustersz_eq,
            hcl.one c h hh (Or.inr (Or.inr (by rw [hnext]; rfl)))]
        | none =>
          obtain ⟨r', hload, _, htype', hdelta, hblks'⟩ := hl.nonhead r (c + 1) hlt hnext
          have hone : r'.delta = 1 := by
            rw [hdelta, lastHead_succ_of_none hnext, lastHead_of_some hh]
            omega
          have htold : r'.compressedblks = h.blocks := by
            rw [hblks', toldBlocks, if_pos hbig', Nat.add_sub_cancel, hh, Option.map_some,
              Option.getD_some]
          have hpos := hcl.pos c h hh
          have hne : ¬ (r'.type = ltypePlain ∨ r'.type = ltypeHead1) := by
            rw [htype']
            decide
          rw [hload]
          dsimp only
          rw [if_neg hne, if_pos htype', if_neg (by omega), htold]
      · rw [if_pos hzero, (hblks.resolve_left hzero).2.1]
    · have hzero : r.compressedblks = 0 := hblks.resolve_right fun hb => hlt hb.2.2
      rw [if_neg (not_or.mpr ⟨hplain, not_or.mpr ⟨hbig, hlt⟩⟩), plenBehind]
      exact erZComplen_congr hhead.lcn hhead1 hzero

theorem sub64_of_le {a b : Nat} (h : b ≤ a) (ha : a < 2 ^ 64) : sub64 a b = a - b := by
  unfold sub64
  omega

def mapAt (v : Vol) (zi : ZInfo) (heads : Heads) (la : Nat) (h : Head) (plen : Nat) : ZMap where
  la := headStart heads zi.lclustersz (owner heads zi.lclustersz la)
  llen := nextTurn heads zi.lclustersz la - headStart heads zi.lclustersz (owner heads zi.lclustersz la)
  pa := h.pblk.toNat * v.blksz
  plen := plen
  algfmt := if h.plain then comprShifted else zi.alg0

theorem Loads.do_map_eq (hl : Loads v ino zi heads n) (hcl : Clusters v zi heads) {size : Nat}
    (hcut : Cut heads zi.lclustersz size) (hsmall : size + zi.lclustersz < 2 ^ 64) {la : Nat} (hla : la < size)
    (hlt : la / zi.lclustersz < n) :
    ∃ h, heads (owner heads zi.lclustersz la) = some h ∧
      erZDoMap v ino zi la = (plenAt v ino zi n (owner heads zi.lclustersz la) h).map (mapAt v zi heads la h) := by
  obtain ⟨r, h, hhead, hh, hr, htype, hblks⟩ := hl.head_eq hcut hla hlt
  refine ⟨h, hh, ?_⟩
  have hpos : 0 < zi.lclustersz := Nat.two_pow_pos _
  have hor : headLa zi r = headStart heads zi.lclustersz (owner heads zi.lclustersz la) := by
    rw [headLa, hr.lcn, hr.clusterofs, headStart, hh, Option.map_some, Option.getD_some, Nat.mul_comm]
    exact (Nat.two_pow_add_eq_or_of_lt (hcut.ofs_lt _ _ hh) _).symm
  obtain ⟨_, _, _, hstart⟩ := hcut.owner_spec hla
  have hafter : la < nextTurn heads zi.lclustersz la := lt_nextTurn hpos la
  have hnear := hcut.nextTurn_le la
  have hdiv : la / zi.lclustersz * zi.lclustersz ≤ la := Nat.div_mul_le_self _ _
  rw [Nat.succ_mul] at hnear
  have hne1 : h.ltype ≠ ltypeHead2 := by rcases ltype_cases h with hl | hl <;> rw [hl] <;> decide
  have halg : (if r.headtype = ltypePlain then comprShifted else if r.headtype = ltypeHead2 then zi.alg1 else zi.alg0) =
      if h.plain then comprShifted else zi.alg0 := by
    rw [htype, if_neg hne1]
    unfold Head.ltype
    cases h.plain with
    | true => rfl
    | false => rfl
  unfold erZDoMap
  rw [hhead]
  dsimp only
  rw [hl.complen_eq hcl hh hr htype hblks]
  cases plenAt v ino zi n (owner heads zi.lclustersz la) h with
  | none => rfl
  | some plen =>
    dsimp only
    rw [Option.map_some, mapAt, hor, halg, hr.pblk, sub64_of_le (by omega) (by omega)]

end Ezos.Erofs

/-!
# The two formats of an index

The legacy format has 8 bytes for each logical cluster. The compacted one packs the indexes of 2 or of 16 logical clusters, with
the block of the first extent of the pack behind them; those of the others follow from the blocks before them.
-/

namespace Ezos.Erofs

open Lib.Memory

variable {v : Vol} {ino : Inode} {zi : ZInfo} {heads : Heads} {n : Nat}

def wayBack (zi : ZInfo) (heads : Heads) (c : Nat) : Nat :=
  if zi.bigPcluster then ((heads (c - 1)).map fun h => d0Cblkcnt + h.blocks).getD (c - lastHead heads c)
  else c - lastHead heads c

structure Tellable (heads : Heads) (n : Nat) : Prop where
  blocks : ∀ c h, heads c = some h → h.blocks < d0Cblkcnt
  near : ∀ c < n, c - lastHead heads c < d0Cblkcnt

def tells (zi : ZInfo) (heads : Heads) (c : Nat) : Bool := zi.bigPcluster && (heads (c - 1)).isSome

theorem wayBack_of_not_tells {c : Nat} (h : tells zi heads c = false) : wayBack zi heads c = c - lastHead heads c := by
  unfold wayBack
  cases hbig : zi.bigPcluster with
  | false => rfl
  | true =>
    rw [tells, hbig, Bool.true_and] at h
    rw [if_pos rfl, Option.isNone_iff_eq_none.mp (Option.isSome_eq_false_iff.mp h)]
    rfl

theorem toldBlocks_of_not_tells {c m : Nat} (h : tells zi heads c = false) : toldBlocks zi heads c m = m := by
  unfold toldBlocks
  cases hbig : zi.bigPcluster with
  | false => rfl
  | true =>
    rw [tells, hbig, Bool.true_and] at h
    rw [if_pos rfl, Option.isNone_iff_eq_none.mp (Option.isSome_eq_false_iff.mp h)]
    rfl

theorem of_tells {c : Nat} (h : tells zi heads c = true) (hnone : heads c = none) :
    ∃ h', zi.bigPcluster = true ∧ heads (c - 1) = some h' ∧ c - lastHead heads c = 1 ∧ wayBack zi heads c = d0Cblkcnt + h'.blocks ∧
      ∀ m, toldBlocks zi heads c m = h'.blocks := by
  obtain ⟨hbig, hsome⟩ := Bool.and_eq_true_iff.mp h
  obtain ⟨h', hh⟩ := Option.isSome_iff_exists.mp hsome
  have hpos : c ≠ 0 := fun hz => by
    rw [hz] at hnone hh
    rw [hnone] at hh
    cases hh
  obtain ⟨k, rfl⟩ := Nat.exists_eq_succ_of_ne_zero hpos
  refine ⟨h', hbig, hh, ?_, ?_, fun m => ?_⟩
  · rw [lastHead_succ_of_none hnone]
    rw [Nat.succ_sub_one] at hh
    rw [lastHead_of_some hh]
    omega
  · rw [wayBack, if_pos hbig, hh]
    rfl
  · rw [toldBlocks, if_pos hbig, hh]
    rfl

structure LegacyIndex (v : Vol) (ino : Inode) (zi : ZInfo) (heads : Heads) (n : Nat) : Prop where
  layout : ino.datalayout = compressedFull
  head : ∀ c h, c < n → heads c = some h →
    (read16 v.byte (ino.zHeader + 16 + c * 8)).toNat % 4 = h.ltype ∧
      (read16 v.byte (ino.zHeader + 16 + c * 8 + 2)).toNat = h.ofs ∧
      read32 v.byte (ino.zHeader + 16 + c * 8 + 4) = h.pblk
  nonhead : ∀ c, c < n → heads c = none →
    (read16 v.byte (ino.zHeader + 16 + c * 8)).toNat % 4 = ltypeNonhead ∧
      (read16 v.byte (ino.zHeader + 16 + c * 8 + 4)).toNat = wayBack zi heads c

theorem LegacyIndex.loads (h : LegacyIndex v ino zi heads n) (ht : Tellable heads n) : Loads v ino zi heads n := by
  have h0 : ∀ c, read16 (legacyAt v ino c) 0 = read16 v.byte (ino.zHeader + 16 + c * 8) := fun c =>
    v.read16_read _ _ (by decide)
  have h2 : ∀ c, read16 (legacyAt v ino c) 2 = read16 v.byte (ino.zHeader + 16 + c * 8 + 2) := fun c =>
    v.read16_read _ _ (by decide)
  have h4 : ∀ c, read16 (legacyAt v ino c) 4 = read16 v.byte (ino.zHeader + 16 + c * 8 + 4) := fun c =>
    v.read16_read _ _ (by decide)
  have h4w : ∀ c, read32 (legacyAt v ino c) 4 = read32 v.byte (ino.zHeader + 16 + c * 8 + 4) := fun c =>
    v.read32_read _ _ (by decide)
  constructor
  · intro m c hd hlt hh
    obtain ⟨htype, hofs, hpblk⟩ := h.head c hd hlt hh
    refine ⟨{ m with lcn := c, type := hd.ltype, clusterofs := hd.ofs, pblk := hd.pblk }, ?_, ⟨rfl, rfl, rfl⟩, rfl, rfl⟩
    rw [erZLoadCluster, if_pos h.layout, erZLoadLegacy]
    dsimp only
    rw [h0, htype, if_neg (ltype_ne_nonhead hd), if_pos (ltype_cases hd), h2, hofs, h4w, hpblk]
  · intro m c hlt hnone
    obtain ⟨htype, hway⟩ := h.nonhead c hlt hnone
    cases htell : tells zi heads c with
    | true =>
      obtain ⟨h', hbig, hh, hone, hback, htold⟩ := of_tells htell hnone
      have hblocks := ht.blocks _ h' hh
      have hbit : (d0Cblkcnt + h'.blocks) / d0Cblkcnt % 2 = 1 := by
        unfold d0Cblkcnt at *
        omega
      have hmod : (d0Cblkcnt + h'.blocks) % d0Cblkcnt = h'.blocks := by
        rw [Nat.add_mod_left, Nat.mod_eq_of_lt hblocks]
      refine ⟨{ m with lcn := c, type := ltypeNonhead, clusterofs := nonheadOfs zi, compressedblks := h'.blocks, delta := 1 },
        ?_, rfl, rfl, hone.symm, (htold _).symm⟩
      rw [erZLoadCluster, if_pos h.layout, erZLoadLegacy]
      dsimp only
      rw [h0, htype, if_pos rfl, h4, hway, hback, if_pos hbit, if_neg (not_not.mpr hbig), hmod]
    | false =>
      have hback := wayBack_of_not_tells htell
      have hnear := ht.near c hlt
      have hbit : ¬ (c - lastHead heads c) / d0Cblkcnt % 2 = 1 := by
        rw [Nat.div_eq_of_lt hnear]
        decide
      refine ⟨{ m with lcn := c, type := ltypeNonhead, clusterofs := nonheadOfs zi, delta := c - lastHead heads c }, ?_, rfl,
        rfl, rfl, (toldBlocks_of_not_tells htell).symm⟩
      rw [erZLoadCluster, if_pos h.layout, erZLoadLegacy]
      dsimp only
      rw [h0, htype, if_pos rfl, h4, hway, hback, if_neg hbit]

end Ezos.Erofs
