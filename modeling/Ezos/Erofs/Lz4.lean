import Ezos.Lib.Lz4
import Ezos.Erofs.ZFiles

/-!
# What `er_lz4_decompress` accepts

The decompressor knows the end of a block by the length of the source. Given enough room it accepts just the LZ4 blocks.
-/

namespace Ezos.Erofs

open Lib.Memory Lib.Segments Lib.Lz4

set_option autoImplicit false

variable {src : Mem} {srclen dstcap fuel sp l v next : Nat} {out block d : List Byte}

def Stands (src : Mem) (sp : Nat) (l : List Byte) : Prop := bytesAt src sp l.length = l

theorem bytesAt_add (src : Mem) (sp a b : Nat) : bytesAt src sp (a + b) = bytesAt src sp a ++ bytesAt src (sp + a) b := by
  unfold bytesAt
  rw [List.range_add, List.map_append, List.map_map]
  congr 1
  apply List.map_congr_left
  intro i _
  change src (sp + (a + i)) = src (sp + a + i)
  rw [Nat.add_assoc]

theorem stands_append {l l' : List Byte} : Stands src sp (l ++ l') ↔ Stands src sp l ∧ Stands src (sp + l.length) l' := by
  unfold Stands
  rw [List.length_append, bytesAt_add]
  constructor
  · intro h
    exact List.append_inj h length_bytesAt
  · rintro ⟨h, h'⟩
    rw [h, h']

theorem stands_cons {b : Byte} {l : List Byte} : Stands src sp (b :: l) ↔ src sp = b ∧ Stands src (sp + 1) l := by
  unfold Stands
  rw [List.length_cons, bytesAt_succ, List.cons.injEq]

theorem stands_nil : Stands src sp [] := rfl

theorem stands_bytesAt (n : Nat) : Stands src sp (bytesAt src sp n) := by
  rw [Stands, length_bytesAt]

theorem bytesAt_of_stands {l : List Byte} (h : Stands src sp l) (hle : sp + l.length ≤ srclen) :
    bytesAt src sp (srclen - sp) = l ++ bytesAt src (sp + l.length) (srclen - (sp + l.length)) := by
  have hsum : srclen - sp = l.length + (srclen - (sp + l.length)) := by omega
  rw [hsum, bytesAt_add, h]

theorem lz4Length_iff (hfuel : srclen ≤ sp + fuel) :
    lz4Length src srclen fuel sp l = some (v, next) ↔
      l ≤ v ∧ Stands src sp (summed (v - l)) ∧ next = sp + (summed (v - l)).length ∧ next ≤ srclen := by
  have hpos := length_summed_pos (v - l)
  induction fuel generalizing sp l with
  | zero =>
    refine iff_of_false (fun h => nomatch h) ?_
    rintro ⟨-, -, hnext, hle⟩
    omega
  | succ fuel ih =>
    unfold lz4Length
    by_cases hend : srclen ≤ sp
    · rw [if_pos hend]
      refine iff_of_false (fun h => nomatch h) ?_
      rintro ⟨-, -, hnext, hle⟩
      omega
    rw [if_neg hend]
    by_cases hmore : src sp = 255
    · rw [if_pos hmore]
      refine (ih (by omega) (length_summed_pos _)).trans ?_
      by_cases hbig : l + 255 ≤ v
      · have hsplit : summed (v - l) = 255 :: summed (v - (l + 255)) := by
          rw [show v - l = v - (l + 255) + 255 by omega, summed_add]
        rw [hsplit, stands_cons, List.length_cons]
        constructor
        · rintro ⟨-, hst, hnext, hle⟩
          exact ⟨by omega, ⟨hmore, hst⟩, by omega, hle⟩
        · rintro ⟨-, ⟨-, hst⟩, hnext, hle⟩
          exact ⟨hbig, hst, by omega, hle⟩
      · refine iff_of_false (fun h => hbig h.1) ?_
        rintro ⟨hlv, hst, -⟩
        rw [summed_of_lt (by omega), stands_cons, hmore] at hst
        have hval := congrArg BitVec.toNat hst.1
        rw [BitVec.toNat_ofNat] at hval
        change 255 = _ at hval
        omega
    · rw [if_neg hmore]
      have hne : (src sp).toNat ≠ 255 := fun he => hmore (BitVec.eq_of_toNat_eq he)
      have hbyte := (src sp).isLt
      constructor
      · intro h
        obtain ⟨rfl, rfl⟩ := Prod.mk.inj (Option.some.inj h)
        rw [Nat.add_sub_cancel_left, summed_of_lt (by omega), stands_cons]
        exact ⟨by omega, ⟨(BitVec.ofNat_toNat 8 _).trans (BitVec.setWidth_eq _) |>.symm, stands_nil⟩, rfl, by omega⟩
      · rintro ⟨hlv, hst, hnext, -⟩
        by_cases hbig : l + 255 ≤ v
        · rw [show v - l = v - (l + 255) + 255 by omega, summed_add, stands_cons] at hst
          exact absurd hst.1 hmore
        · rw [summed_of_lt (by omega), stands_cons] at hst
          rw [summed_of_lt (by omega)] at hnext
          have hval := congrArg BitVec.toNat hst.1
          rw [BitVec.toNat_ofNat] at hval
          rw [hnext, List.length_singleton, show l + (src sp).toNat = v by omega]

/-- A length is read as it was written, wherever the source does not end before it does. -/
theorem lz4Field_iff (hl : l < 16) (hsp : sp ≤ srclen) :
    lz4Field src srclen sp l = some (v, next) ↔
      nibble v = l ∧ Stands src sp (prolong v) ∧ next = sp + (prolong v).length ∧ next ≤ srclen := by
  unfold lz4Field
  by_cases hfull : l = 15
  · rw [if_pos hfull, lz4Length_iff (Nat.le_add_left _ _), hfull]
    have hnib : nibble v = 15 ↔ 15 ≤ v := by
      unfold nibble
      omega
    rw [hnib]
    refine and_congr_right fun hv => ?_
    rw [prolong_of_le hv]
  · rw [if_neg hfull]
    constructor
    · intro h
      obtain ⟨rfl, rfl⟩ := Prod.mk.inj (Option.some.inj h)
      rw [prolong_of_lt (by omega)]
      exact ⟨Nat.min_eq_left (by omega), stands_nil, rfl, hsp⟩
    · rintro ⟨hnib, -, hnext, -⟩
      have hv : v = l := by
        unfold nibble at hnib
        omega
      rw [prolong_of_lt (by omega)] at hnext
      rw [hnext, hv]
      rfl

theorem copyBack_eq (off n : Nat) (hpos : 0 < off) {out : List Byte} (hle : off ≤ out.length) :
    copyBack off n out = spread off n out := by
  induction n generalizing out with
  | zero => exact (List.append_nil out).symm
  | succ n ih =>
    rw [copyBack, ih (by rw [List.length_append]; omega)]
    exact spread_succ hpos hle

theorem stands_offset {off : Nat} (hoff : off < 65536) : Stands src sp (offset off) ↔ (read16 src sp).toNat = off := by
  have hlo := (src sp).isLt
  have hhi := (src (sp + 1)).isLt
  have hval : (read16 src sp).toNat = (src (sp + 1)).toNat * 256 + (src sp).toNat := by
    rw [read16, BitVec.toNat_append, Nat.shiftLeft_eq, Nat.mul_comm, ← Nat.two_pow_add_eq_or_of_lt hlo, Nat.mul_comm]
  rw [hval, offset, stands_cons, stands_cons, and_iff_left stands_nil]
  constructor
  · rintro ⟨h, h'⟩
    rw [h, h']
    exact offset_value hoff
  · intro h
    refine ⟨BitVec.eq_of_toNat_eq ?_, BitVec.eq_of_toNat_eq ?_⟩
    · rw [BitVec.toNat_ofNat]
      omega
    · rw [BitVec.toNat_ofNat]
      omega

/-- The halves of a token. -/
theorem stands_token {hi lo : Nat} (hhi : hi < 16) (hlo : lo < 16) :
    src sp = token hi lo ↔ (src sp).toNat / 16 = hi ∧ (src sp).toNat % 16 = lo := by
  have htoken := toNat_token hhi hlo
  constructor
  · intro h
    rw [h, htoken]
    omega
  · rintro ⟨h, h'⟩
    apply BitVec.eq_of_toNat_eq
    rw [htoken]
    omega

theorem lz4From_of_encodes (h : Encodes out block d) (hst : Stands src sp block) (hend : sp + block.length = srclen)
    (hcap : d.length ≤ dstcap) (hfuel : block.length ≤ fuel) : lz4From src srclen dstcap fuel sp out = some d := by
  have hpos := h.length_pos
  obtain ⟨fuel, rfl⟩ : ∃ k, fuel = k + 1 := ⟨fuel - 1, by omega⟩
  induction h generalizing sp fuel with
  | last out lits hlo =>
    rw [stands_cons, stands_append, stands_token (nibble_lt _) hlo] at hst
    obtain ⟨⟨htok, -⟩, hlen, hlits⟩ := hst
    rw [List.length_cons, List.length_append] at hend
    rw [List.length_append] at hcap
    have hll := (lz4Field_iff (nibble_lt lits.length) (by omega : sp + 1 ≤ srclen)).mpr
      ⟨rfl, hlen, rfl, by omega⟩
    rw [← htok] at hll
    rw [lz4From_last (by omega) hll hcap (by omega), hlits]
  | @seq out block d s hoff hrest ih =>
    have hstart := hrest.length_le
    have hleft := hrest.length_pos
    rw [length_spread, List.length_append] at hstart
    obtain ⟨hseq, hblock⟩ := stands_append.mp hst
    rw [Seq.bytes, stands_cons, stands_append, stands_append, stands_append, stands_token (nibble_lt _) (nibble_lt _),
      stands_offset s.off_lt] at hseq
    obtain ⟨⟨hhi, hlo⟩, hlen, hlits, hread, hmore⟩ := hseq
    have hsize : s.bytes.length = 1 + (prolong s.lits.length).length + s.lits.length + 2 + (prolong (s.len - 4)).length := by
      simp only [Seq.bytes, offset, List.length_cons, List.length_append, List.length_nil]
      omega
    have htwo : (offset s.off).length = 2 := rfl
    rw [List.length_append, hsize] at hend hfuel
    rw [hsize] at hblock
    have hll : lz4Field src srclen (sp + 1) (nibble s.lits.length) =
        some (s.lits.length, sp + 1 + (prolong s.lits.length).length) :=
      (lz4Field_iff (nibble_lt _) (by omega)).mpr ⟨rfl, hlen, rfl, by omega⟩
    have hml : lz4Field src srclen (sp + 1 + (prolong s.lits.length).length + s.lits.length + 2) (nibble (s.len - 4)) =
        some (s.len - 4, sp + 1 + (prolong s.lits.length).length + s.lits.length + 2 + (prolong (s.len - 4)).length) :=
      (lz4Field_iff (nibble_lt _) (by omega)).mpr ⟨rfl, hmore, rfl, by omega⟩
    rw [← hhi] at hll
    rw [← hlo] at hml
    have hpos := s.off_pos
    have hlong := s.len_ge
    rw [lz4From_match (by omega) hll ⟨by omega, by omega⟩ ⟨by omega, by omega⟩ hml (by omega), hread, hlits,
      Nat.sub_add_cancel hlong, copyBack_eq _ _ hpos (by rw [List.length_append]; exact hoff)]
    have hnext : sp + (1 + (prolong s.lits.length).length + s.lits.length + 2 + (prolong (s.len - 4)).length) =
        sp + 1 + (prolong s.lits.length).length + s.lits.length + 2 + (prolong (s.len - 4)).length := by omega
    rw [hnext] at hblock
    obtain ⟨k, rfl⟩ : ∃ k, fuel = k + 1 := ⟨fuel - 1, by omega⟩
    exact ih hblock (by omega) hcap hleft k (by omega)

theorem encodes_of_lz4From (h : lz4From src srclen dstcap fuel sp out = some d) :
    sp < srclen ∧ Encodes out (bytesAt src sp (srclen - sp)) d ∧ d.length ≤ dstcap := by
  induction fuel generalizing sp out with
  | zero => cases h
  | succ fuel ih =>
    unfold lz4From at h
    split at h
    · cases h
    rename_i hsp
    dsimp only at h
    split at h
    · cases h
    rename_i ll lit hll
    have hbyte := (src sp).isLt
    rw [lz4Field_iff (by omega) (by omega)] at hll
    obtain ⟨hhi, hlen, hlit, hle⟩ := hll
    split at h
    · cases h
    rename_i hfits
    obtain ⟨hroom, hinside⟩ := not_or.mp hfits
    have hlits : (bytesAt src lit ll).length = ll := length_bytesAt
    -- Token, prolonged length and literals.
    have hhead : ∀ {lo : Nat}, (src sp).toNat % 16 = lo → Stands src sp
        (token (nibble (bytesAt src lit ll).length) lo :: (prolong (bytesAt src lit ll).length ++ bytesAt src lit ll)) := by
      intro lo hlo
      rw [hlits]
      refine stands_cons.mpr ⟨(stands_token (nibble_lt _) (by omega)).mpr ⟨hhi.symm, hlo⟩, stands_append.mpr ⟨hlen, ?_⟩⟩
      rw [← hlit]
      exact stands_bytesAt ll
    split at h
    · rename_i hend
      obtain rfl := Option.some.inj h
      have hst := hhead rfl
      have hsize : srclen - sp = (token (nibble (bytesAt src lit ll).length) ((src sp).toNat % 16) ::
          (prolong (bytesAt src lit ll).length ++ bytesAt src lit ll)).length := by
        rw [List.length_cons, List.length_append, hlits]
        omega
      refine ⟨by omega, ?_, by rw [List.length_append, hlits]; omega⟩
      rw [hsize, hst]
      exact .last out (bytesAt src lit ll) (Nat.mod_lt _ (by decide))
    rename_i hmid
    split at h
    · cases h
    rename_i htwo
    split at h
    · cases h
    rename_i hoff
    split at h
    · cases h
    rename_i ml nxt hml
    rw [lz4Field_iff (Nat.mod_lt _ (by decide)) (by omega)] at hml
    obtain ⟨hlo, hmore, hnxt, hle'⟩ := hml
    split at h
    · cases h
    rename_i hcopy
    rw [List.length_append, hlits] at hoff hcopy
    obtain ⟨hpos, hback⟩ := not_or.mp hoff
    obtain ⟨-, henc, hcap⟩ := ih h
    have hlt := (read16 src (lit + ll)).isLt
    let s : Seq := ⟨bytesAt src lit ll, (read16 src (lit + ll)).toNat, ml + 4, by omega, hlt, Nat.le_add_left 4 ml⟩
    have hbytes : s.bytes = (token (nibble (bytesAt src lit ll).length) (nibble ml) ::
        (prolong (bytesAt src lit ll).length ++ bytesAt src lit ll)) ++ (offset (read16 src (lit + ll)).toNat ++ prolong ml) := by
      rw [Seq.bytes, List.cons_append, List.append_assoc]
      rfl
    have hplace : sp + (token (nibble (bytesAt src lit ll).length) (nibble ml) ::
        (prolong (bytesAt src lit ll).length ++ bytesAt src lit ll)).length = lit + ll := by
      rw [List.length_cons, List.length_append, hlits]
      omega
    have htwo : (offset (read16 src (lit + ll)).toNat).length = 2 := rfl
    have hst : Stands src sp s.bytes := by
      rw [hbytes, stands_append, stands_append, hplace, stands_offset hlt, htwo]
      exact ⟨hhead hlo.symm, rfl, hmore⟩
    have hsize : sp + s.bytes.length = nxt := by
      rw [hbytes, List.length_append, ← Nat.add_assoc, hplace, List.length_append, htwo]
      omega
    rw [copyBack_eq _ _ (by omega) (by rw [List.length_append, hlits]; omega)] at henc
    rw [bytesAt_of_stands hst (by omega), hsize]
    refine ⟨by omega, .seq s ?_ henc, hcap⟩
    change (read16 src (lit + ll)).toNat ≤ out.length + (bytesAt src lit ll).length
    rw [hlits]
    omega

theorem encodes_of_lz4 (h : erLz4Decompress src srclen dstcap = some d) :
    Encodes [] (bytesAt src 0 srclen) d ∧ d.length ≤ dstcap := (encodes_of_lz4From h).2

theorem lz4_of_encodes (h : Encodes [] (bytesAt src 0 srclen) d) (hcap : d.length ≤ dstcap) :
    erLz4Decompress src srclen dstcap = some d :=
  lz4From_of_encodes h (stands_bytesAt srclen) (by rw [length_bytesAt]; omega) hcap (by rw [length_bytesAt]; omega)

/-- A zero is a token without literals, and then an offset would lead to what is not there. -/
theorem encodes_zero (h : Encodes [] (0 :: block) d) : block = [] := by
  have hzero : ∀ {hi lo : Nat}, hi < 16 → lo < 16 → (0 : Byte) = token hi lo → hi = 0 := by
    intro hi lo hhi hlo he
    have hnat := toNat_token hhi hlo
    rw [← he] at hnat
    change 0 = _ at hnat
    omega
  have hnone : ∀ {l : List Byte}, nibble l.length = 0 → l = [] := by
    intro l hl
    unfold nibble at hl
    exact List.eq_nil_of_length_eq_zero (by omega)
  generalize hb : (0 : Byte) :: block = b at h
  cases h with
  | last _ lits hlo =>
    obtain ⟨htoken, hrest⟩ := List.cons.inj hb
    obtain rfl := hnone (hzero (nibble_lt _) hlo htoken)
    exact hrest
  | seq s hback =>
    rw [Seq.bytes, List.cons_append] at hb
    have hlits := hnone (hzero (nibble_lt _) (nibble_lt _) (List.cons.inj hb).1)
    rw [hlits] at hback
    exact absurd s.off_pos (Nat.not_lt.mpr hback)

/-- Every extent is stored as it is, or as a block that fills its physical cluster. -/
structure Lz4Packed (v : Vol) (ino : Inode) (zi : ZInfo) (heads : Heads) (data : Nat → List Byte) : Prop where
  alg : zi.alg0 = comprLz4
  cluster : ∀ c h, heads c = some h → ∃ plen, plenAt v ino zi (lclusters ino zi) c h = some plen ∧ plen ≠ 0 ∧ plen ≤ erZbuf ∧
    (h.plain = true → (data c).length ≤ plen ∧ ∀ k < (data c).length, clusterMem v h plen k = (data c).getD k 0) ∧
    (h.plain = false → Encodes [] (bytesAt (clusterMem v h plen) 0 plen) (data c) ∧ (data c).length ≤ erZbuf)

theorem Lz4Packed.decodes {v : Vol} {ino : Inode} {zi : ZInfo} {heads : Heads} {data : Nat → List Byte}
    (h : Lz4Packed v ino zi heads data) (hz : ZSound v ino zi heads data) (z : Inflate) :
    Decodes v ino zi heads data (lclusters ino zi) z := by
  refine ⟨fun c hd hh => ?_, hz.covers⟩
  obtain ⟨plen, hplen, hpos, hle, hplain, hpacked⟩ := h.cluster c hd hh
  refine ⟨plen, hplen, hpos, hle, hplain, fun hno z' _ => ?_⟩
  rw [erDecompress, if_pos h.alg]
  exact lz4_of_encodes (hpacked hno).1 (hpacked hno).2

/-- A file of LZ4 blocks is read back exactly when its extents repeat their first bytes in every logical cluster that begins
inside them, whatever was read before. -/
theorem lz4_read_iff {dev : Device} {part : U32} {v : Vol} {path : List Byte} {nid : U32} {zi : ZInfo} {heads : Heads}
    {data : Nat → List Byte} (h : WellFormed dev part) (hv : erofsMount dev part = some v)
    (hpath : Leads v (segs slash path) v.rootNid nid) (hreg : (inodeAt v nid).isReg = true)
    (hz : ZSound v (inodeAt v nid) zi heads data) (hp : Lz4Packed v (inodeAt v nid) zi heads data) (buf : Mem) (max : Nat)
    (z : Inflate) :
    ZReadsBack v path (inodeAt v nid).size (fileByte heads zi.lclustersz data) buf max z ↔
      nid ≠ 0 ∧ (inodeAt v nid).size ≤ sizeMax ∧ Repeats (inodeAt v nid) zi heads data max := by
  obtain ⟨rfl, hfits⟩ := h.mount_iff.mp hv
  have hlo : 9 ≤ (volumeOf dev part).blkszbits := h.accepted.blkszbits.1
  have hhi : (volumeOf dev part).blkszbits ≤ 12 := h.accepted.blkszbits.2
  have hd := hp.decodes hz z
  rw [zReadsBack_iff hlo hhi (erLoadInode_of_le hfits.size) hpath hreg hz buf z]
  constructor
  · exact fun hf => ⟨hf.named, hf.size, hf.repeats hz hlo hhi hd⟩
  · exact fun hf => ⟨hf.1, hf.2.1, (hz.turnsFit_iff hlo hhi hf.2.1 hd).mpr hf.2.2⟩

theorem lz4_read_packed10 :
    ZReadsBack (volumeOf (packedImage 10) 0) [slash, 0x61] (packedInode 10).size
      (fileByte oneHead 512 fun _ => packedData) zeros 10 noTables := by
  have hs := packed10_sound
  have hp : Lz4Packed (volumeOf (packedImage 10) 0) (packedInode 10) packedInfo oneHead fun _ => packedData := by
    refine ⟨rfl, fun c hd hh => ?_⟩
    obtain ⟨rfl, rfl⟩ := oneHead_some hh
    obtain ⟨plen, hplen, hholds⟩ := (hs.decodes (by decide) (by decide) noTables).holds 0 _ rfl
    refine ⟨plen, hplen, hholds.pos, hholds.le, hholds.plain, fun hno => ?_⟩
    have hdec := hholds.packed hno noTables .start
    rw [erDecompress, if_pos (show packedInfo.alg0 = comprLz4 from rfl)] at hdec
    exact encodes_of_lz4 hdec
  refine (lz4_read_iff hs.wellFormed hs.mount hs.leads hs.isReg (hs.zSound (by decide) (by decide)) hp zeros 10 noTables).mpr
    ⟨by decide, ?_, fun c hc => ?_⟩
  · change (packedInode 10).size ≤ sizeMax
    rw [hs.size]
    decide
  · have hzero : c = 0 := by
      have hlsz : packedInfo.lclustersz = 512 := rfl
      rw [hlsz] at hc
      omega
    subst hzero
    exact repeatsAt_of_head (by rw [Nat.zero_mul, Nat.zero_div]; rfl) (by rw [Nat.zero_mul, Nat.zero_mod])

end Ezos.Erofs
