import Ezos.Erofs.ZmapLaws
import Ezos.Erofs.Reads

/-!
# Reading a compressed file

A turn of the reader begins at every start of a logical cluster and at every start of an extent. It puts the first bytes of the
extent where it begins, not those from where it begins.
-/

namespace Ezos.Erofs

open Lib.Memory Lib.Segments

set_option autoImplicit false

variable {v : Vol} {ino : Inode} {zi : ZInfo} {heads : Heads} {data : Nat → List Byte} {n max : Nat}

/-- What is told of a compressed file: its features are not refused, it is cut into extents, and its index loads. -/
structure Compressed (v : Vol) (ino : Inode) (zi : ZInfo) (heads : Heads) (n : Nat) : Prop where
  fill : erZFillLazy v ino = some zi
  cut : Cut heads zi.lclustersz ino.size
  count : ∀ x < ino.size, x / zi.lclustersz < n
  clusters : Clusters v zi heads
  loads : Loads v ino zi heads n
  small : ino.size + zi.lclustersz < 2 ^ 32

def fileByte (heads : Heads) (lsz : Nat) (data : Nat → List Byte) (x : Nat) : Byte :=
  (data (owner heads lsz x)).getD (x - headStart heads lsz (owner heads lsz x)) 0

def turnMap (v : Vol) (ino : Inode) (zi : ZInfo) (heads : Heads) (n la : Nat) : Option ZMap :=
  (heads (owner heads zi.lclustersz la)).bind fun h =>
    (plenAt v ino zi n (owner heads zi.lclustersz la) h).map (mapAt v zi heads la h)

def turnBytes (v : Vol) (size max la : Nat) (z : Inflate) (map : ZMap) : Inflate × Option Mem :=
  erZBytes z map (v.read map.pa zeros 0 map.plen) (min (min map.llen (size - map.la)) (max - la))

def TurnsFit (v : Vol) (ino : Inode) (zi : ZInfo) (heads : Heads) (data : Nat → List Byte) (n max : Nat) :
    Nat → Nat → Inflate → Prop
  | 0, _, _ => True
  | k + 1, la, z =>
    la < min ino.size max → ∃ map bytes, turnMap v ino zi heads n la = some map ∧ map.plen ≠ 0 ∧ map.plen ≤ erZbuf ∧
      (turnBytes v ino.size max la z map).2 = some bytes ∧
      (∀ x, la ≤ x → x < min (nextTurn heads zi.lclustersz la) (min ino.size max) →
        bytes (x - la) = fileByte heads zi.lclustersz data x) ∧
      TurnsFit v ino zi heads data n max k (nextTurn heads zi.lclustersz la) (turnBytes v ino.size max la z map).1

theorem ZInfo.lclustersz_pos (zi : ZInfo) : 0 < zi.lclustersz := Nat.two_pow_pos _

theorem Compressed.turn_eq (hc : Compressed v ino zi heads n) {la : Nat} (hla : la < min ino.size max) (k : Nat) (buf : Mem)
    (z : Inflate) :
    erReadZFrom v ino zi max (k + 1) la buf z =
      ((turnMap v ino zi heads n la).filter fun map => map.plen ≠ 0 ∧ map.plen ≤ erZbuf).elim (z, none) fun map =>
        (turnBytes v ino.size max la z map).2.elim ((turnBytes v ino.size max la z map).1, none) fun bytes =>
          erReadZFrom v ino zi max k (nextTurn heads zi.lclustersz la)
            (copyIn buf la (min (min map.llen (ino.size - map.la)) (max - la)) bytes) (turnBytes v ino.size max la z map).1 := by
  have hsize : la < ino.size := Nat.lt_of_lt_of_le hla (Nat.min_le_left _ _)
  have hmax : la < max := Nat.lt_of_lt_of_le hla (Nat.min_le_right _ _)
  have hsmall := hc.small
  obtain ⟨h, hh, hmap⟩ := hc.loads.do_map_eq hc.clusters hc.cut (by omega) hsize (hc.count la hsize)
  obtain ⟨_, _, _, hstart⟩ := hc.cut.owner_spec hsize
  have hafter : la < nextTurn heads zi.lclustersz la := lt_nextTurn zi.lclustersz_pos la
  have hnear := hc.cut.nextTurn_le la
  have hdiv : la / zi.lclustersz * zi.lclustersz ≤ la := Nat.div_mul_le_self _ _
  rw [Nat.succ_mul] at hnear
  have hturn : turnMap v ino zi heads n la =
      (plenAt v ino zi n (owner heads zi.lclustersz la) h).map (mapAt v zi heads la h) := by
    rw [turnMap, hh, Option.bind_some]
  rw [erReadZFrom, if_pos ⟨hsize, hmax⟩, hmap, hturn]
  cases hplen : plenAt v ino zi n (owner heads zi.lclustersz la) h with
  | none => rfl
  | some plen =>
    rw [Option.map_some]
    dsimp only
    have hla' : (mapAt v zi heads la h plen).la = headStart heads zi.lclustersz (owner heads zi.lclustersz la) := rfl
    have hllen : (mapAt v zi heads la h plen).llen =
        nextTurn heads zi.lclustersz la - headStart heads zi.lclustersz (owner heads zi.lclustersz la) := rfl
    have hsum : ((mapAt v zi heads la h plen).la + (mapAt v zi heads la h plen).llen) % 2 ^ 64 =
        nextTurn heads zi.lclustersz la := by
      rw [hla', hllen]
      omega
    have hmod : (mapAt v zi heads la h plen).llen % 2 ^ 32 = (mapAt v zi heads la h plen).llen := by
      rw [hllen]
      omega
    have hsub : sub64 ino.size (mapAt v zi heads la h plen).la = ino.size - (mapAt v zi heads la h plen).la :=
      sub64_of_le (by rw [hla']; omega) (by omega)
    have hne : (mapAt v zi heads la h plen).llen ≠ 0 := by
      rw [hllen]
      omega
    rw [hsum, hmod, hsub]
    generalize mapAt v zi heads la h plen = map at *
    by_cases hbad : map.plen ≠ 0 ∧ map.plen ≤ erZbuf
    · rw [if_neg (by omega), Option.filter_some_pos (by simpa using hbad), Option.elim_some]
      unfold turnBytes
      generalize erZBytes z map (v.read map.pa zeros 0 map.plen) (min (min map.llen (ino.size - map.la)) (max - la)) = res
      obtain ⟨z', bytes⟩ := res
      cases bytes with
      | none => rfl
      | some bytes => rfl
    · rw [if_pos (by omega), Option.filter_some_neg (by simpa using hbad)]
      rfl

theorem erReadZFrom_stop {la : Nat} (hla : ¬ la < min ino.size max) (k : Nat) (buf : Mem) (z : Inflate) :
    erReadZFrom v ino zi max k la buf z = (z, some buf) := by
  have hstop : ¬ (la < ino.size ∧ la < max) := fun h => hla (Nat.lt_min.mpr h)
  cases k with
  | zero => exact if_neg hstop
  | succ k => exact if_neg hstop

theorem Compressed.frame (hc : Compressed v ino zi heads n) {k la : Nat} {buf out : Mem} {z : Inflate}
    (h : (erReadZFrom v ino zi max k la buf z).2 = some out) {x : Nat} (hx : x < la) : out x = buf x := by
  induction k generalizing la buf z with
  | zero =>
    unfold erReadZFrom at h
    split at h
    · cases h
    · rw [Option.some.inj h]
  | succ k ih =>
    by_cases hla : la < min ino.size max
    · have hafter : la < nextTurn heads zi.lclustersz la := lt_nextTurn zi.lclustersz_pos la
      rw [hc.turn_eq hla] at h
      cases hmap : (turnMap v ino zi heads n la).filter fun map => map.plen ≠ 0 ∧ map.plen ≤ erZbuf with
      | none =>
        rw [hmap] at h
        cases h
      | some map =>
        rw [hmap, Option.elim_some] at h
        cases hbytes : (turnBytes v ino.size max la z map).2 with
        | none =>
          rw [hbytes] at h
          cases h
        | some bytes =>
          rw [hbytes, Option.elim_some] at h
          rw [ih h (by omega), copyIn, if_neg (by omega)]
    · rw [erReadZFrom_stop hla] at h
      rw [Option.some.inj h]

def Delivers (r : Inflate × Option Mem) (la stop : Nat) (f : Nat → Byte) : Prop :=
  ∃ out, r.2 = some out ∧ ∀ x, la ≤ x → x < stop → out x = f x

theorem Compressed.delivers_iff (hc : Compressed v ino zi heads n) {k la : Nat} (hk : min ino.size max - la ≤ k) (buf : Mem)
    (z : Inflate) :
    Delivers (erReadZFrom v ino zi max k la buf z) la (min ino.size max) (fileByte heads zi.lclustersz data) ↔
      TurnsFit v ino zi heads data n max k la z := by
  induction k generalizing la buf z with
  | zero =>
    rw [erReadZFrom_stop (by omega)]
    exact iff_of_true ⟨buf, rfl, fun x hlo hhi => by omega⟩ trivial
  | succ k ih =>
    by_cases hla : la < min ino.size max
    · have hsize : la < ino.size := Nat.lt_of_lt_of_le hla (Nat.min_le_left _ _)
      have hafter : la < nextTurn heads zi.lclustersz la := lt_nextTurn zi.lclustersz_pos la
      obtain ⟨_, _, _, hstart⟩ := hc.cut.owner_spec hsize
      rw [hc.turn_eq hla, TurnsFit]
      cases hmap : turnMap v ino zi heads n la with
      | none =>
        refine iff_of_false ?_ ?_
        · rintro ⟨out, hout, _⟩
          cases hout
        · intro hfit
          obtain ⟨map, _, hnone, _⟩ := hfit hla
          cases hnone
      | some map =>
        have hcopy : ∀ x, la ≤ x → x < min (nextTurn heads zi.lclustersz la) (min ino.size max) →
            x - la < min (min map.llen (ino.size - map.la)) (max - la) := by
          intro x hlo hhi
          obtain ⟨h, hh, hmap'⟩ := Option.bind_eq_some_iff.mp hmap
          obtain ⟨plen, _, rfl⟩ := Option.map_eq_some_iff.mp hmap'
          rw [mapAt]
          dsimp only
          omega
        by_cases hplen : map.plen ≠ 0 ∧ map.plen ≤ erZbuf
        · rw [Option.filter_some_pos (by simpa using hplen), Option.elim_some]
          cases hbytes : (turnBytes v ino.size max la z map).2 with
          | none =>
            refine iff_of_false ?_ ?_
            · rintro ⟨out, hout, _⟩
              cases hout
            · intro hfit
              obtain ⟨map', _, hsome, _, _, hsome', _⟩ := hfit hla
              obtain rfl := Option.some.inj hsome
              rw [hbytes] at hsome'
              cases hsome'
          | some bytes =>
            rw [Option.elim_some]
            constructor
            · rintro ⟨out, hout, hall⟩ _
              refine ⟨map, bytes, rfl, hplen.1, hplen.2, hbytes, fun x hlo hhi => ?_, ?_⟩
              · rw [← hall x hlo (by omega), hc.frame hout (by omega), copyIn, if_pos (by have := hcopy x hlo hhi; omega)]
              · exact (ih (by omega) _ _).mp ⟨out, hout, fun x hlo hhi => hall x (by omega) hhi⟩
            · intro hfit
              obtain ⟨map', bytes', hsome, _, _, hsome', hpiece, hrest⟩ := hfit hla
              obtain rfl := Option.some.inj hsome
              rw [hbytes] at hsome'
              obtain rfl := Option.some.inj hsome'
              obtain ⟨out, hout, hall⟩ := (ih (by omega) _ _).mpr hrest
              refine ⟨out, hout, fun x hlo hhi => ?_⟩
              rcases Nat.lt_or_ge x (nextTurn heads zi.lclustersz la) with hlt | hge
              · rw [← hpiece x hlo (by omega), hc.frame hout hlt, copyIn,
                  if_pos (by have := hcopy x hlo (by omega); omega)]
              · exact hall x hge hhi
        · rw [Option.filter_some_neg (by simpa using hplen)]
          refine iff_of_false ?_ ?_
          · rintro ⟨out, hout, _⟩
            cases hout
          · intro hfit
            obtain ⟨map', _, hsome, h1, h2, _⟩ := hfit hla
            obtain rfl := Option.some.inj hsome
            exact hplen ⟨h1, h2⟩
    · rw [erReadZFrom_stop hla]
      exact iff_of_true ⟨buf, rfl, fun x hlo hhi => absurd (Nat.lt_of_le_of_lt hlo hhi) hla⟩ fun h => absurd h hla

def clusterMem (v : Vol) (h : Head) (plen : Nat) : Mem := v.read (h.pblk.toNat * v.blksz) zeros 0 plen

inductive Tables (v : Vol) (ino : Inode) (zi : ZInfo) (heads : Heads) (n : Nat) (z₀ : Inflate) : Inflate → Prop
  | start : Tables v ino zi heads n z₀ z₀
  | next {z : Inflate} {c plen : Nat} {h : Head} : Tables v ino zi heads n z₀ z → heads c = some h → h.plain = false →
      plenAt v ino zi n c h = some plen →
      Tables v ino zi heads n z₀ (erDecompress z zi.alg0 (clusterMem v h plen) plen).1

structure Holds (v : Vol) (ino : Inode) (zi : ZInfo) (heads : Heads) (n : Nat) (z₀ : Inflate) (h : Head) (plen : Nat)
    (bytes : List Byte) : Prop where
  pos : plen ≠ 0
  le : plen ≤ erZbuf
  plain : h.plain = true → bytes.length ≤ plen ∧ ∀ k < bytes.length, clusterMem v h plen k = bytes.getD k 0
  packed : h.plain = false → ∀ z, Tables v ino zi heads n z₀ z →
    (erDecompress z zi.alg0 (clusterMem v h plen) plen).2 = some bytes

structure Decodes (v : Vol) (ino : Inode) (zi : ZInfo) (heads : Heads) (data : Nat → List Byte) (n : Nat) (z₀ : Inflate) :
    Prop where
  holds : ∀ c h, heads c = some h → ∃ plen, plenAt v ino zi n c h = some plen ∧ Holds v ino zi heads n z₀ h plen (data c)
  covers : ∀ x < ino.size,
    x - headStart heads zi.lclustersz (owner heads zi.lclustersz x) < (data (owner heads zi.lclustersz x)).length

theorem alg0_ne_shifted (h : erZFillLazy v ino = some zi) : zi.alg0 ≠ comprShifted := by
  unfold erZFillLazy at h
  dsimp only at h
  split at h
  · cases h
  · split at h
    · cases h
    · rename_i halg
      split at h
      · cases h
      · split at h
        · cases h
        · obtain rfl := Option.some.inj h
          intro heq
          have hlt : comprDeflate < comprShifted := by decide
          exact halg (Or.inr (hlt.trans_le (Nat.le_of_eq heq.symm)))

theorem Compressed.turn_holds (hc : Compressed v ino zi heads n) {z₀ z : Inflate} (hd : Decodes v ino zi heads data n z₀)
    (hz : Tables v ino zi heads n z₀ z) {la : Nat} (hla : la < min ino.size max) :
    ∃ map bytes, turnMap v ino zi heads n la = some map ∧ map.plen ≠ 0 ∧ map.plen ≤ erZbuf ∧
      (turnBytes v ino.size max la z map).2 = some bytes ∧
      (∀ x, la ≤ x → x < min (nextTurn heads zi.lclustersz la) (min ino.size max) →
        bytes (x - la) = (data (owner heads zi.lclustersz la)).getD (x - la) 0) ∧
      Tables v ino zi heads n z₀ (turnBytes v ino.size max la z map).1 := by
  have hsize : la < ino.size := Nat.lt_of_lt_of_le hla (Nat.min_le_left _ _)
  obtain ⟨h, hh, _, hstart⟩ := hc.cut.owner_spec hsize
  obtain ⟨plen, hplen, hholds⟩ := hd.holds _ h hh
  have hafter : la < nextTurn heads zi.lclustersz la := lt_nextTurn zi.lclustersz_pos la
  have hmap : turnMap v ino zi heads n la = some (mapAt v zi heads la h plen) := by
    rw [turnMap, hh, Option.bind_some, hplen, Option.map_some]
  -- What is copied is not longer than the extent.
  have hcovers := hd.covers (min (nextTurn heads zi.lclustersz la) ino.size - 1) (by omega)
  rw [hc.cut.owner_eq zi.lclustersz_pos (by omega : la ≤ min (nextTurn heads zi.lclustersz la) ino.size - 1) (by omega)]
    at hcovers
  generalize hcopy : min (min (mapAt v zi heads la h plen).llen (ino.size - (mapAt v zi heads la h plen).la)) (max - la) = copy
  have hmla : (mapAt v zi heads la h plen).la = headStart heads zi.lclustersz (owner heads zi.lclustersz la) := rfl
  have hllen : (mapAt v zi heads la h plen).llen =
      nextTurn heads zi.lclustersz la - headStart heads zi.lclustersz (owner heads zi.lclustersz la) := rfl
  have hpa : v.read (mapAt v zi heads la h plen).pa zeros 0 (mapAt v zi heads la h plen).plen = clusterMem v h plen := rfl
  rw [hmla, hllen] at hcopy
  have hle : copy ≤ (data (owner heads zi.lclustersz la)).length := by omega
  refine ⟨mapAt v zi heads la h plen, ?_⟩
  cases hplain : h.plain with
  | true =>
    obtain ⟨hlen, hbytes⟩ := hholds.plain hplain
    have hformat : (mapAt v zi heads la h plen).algfmt = comprShifted := if_pos hplain
    have hturn : turnBytes v ino.size max la z (mapAt v zi heads la h plen) =
        (z, some fun k => if k < min copy plen then clusterMem v h plen k else 0) := by
      rw [turnBytes, hpa, hmla, hllen, hcopy, erZBytes, if_pos hformat]
      rfl
    refine ⟨_, hmap, hholds.pos, hholds.le, by rw [hturn], fun x hlo hhi => ?_, by rw [hturn]; exact hz⟩
    rw [if_pos (by omega)]
    exact hbytes _ (by omega)
  | false =>
    have hpacked := hholds.packed hplain z hz
    have hne : ¬ (mapAt v zi heads la h plen).algfmt = comprShifted := by
      have hformat : (mapAt v zi heads la h plen).algfmt = zi.alg0 := if_neg (by rw [hplain]; exact Bool.false_ne_true)
      rw [hformat]
      exact alg0_ne_shifted hc.fill
    have hformat : (mapAt v zi heads la h plen).algfmt = zi.alg0 := if_neg (by rw [hplain]; exact Bool.false_ne_true)
    have hlen : (mapAt v zi heads la h plen).plen = plen := rfl
    have hdec : erDecompress z zi.alg0 (clusterMem v h plen) plen =
        ((erDecompress z zi.alg0 (clusterMem v h plen) plen).1, some (data (owner heads zi.lclustersz la))) :=
      Prod.ext rfl hpacked
    have hturn : turnBytes v ino.size max la z (mapAt v zi heads la h plen) =
        ((erDecompress z zi.alg0 (clusterMem v h plen) plen).1,
          some fun k => (data (owner heads zi.lclustersz la)).getD k 0) := by
      rw [turnBytes, hpa, hmla, hllen, hcopy, erZBytes, if_neg hne, hformat, hlen, hdec]
      exact if_neg (by omega)
    refine ⟨_, hmap, hholds.pos, hholds.le, by rw [hturn], fun x hlo hhi => rfl, ?_⟩
    rw [hturn]
    exact .next hz hh hplain hplen

def IsTurn (heads : Heads) (lsz t : Nat) : Prop := t % lsz = 0 ∨ ∃ h, heads (t / lsz) = some h ∧ t % lsz = h.ofs

def RepeatsAt (ino : Inode) (heads : Heads) (lsz : Nat) (data : Nat → List Byte) (max t : Nat) : Prop :=
  ∀ x, t ≤ x → x < min (nextTurn heads lsz t) (min ino.size max) →
    (data (owner heads lsz t)).getD (x - t) 0 =
      (data (owner heads lsz t)).getD (x - headStart heads lsz (owner heads lsz t)) 0

theorem Cut.nextTurn_isTurn {lsz size : Nat} (hcut : Cut heads lsz size) (hpos : 0 < lsz) (la : Nat) :
    IsTurn heads lsz (nextTurn heads lsz la) := by
  unfold nextTurn
  split
  · exact Or.inl (Nat.mul_mod_left _ _)
  · cases hh : heads (la / lsz) with
    | none => exact Or.inl (Nat.mul_mod_left _ _)
    | some h =>
      have hlt := hcut.ofs_lt _ _ hh
      right
      rw [Option.map_some, Option.getD_some]
      have hdiv : (la / lsz * lsz + h.ofs) / lsz = la / lsz := by
        rw [Nat.mul_comm, Nat.mul_add_div hpos, Nat.div_eq_of_lt hlt, Nat.add_zero]
      have hmod : (la / lsz * lsz + h.ofs) % lsz = h.ofs := by
        rw [Nat.mul_comm, Nat.mul_add_mod, Nat.mod_eq_of_lt hlt]
      exact ⟨h, by rw [hdiv, hh], hmod⟩

theorem Cut.not_isTurn {lsz size la t : Nat} (hcut : Cut heads lsz size) (hpos : 0 < lsz) (hlo : la < t)
    (hhi : t < nextTurn heads lsz la) : ¬ IsTurn heads lsz t := by
  have hend := hcut.nextTurn_le la
  have hsame : t / lsz = la / lsz := by
    apply Nat.le_antisymm
    · exact Nat.le_of_lt_succ ((Nat.div_lt_iff_lt_mul hpos).mpr (Nat.lt_of_lt_of_le hhi hend))
    · exact Nat.div_le_div_right (by omega)
  have hdiv : la / lsz * lsz + la % lsz = la := Nat.div_add_mod' la lsz
  have hdivt : t / lsz * lsz + t % lsz = t := Nat.div_add_mod' t lsz
  rw [hsame] at hdivt
  rintro (hzero | ⟨h, hh, hofs⟩)
  · omega
  · rw [hsame] at hh
    unfold nextTurn at hhi
    rw [begun_of_some hh, hh] at hhi
    by_cases hle : h.ofs ≤ la % lsz
    · omega
    · rw [decide_eq_false hle, if_neg Bool.false_ne_true, Option.map_some, Option.getD_some] at hhi
      omega

theorem Compressed.turnsFit_iff (hc : Compressed v ino zi heads n) {z₀ z : Inflate} (hd : Decodes v ino zi heads data n z₀)
    (hz : Tables v ino zi heads n z₀ z) {k la : Nat} (hk : min ino.size max - la ≤ k) (hturn : IsTurn heads zi.lclustersz la) :
    TurnsFit v ino zi heads data n max k la z ↔
      ∀ t, la ≤ t → t < min ino.size max → IsTurn heads zi.lclustersz t →
        RepeatsAt ino heads zi.lclustersz data max t := by
  induction k generalizing la z with
  | zero => exact iff_of_true trivial fun t hlo hhi => by omega
  | succ k ih =>
    rw [TurnsFit]
    by_cases hla : la < min ino.size max
    · obtain ⟨map, bytes, hmap, hne, hle, hbytes, hdata, hz'⟩ := hc.turn_holds hd hz hla
      have hafter : la < nextTurn heads zi.lclustersz la := lt_nextTurn zi.lclustersz_pos la
      have hrest := ih hz' (by omega : min ino.size max - nextTurn heads zi.lclustersz la ≤ k)
        (hc.cut.nextTurn_isTurn zi.lclustersz_pos la)
      have hfile : ∀ x, la ≤ x → x < min (nextTurn heads zi.lclustersz la) (min ino.size max) →
          fileByte heads zi.lclustersz data x = (data (owner heads zi.lclustersz la)).getD
            (x - headStart heads zi.lclustersz (owner heads zi.lclustersz la)) 0 := by
        intro x hlo hhi
        rw [fileByte, hc.cut.owner_eq zi.lclustersz_pos hlo (by omega)]
      constructor
      · intro hfit t hlo hhi ht
        obtain ⟨map', bytes', hmap', _, _, hbytes', hpiece, hnext⟩ := hfit hla
        rw [hmap] at hmap'
        obtain rfl := Option.some.inj hmap'
        rw [hbytes] at hbytes'
        obtain rfl := Option.some.inj hbytes'
        rcases Nat.lt_or_ge t (nextTurn heads zi.lclustersz la) with hlt | hge
        · have heq : t = la := by
            rcases Nat.lt_or_ge la t with hgt | hle'
            · exact absurd ht (hc.cut.not_isTurn zi.lclustersz_pos hgt hlt)
            · omega
          subst heq
          intro x hxlo hxhi
          rw [← hdata x hxlo hxhi, hpiece x hxlo hxhi, hfile x hxlo hxhi]
        · exact hrest.mp hnext t hge hhi ht
      · intro hall _
        refine ⟨map, bytes, hmap, hne, hle, hbytes, fun x hlo hhi => ?_, hrest.mpr fun t hlo hhi ht => ?_⟩
        · rw [hdata x hlo hhi, hfile x hlo hhi]
          exact hall la (Nat.le_refl _) hla hturn x hlo hhi
        · exact hall t (by omega) hhi ht
    · exact iff_of_true (fun h => absurd h hla) fun t hlo hhi => absurd (Nat.lt_of_le_of_lt hlo hhi) hla

end Ezos.Erofs
