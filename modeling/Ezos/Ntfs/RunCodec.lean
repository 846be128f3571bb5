import Ezos.Ntfs.Remove
import Ezos.Lib.Checked
import Ezos.Lib.LittleEndian

/-!
# Run lists that are written and read back (`nt_run_encode`, `nt_run_read`, `nt_run_map`, `nt_free_data_runs`)

A difference of cluster numbers is written with as many bytes as its size takes, and read back with the sign of the last of
them. The two agree unless a forward difference sets that bit.
-/

namespace Ezos.Ntfs

open Lib Lib.Memory Lib.LittleEndian

set_option autoImplicit false

def runNumBytes (x : U32) : Nat :=
  if 0x1000000 ≤ x then 4 else if 0x10000 ≤ x then 3 else if 0x100 ≤ x then 2 else 1

def runDeltaBytes (d : U32) : Nat := if runNumBytes d < 2 then 2 else runNumBytes d

def ntRunEncode (len offDelta : U32) : List Byte :=
  let nbLen := runNumBytes len
  let nbOff := runDeltaBytes offDelta
  BitVec.ofNat 8 (nbLen ||| nbOff <<< 4) :: (bytes len nbLen ++ bytes offDelta nbOff)

structure Run where
  lcn : U32
  len : U32
  deriving DecidableEq

/-- The loop of `nt_build_record` behind a run at `prev`, and the 0 at the end. -/
def ntRunListFrom : U32 → List Run → List Byte
  | _, [] => [0]
  | prev, r :: rs => ntRunEncode r.len (r.lcn - prev) ++ ntRunListFrom r.lcn rs

def ntRunList (runs : List Run) : List Byte := ntRunListFrom 0 runs

def clusters (runs : List Run) : List Nat :=
  runs.flatMap fun r => (List.range r.len.toNat).map (r.lcn.toNat + ·)

def differences : Nat → U32 → List Run → List (Nat × U32)
  | _, _, [] => []
  | start, prev, r :: rs => (start, r.lcn - prev) :: differences (start + r.len.toNat) r.lcn rs

def Plain (d : U32) : Prop :=
  ¬ (0x8000 ≤ d.toNat ∧ d.toNat < 0x10000) ∧ ¬ (0x800000 ≤ d.toNat ∧ d.toNat < 0x1000000)

instance (d : U32) : Decidable (Plain d) := inferInstanceAs (Decidable (_ ∧ _))

def deltaBack (d : U32) : U64 :=
  if 128 ≤ d.toNat / 256 ^ (runDeltaBytes d - 1) then BitVec.ofNat 64 (d.toNat + (2 ^ 64 - 256 ^ runDeltaBytes d))
  else wide d

variable {buf rec : Mem} {m : Mnt} {fin n run start a : Nat} {prev len d : U32} {lcn : U64} {r : Run} {rs : List Run}

theorem runNumBytes_eq (x : U32) : runNumBytes x =
    if 0x1000000 ≤ x.toNat then 4 else if 0x10000 ≤ x.toNat then 3 else if 0x100 ≤ x.toNat then 2 else 1 := rfl

theorem runNumBytes_bounds (x : U32) : 1 ≤ runNumBytes x ∧ runNumBytes x ≤ 4 := by
  rw [runNumBytes_eq]
  split_ifs <;> omega

theorem runNumBytes_enough (x : U32) : x.toNat < 256 ^ runNumBytes x := by
  have hx := x.isLt
  rw [runNumBytes_eq]
  split_ifs <;> omega

theorem runDeltaBytes_eq (d : U32) :
    runDeltaBytes d = if d.toNat < 0x10000 then 2 else if d.toNat < 0x1000000 then 3 else 4 := by
  rw [runDeltaBytes, runNumBytes_eq]
  split_ifs <;> omega

theorem runDeltaBytes_bounds (d : U32) : 2 ≤ runDeltaBytes d ∧ runDeltaBytes d ≤ 4 := by
  rw [runDeltaBytes_eq]
  split_ifs <;> omega

theorem runDeltaBytes_enough (d : U32) : d.toNat < 256 ^ runDeltaBytes d := by
  have hd := d.isLt
  rw [runDeltaBytes_eq]
  split_ifs <;> omega

theorem length_ntRunEncode (len d : U32) : (ntRunEncode len d).length = 1 + runNumBytes len + runDeltaBytes d := by
  rw [ntRunEncode, List.length_cons, List.length_append, length_bytes, length_bytes]
  omega

theorem toNat_deltaBack_of {d : U32} {n : Nat} (hn : runDeltaBytes d = n) :
    (deltaBack d).toNat =
      if 128 ≤ d.toNat / 256 ^ (n - 1) then (d.toNat + (2 ^ 64 - 256 ^ n)) % 2 ^ 64 else d.toNat := by
  have hwide : (wide d).toNat = d.toNat := BitVec.toNat_setWidth_of_le (by decide)
  rw [deltaBack, hn, apply_ite BitVec.toNat, hwide, BitVec.toNat_ofNat]

theorem toNat_deltaBack (d : U32) : (deltaBack d).toNat =
    if d.toNat < 0x8000 then d.toNat else if d.toNat < 0x10000 then d.toNat + 0xFFFFFFFFFFFF0000
    else if d.toNat < 0x800000 then d.toNat else if d.toNat < 0x1000000 then d.toNat + 0xFFFFFFFFFF000000
    else if d.toNat < 0x80000000 then d.toNat else d.toNat + 0xFFFFFFFF00000000 := by
  have hd := d.isLt
  have hbytes := runDeltaBytes_eq d
  by_cases h2 : d.toNat < 0x10000
  · rw [if_pos h2] at hbytes
    rw [toNat_deltaBack_of hbytes]
    norm_num
    split_ifs <;> omega
  · rw [if_neg h2] at hbytes
    by_cases h3 : d.toNat < 0x1000000
    · rw [if_pos h3] at hbytes
      rw [toNat_deltaBack_of hbytes]
      norm_num
      split_ifs <;> omega
    · rw [if_neg h3] at hbytes
      rw [toNat_deltaBack_of hbytes]
      norm_num
      split_ifs <;> omega

theorem deltaBack_ne_zero (h : d ≠ 0) : deltaBack d ≠ 0 := by
  intro hback
  have hpos : 0 < d.toNat := Nat.pos_of_ne_zero fun hd => h (BitVec.eq_of_toNat_eq hd)
  have hle : d.toNat ≤ (deltaBack d).toNat := by
    rw [toNat_deltaBack]
    split_ifs <;> omega
  rw [hback] at hle
  exact absurd hle (Nat.not_le_of_lt hpos)

theorem add_deltaBack_iff {next : U32} (hprev : prev.toNat < 2 ^ 28) (hnext : next.toNat < 2 ^ 28) :
    wide prev + deltaBack (next - prev) = wide next ↔ Plain (next - prev) := by
  have hwide : ∀ x : U32, (wide x).toNat = x.toNat := fun x => BitVec.toNat_setWidth_of_le (by decide)
  have hd : (next - prev).toNat = (2 ^ 32 - prev.toNat + next.toNat) % 2 ^ 32 := BitVec.toNat_sub next prev
  have hback := toNat_deltaBack (next - prev)
  rw [← BitVec.toNat_inj, BitVec.toNat_add, hwide, hwide, Plain]
  generalize (deltaBack (next - prev)).toNat = b at hback ⊢
  generalize (next - prev).toNat = k at hd hback ⊢
  have hk : k = next.toNat - prev.toNat ∧ prev.toNat ≤ next.toNat ∨ k = 2 ^ 32 + next.toNat - prev.toNat ∧ next.toNat < prev.toNat := by
    omega
  clear hd
  split_ifs at hback <;> omega

theorem ntRunRead_unsigned {x : U32} (h : Has buf run (bytes x n)) (hx : x.toNat < 256 ^ n) :
    ntRunRead buf run n false = wide x := by
  have hval := h.value
  rw [Nat.mod_eq_of_lt hx] at hval
  rw [ntRunRead, foldl_bytes (by decide), hval, if_neg (fun h => Bool.noConfusion h.1), BitVec.ofNat_toNat]
  exact (congrArg (· + wide x) (BitVec.zero_mul)).trans (BitVec.zero_add _)

theorem and_sign_ne_zero (c : Byte) : c &&& 0x80 ≠ 0 ↔ 128 ≤ c.toNat := by
  have hbit : c &&& BitVec.twoPow 8 7 = if c.getLsbD 7 then BitVec.twoPow 8 7 else 0#8 := BitVec.and_twoPow c 7
  have hmsb : c.getLsbD 7 = decide (128 ≤ c.toNat) := (BitVec.msb_eq_getLsbD_last c).symm.trans (BitVec.msb_eq_decide c)
  have hpow : BitVec.twoPow 8 7 = 0x80#8 := by decide
  rw [hpow, hmsb] at hbit
  rw [show c &&& 0x80 = _ from hbit]
  by_cases h : 128 ≤ c.toNat
  · simp [h]
  · simp [h]

theorem ntRunRead_signed (h : Has buf run (bytes d (runDeltaBytes d))) :
    ntRunRead buf run (runDeltaBytes d) true = deltaBack d := by
  have hx := runDeltaBytes_enough d
  have hn := runDeltaBytes_bounds d
  have hval := h.value
  have hlast := h.byte (i := runDeltaBytes d - 1) (by omega)
  have htop : d.toNat / 256 ^ (runDeltaBytes d - 1) < 256 := by
    apply Nat.div_lt_of_lt_mul
    rw [← Nat.pow_succ, show (runDeltaBytes d - 1).succ = runDeltaBytes d by omega]
    exact hx
  rw [Nat.mod_eq_of_lt htop] at hlast
  rw [Nat.mod_eq_of_lt hx] at hval
  have hsign : ((true : Bool) = true ∧ runDeltaBytes d ≠ 0 ∧ buf (run + runDeltaBytes d - 1) &&& 0x80 ≠ 0)
      ↔ 128 ≤ d.toNat / 256 ^ (runDeltaBytes d - 1) := by
    rw [and_sign_ne_zero, ← hlast, show run + runDeltaBytes d - 1 = run + (runDeltaBytes d - 1) by omega]
    constructor
    · exact fun h => h.2.2
    · exact fun h => ⟨rfl, by omega, h⟩
  rw [ntRunRead, foldl_bytes (by decide), hval, deltaBack]
  by_cases h128 : 128 ≤ d.toNat / 256 ^ (runDeltaBytes d - 1)
  · rw [if_pos (hsign.mpr h128), if_pos h128]
    have hpow : 256 ^ runDeltaBytes d ≤ 2 ^ 64 := by
      calc 256 ^ runDeltaBytes d ≤ 256 ^ 4 := Nat.pow_le_pow_right (by omega) hn.2
        _ ≤ 2 ^ 64 := by decide
    generalize 256 ^ runDeltaBytes d = k at hpow
    have hneg : (0xFFFFFFFFFFFFFFFF#64) * BitVec.ofNat 64 k = BitVec.ofNat 64 (2 ^ 64 - k) := by
      have hall : (0xFFFFFFFFFFFFFFFF#64) = -1#64 := by decide
      rw [hall, BitVec.neg_mul, BitVec.one_mul]
      apply BitVec.eq_of_toNat_eq
      rw [BitVec.toNat_neg, BitVec.toNat_ofNat, BitVec.toNat_ofNat]
      omega
    change 0xFFFFFFFFFFFFFFFF#64 * _ + _ = _
    rw [hneg, ← BitVec.ofNat_add, Nat.add_comm]
  · rw [if_neg (fun h => h128 (hsign.mp h)), if_neg h128, BitVec.ofNat_toNat]
    exact (congrArg (· + wide d) (BitVec.zero_mul)).trans (BitVec.zero_add _)

theorem has_ntRunEncode {len d : U32} {l : List Byte} (h : Has buf run (ntRunEncode len d ++ l)) :
    runLenBytes buf run = runNumBytes len ∧ runOffBytes buf run = runDeltaBytes d ∧
      ntRunRead buf (run + 1) (runNumBytes len) false = wide len ∧
      ntRunRead buf (run + 1 + runNumBytes len) (runDeltaBytes d) true = deltaBack d ∧
      Has buf (run + 1 + runNumBytes len + runDeltaBytes d) l := by
  obtain ⟨henc, hrest⟩ := has_append.mp h
  rw [length_ntRunEncode] at hrest
  rw [ntRunEncode, has_cons, has_append, length_bytes] at henc
  obtain ⟨hhead, hlen, hoff⟩ := henc
  have h1 := runNumBytes_bounds len
  have h2 := runDeltaBytes_bounds d
  have hfields : ∀ x < 5, ∀ y < 5, 1 ≤ x → 2 ≤ y →
      (BitVec.ofNat 8 (x ||| y <<< 4) &&& 7).toNat = x ∧ ((BitVec.ofNat 8 (x ||| y <<< 4) >>> 4) &&& 7).toNat = y := by
    decide
  have hpair := hfields (runNumBytes len) (by omega) (runDeltaBytes d) (by omega) h1.1 h2.1
  refine ⟨?_, ?_, ntRunRead_unsigned hlen (runNumBytes_enough len), ntRunRead_signed hoff, ?_⟩
  · rw [runLenBytes, hhead]
    exact hpair.1
  · rw [runOffBytes, hhead]
    exact hpair.2
  · rw [show run + 1 + runNumBytes len + runDeltaBytes d = run + (1 + runNumBytes len + runDeltaBytes d) by omega]
    exact hrest

/-- The clusters that the loop of `nt_free_data_runs` visits. -/
def freedClustersFrom (m : Mnt) (rec : Mem) (fin : Nat) : Nat → Nat → U64 → List Nat
  | 0, _, _ => []
  | n + 1, run, lcn =>
    if fin ≤ run then [] else
    let c1 := runLenBytes rec run
    let c2 := runOffBytes rec run
    if c1 = 0 then []
    else if fin - (run + 1) < c1 + c2 then [] else
    let len := ntRunRead rec (run + 1) c1 false
    let off := ntRunRead rec (run + 1 + c1) c2 true
    let lcn := lcn + off
    let count := if off = 0 then 0 else min len.toNat (m.totalClusters - lcn.toNat)
    (List.range count).map (lcn.toNat + ·) ++ freedClustersFrom m rec fin n (run + 1 + c1 + c2) lcn

def freedClusters (m : Mnt) (rec : Mem) (a : Nat) : List Nat :=
  freedClustersFrom m rec (runOff rec a + ntAttrRunMax m rec a) (ntAttrRunMax m rec a + 1) (runOff rec a) 0

theorem ntFreeRunsFrom_eq (m : Mnt) (rec : Mem) (fin n run : Nat) (lcn : U64) (maps : Maps) :
    ntFreeRunsFrom m rec fin n run lcn maps = (freedClustersFrom m rec fin n run lcn).foldl ntFreeCluster maps := by
  induction n generalizing run lcn maps with
  | zero => rfl
  | succ n ih =>
    rw [ntFreeRunsFrom, freedClustersFrom]
    by_cases h1 : fin ≤ run
    · rw [if_pos h1, if_pos h1]
      rfl
    · rw [if_neg h1, if_neg h1]
      dsimp only
      by_cases h2 : runLenBytes rec run = 0
      · rw [if_pos h2, if_pos h2]
        rfl
      · rw [if_neg h2, if_neg h2]
        by_cases h3 : fin - (run + 1) < runLenBytes rec run + runOffBytes rec run
        · rw [if_pos h3, if_pos h3]
          rfl
        · rw [if_neg h3, if_neg h3, ih, List.foldl_append, List.foldl_map]

theorem ntFreeDataRuns_eq (m : Mnt) (rec : Mem) (a : Nat) (maps : Maps) (h : resident rec a = false) :
    ntFreeDataRuns m rec (some a) maps = (freedClusters m rec a).foldl ntFreeCluster maps := by
  rw [ntFreeDataRuns, h, if_neg Bool.false_ne_true, ntFreeRunsFrom_eq, freedClusters]

theorem ntRunMapFrom_end (vcn cur : U64) (h : buf run = 0) : ntRunMapFrom buf fin vcn n run cur lcn = ntNoLcn := by
  cases n with
  | zero => rfl
  | succ n =>
    have hzero : runLenBytes buf run = 0 := by
      rw [runLenBytes, h]
      rfl
    rw [ntRunMapFrom]
    dsimp only
    rw [if_pos hzero]
    exact ite_self _

theorem freedClustersFrom_end (h : rec run = 0) : freedClustersFrom m rec fin n run lcn = [] := by
  cases n with
  | zero => rfl
  | succ n =>
    have hzero : runLenBytes rec run = 0 := by
      rw [runLenBytes, h]
      rfl
    rw [freedClustersFrom]
    dsimp only
    rw [if_pos hzero]
    exact ite_self _

def behind (run : Nat) (len d : U32) : Nat := run + 1 + runNumBytes len + runDeltaBytes d

theorem ntRunMapFrom_run {l : List Byte} (h : Has buf run (ntRunEncode len d ++ l))
    (hfin : run + (ntRunEncode len d).length ≤ fin) (hd : d ≠ 0) (vcn cur : U64) :
    ntRunMapFrom buf fin vcn (n + 1) run cur lcn =
      if cur < cur + wide len ∧ cur ≤ vcn ∧ vcn < cur + wide len then lcn + deltaBack d + (vcn - cur)
      else if 0x100000000 < cur + wide len then ntNoLcn
      else ntRunMapFrom buf fin vcn n (behind run len d) (cur + wide len) (lcn + deltaBack d) := by
  obtain ⟨h1, h2, h3, h4, -⟩ := has_ntRunEncode h
  rw [length_ntRunEncode] at hfin
  have hpos := (runNumBytes_bounds len).1
  rw [ntRunMapFrom, h1, h2]
  dsimp only
  rw [h3, h4, if_neg (by omega), if_neg (by omega), if_neg (by omega), if_neg (deltaBack_ne_zero hd), behind]

theorem freedClustersFrom_run {l : List Byte} (h : Has rec run (ntRunEncode len d ++ l))
    (hfin : run + (ntRunEncode len d).length ≤ fin) (hd : d ≠ 0) :
    freedClustersFrom m rec fin (n + 1) run lcn =
      (List.range (min len.toNat (m.totalClusters - (lcn + deltaBack d).toNat))).map ((lcn + deltaBack d).toNat + ·)
        ++ freedClustersFrom m rec fin n (behind run len d) (lcn + deltaBack d) := by
  obtain ⟨h1, h2, h3, h4, -⟩ := has_ntRunEncode h
  rw [length_ntRunEncode] at hfin
  have hpos := (runNumBytes_bounds len).1
  have hwide : (wide len).toNat = len.toNat := BitVec.toNat_setWidth_of_le (by decide)
  rw [freedClustersFrom, h1, h2]
  dsimp only
  rw [h3, h4, if_neg (by omega), if_neg (by omega), if_neg (by omega), if_neg (deltaBack_ne_zero hd), behind, hwide]

/-! ## Whole lists -/

theorem clusters_cons (r : Run) (rs : List Run) :
    clusters (r :: rs) = (List.range r.len.toNat).map (r.lcn.toNat + ·) ++ clusters rs := List.flatMap_cons

theorem getElem?_clusters_cons (r : Run) (rs : List Run) (i : Nat) :
    (clusters (r :: rs))[i]? = if i < r.len.toNat then some (r.lcn.toNat + i) else (clusters rs)[i - r.len.toNat]? := by
  rw [clusters_cons, List.getElem?_append, List.length_map, List.length_range]
  by_cases h : i < r.len.toNat
  · rw [if_pos h, if_pos h, List.getElem?_map, List.getElem?_range h]
    rfl
  · rw [if_neg h, if_neg h]

theorem toNat_wide (x : U32) : (wide x).toNat = x.toNat := BitVec.toNat_setWidth_of_le (by decide)

theorem ofNat_add_wide (start : Nat) (x : U32) : BitVec.ofNat 64 start + wide x = BitVec.ofNat 64 (start + x.toNat) := by
  rw [BitVec.ofNat_add, wide, BitVec.ofNat_toNat]

theorem inRun_iff {v : Nat} {x : U32} (hv : v < 2 ^ 32) (hstart : start ≤ v) :
    (BitVec.ofNat 64 start < BitVec.ofNat 64 start + wide x ∧ BitVec.ofNat 64 start ≤ BitVec.ofNat 64 v ∧
      BitVec.ofNat 64 v < BitVec.ofNat 64 start + wide x) ↔ v < start + x.toNat := by
  have hx := x.isLt
  rw [ofNat_add_wide]
  simp only [BitVec.lt_def, BitVec.le_def, BitVec.toNat_ofNat]
  omega

theorem pastBound_iff {x : U32} (hstart : start < 2 ^ 32) :
    0x100000000 < BitVec.ofNat 64 start + wide x ↔ 2 ^ 32 < start + x.toNat := by
  have hx := x.isLt
  rw [ofNat_add_wide, BitVec.lt_def, BitVec.toNat_ofNat]
  change 0x100000000 < _ ↔ _
  omega

structure Walked (start : Nat) (prev : U32) (rs : List Run) : Prop where
  below : prev.toNat < 2 ^ 28
  lcn_lt : ∀ r ∈ rs, r.lcn.toNat < 2 ^ 28
  len_pos : ∀ r ∈ rs, 0 < r.len.toNat
  differ : ∀ p ∈ differences start prev rs, p.2 ≠ 0

theorem Walked.next (h : Walked start prev (r :: rs)) : Walked (start + r.len.toNat) r.lcn rs where
  below := h.lcn_lt r List.mem_cons_self
  lcn_lt := fun q hq => h.lcn_lt q (List.mem_cons_of_mem r hq)
  len_pos := fun q hq => h.len_pos q (List.mem_cons_of_mem r hq)
  differ := fun p hp => h.differ p (List.mem_cons_of_mem _ hp)

theorem Walked.add_deltaBack (h : Walked start prev (r :: rs)) :
    wide prev + deltaBack (r.lcn - prev) = wide r.lcn ↔ Plain (r.lcn - prev) :=
  add_deltaBack_iff h.below (h.lcn_lt r List.mem_cons_self)

theorem has_behind {l : List Byte} (h : Has buf run (ntRunEncode len d ++ l)) : Has buf (behind run len d) l :=
  (has_ntRunEncode h).2.2.2.2

theorem behind_eq (run : Nat) (len d : U32) : behind run len d = run + (ntRunEncode len d).length := by
  rw [behind, length_ntRunEncode]
  omega

theorem ntRunMapFrom_list {v : Nat} (hv : v < 2 ^ 32) (hw : Walked start prev rs)
    (hplain : ∀ p ∈ differences start prev rs, p.1 < 2 ^ 32 → Plain p.2) (h : Has buf run (ntRunListFrom prev rs))
    (hfin : run + (ntRunListFrom prev rs).length ≤ fin) (hn : rs.length < n) (hstart : start ≤ v) :
    ntRunMapFrom buf fin (BitVec.ofNat 64 v) n run (BitVec.ofNat 64 start) (wide prev)
      = ((clusters rs)[v - start]?).elim ntNoLcn (BitVec.ofNat 64) := by
  induction rs generalizing run start prev n with
  | nil => exact ntRunMapFrom_end _ _ (has_cons.mp h).1
  | cons r rs ih =>
    have hp : Plain (r.lcn - prev) := hplain _ List.mem_cons_self (Nat.lt_of_le_of_lt hstart hv)
    have hback := hw.add_deltaBack.mpr hp
    obtain ⟨n, rfl⟩ : ∃ k, n = k + 1 := ⟨n - 1, by omega⟩
    rw [ntRunListFrom] at h hfin
    rw [List.length_append] at hfin
    rw [List.length_cons] at hn
    rw [ntRunMapFrom_run h (by omega) (hw.differ _ List.mem_cons_self), hback, getElem?_clusters_cons,
      if_congr (inRun_iff hv hstart) rfl rfl, if_congr (pastBound_iff (by omega)) rfl rfl]
    by_cases hin : v < start + r.len.toNat
    · rw [if_pos hin, if_pos (by omega)]
      have hsub : BitVec.ofNat 64 v - BitVec.ofNat 64 start = BitVec.ofNat 64 (v - start) := by
        rw [show v = v - start + start by omega, BitVec.ofNat_add, BitVec.add_sub_cancel, Nat.add_sub_cancel]
      rw [hsub, wide, ← BitVec.ofNat_toNat, ← BitVec.ofNat_add]
      rfl
    · rw [if_neg hin, if_neg (by omega), if_neg (by omega), ofNat_add_wide,
        ih hw.next (fun p hp => hplain p (List.mem_cons_of_mem _ hp)) (has_behind h) (by rw [behind_eq]; omega) (by omega)
          (by omega), Nat.sub_sub]

theorem differences_ge {p : Nat × U32} (hp : p ∈ differences start prev rs) : start ≤ p.1 := by
  induction rs generalizing start prev with
  | nil => exact absurd hp List.not_mem_nil
  | cons r rs ih =>
    rcases List.mem_cons.mp hp with rfl | hp
    · exact Nat.le_refl start
    · exact Nat.le_trans (Nat.le_add_right _ _) (ih hp)

theorem plain_of_mapped (hw : Walked start prev rs) (h : Has buf run (ntRunListFrom prev rs))
    (hfin : run + (ntRunListFrom prev rs).length ≤ fin) (hn : rs.length < n)
    (hmap : ∀ v < 2 ^ 32, start ≤ v → ntRunMapFrom buf fin (BitVec.ofNat 64 v) n run (BitVec.ofNat 64 start) (wide prev)
      = ((clusters rs)[v - start]?).elim ntNoLcn (BitVec.ofNat 64)) :
    ∀ p ∈ differences start prev rs, p.1 < 2 ^ 32 → Plain p.2 := by
  induction rs generalizing run start prev n with
  | nil => exact fun p hp => absurd hp List.not_mem_nil
  | cons r rs ih =>
    intro p hp hlt
    obtain ⟨n, rfl⟩ : ∃ k, n = k + 1 := ⟨n - 1, by omega⟩
    rw [ntRunListFrom] at h hfin
    rw [List.length_append] at hfin
    rw [List.length_cons] at hn
    have hstart : start < 2 ^ 32 := Nat.lt_of_le_of_lt (differences_ge hp) hlt
    have hne := hw.differ _ List.mem_cons_self
    have hlen := hw.len_pos r List.mem_cons_self
    have hfirst := hmap start hstart (Nat.le_refl start)
    rw [ntRunMapFrom_run h (by omega) hne, if_pos ((inRun_iff hstart (Nat.le_refl start)).mpr (by omega)),
      BitVec.sub_self, BitVec.add_zero, Nat.sub_self, getElem?_clusters_cons, if_pos hlen, Nat.add_zero] at hfirst
    have hback : wide prev + deltaBack (r.lcn - prev) = wide r.lcn := hfirst.trans (BitVec.ofNat_toNat 64 r.lcn)
    rcases List.mem_cons.mp hp with rfl | hp
    · exact hw.add_deltaBack.mp hback
    · refine ih hw.next (has_behind h) (n := n) (by rw [behind_eq]; omega) (by omega) ?_ p hp hlt
      intro v hv hge
      have hv' := hmap v hv (by omega)
      rw [ntRunMapFrom_run h (by omega) hne, hback, if_neg (fun hin => by have := (inRun_iff hv (by omega)).mp hin; omega),
        if_neg (fun hout => by have := (pastBound_iff hstart).mp hout; omega), getElem?_clusters_cons, if_neg (by omega),
        ofNat_add_wide, Nat.sub_sub] at hv'
      exact hv'

theorem mem_clusters {c : Nat} : c ∈ clusters rs ↔ ∃ r ∈ rs, r.lcn.toNat ≤ c ∧ c < r.lcn.toNat + r.len.toNat := by
  rw [clusters, List.mem_flatMap]
  refine exists_congr fun r => and_congr_right fun _ => ?_
  rw [List.mem_map]
  constructor
  · rintro ⟨i, hi, rfl⟩
    have hi := List.mem_range.mp hi
    omega
  · rintro ⟨hlo, hhi⟩
    exact ⟨c - r.lcn.toNat, List.mem_range.mpr (by omega), by omega⟩

theorem fits_volume (hlen : ∀ r ∈ rs, 0 < r.len.toNat) (hfit : ∀ c ∈ clusters rs, c < m.totalClusters) :
    ∀ r ∈ rs, r.lcn.toNat + r.len.toNat ≤ m.totalClusters := by
  intro r hr
  have hpos := hlen r hr
  have hlast := hfit (r.lcn.toNat + r.len.toNat - 1) (mem_clusters.mpr ⟨r, hr, by omega, by omega⟩)
  omega

theorem freedClustersFrom_list (hw : Walked start prev rs) (hplain : ∀ p ∈ differences start prev rs, Plain p.2)
    (hfit : ∀ r ∈ rs, r.lcn.toNat + r.len.toNat ≤ m.totalClusters) (h : Has rec run (ntRunListFrom prev rs))
    (hfin : run + (ntRunListFrom prev rs).length ≤ fin) (hn : rs.length < n) :
    freedClustersFrom m rec fin n run (wide prev) = clusters rs := by
  induction rs generalizing run start prev n with
  | nil => exact freedClustersFrom_end (has_cons.mp h).1
  | cons r rs ih =>
    have hback := hw.add_deltaBack.mpr (hplain _ List.mem_cons_self)
    obtain ⟨n, rfl⟩ : ∃ k, n = k + 1 := ⟨n - 1, by omega⟩
    rw [ntRunListFrom] at h hfin
    rw [List.length_append] at hfin
    rw [List.length_cons] at hn
    have hroom := hfit r List.mem_cons_self
    rw [freedClustersFrom_run h (by omega) (hw.differ _ List.mem_cons_self), hback, toNat_wide, Nat.min_eq_left (by omega),
      clusters_cons, ih hw.next (fun p hp => hplain p (List.mem_cons_of_mem _ hp))
        (fun q hq => hfit q (List.mem_cons_of_mem r hq)) (has_behind h) (by rw [behind_eq]; omega) (by omega)]

theorem length_freedClustersFrom_le (hne : ∀ p ∈ differences start prev rs, p.2 ≠ 0)
    (h : Has rec run (ntRunListFrom prev rs)) (hfin : run + (ntRunListFrom prev rs).length ≤ fin) (hn : rs.length < n) :
    (freedClustersFrom m rec fin n run lcn).length ≤ (clusters rs).length := by
  induction rs generalizing run start prev n lcn with
  | nil =>
    rw [freedClustersFrom_end (has_cons.mp h).1]
    exact Nat.le_refl _
  | cons r rs ih =>
    obtain ⟨n, rfl⟩ : ∃ k, n = k + 1 := ⟨n - 1, by omega⟩
    rw [ntRunListFrom] at h hfin
    rw [List.length_append] at hfin
    rw [List.length_cons] at hn
    have hrest : (freedClustersFrom m rec fin n _ (lcn + deltaBack (r.lcn - prev))).length ≤ (clusters rs).length :=
      ih (fun p hp => hne p (List.mem_cons_of_mem _ hp)) (has_behind h) (by rw [behind_eq]; omega) (by omega)
    rw [freedClustersFrom_run h (by omega) (hne _ List.mem_cons_self), clusters_cons, List.length_append, List.length_append,
      List.length_map, List.length_map, List.length_range, List.length_range]
    omega

theorem plain_of_freed (hw : Walked start prev rs) (h : Has rec run (ntRunListFrom prev rs))
    (hfin : run + (ntRunListFrom prev rs).length ≤ fin) (hn : rs.length < n)
    (hfreed : freedClustersFrom m rec fin n run (wide prev) = clusters rs) :
    ∀ p ∈ differences start prev rs, Plain p.2 := by
  induction rs generalizing run start prev n with
  | nil => exact fun p hp => absurd hp List.not_mem_nil
  | cons r rs ih =>
    intro p hp
    obtain ⟨n, rfl⟩ : ∃ k, n = k + 1 := ⟨n - 1, by omega⟩
    rw [ntRunListFrom] at h hfin
    rw [List.length_append] at hfin
    rw [List.length_cons] at hn
    have hrest : (freedClustersFrom m rec fin n _ (wide prev + deltaBack (r.lcn - prev))).length ≤ (clusters rs).length :=
      length_freedClustersFrom_le hw.next.differ (has_behind h) (by rw [behind_eq]; omega) (by omega)
    have hlen := hw.len_pos r List.mem_cons_self
    rw [freedClustersFrom_run h (by omega) (hw.differ _ List.mem_cons_self), clusters_cons] at hfreed
    have hsum := congrArg List.length hfreed
    rw [List.length_append, List.length_append, List.length_map, List.length_map, List.length_range, List.length_range] at hsum
    have hcount : min r.len.toNat (m.totalClusters - (wide prev + deltaBack (r.lcn - prev)).toNat) = r.len.toNat := by omega
    rw [hcount] at hfreed
    obtain ⟨hhead, htail⟩ := List.append_inj hfreed (by rw [List.length_map, List.length_map])
    have hfirst : (wide prev + deltaBack (r.lcn - prev)).toNat = r.lcn.toNat := by
      have hzero := congrArg (fun l => l[0]?) hhead
      simp only [List.getElem?_map, List.getElem?_range hlen] at hzero
      exact Option.some.inj hzero
    have hback : wide prev + deltaBack (r.lcn - prev) = wide r.lcn :=
      BitVec.eq_of_toNat_eq (hfirst.trans (toNat_wide r.lcn).symm)
    rcases List.mem_cons.mp hp with rfl | hp
    · exact hw.add_deltaBack.mp hback
    · rw [hback] at htail
      exact ih hw.next (has_behind h) (n := n) (by rw [behind_eq]; omega) (by omega) htail p hp

/-- `nt_run_read` over a buffer that ends. -/
def ntRunReadIn (l : List Byte) (run nn : Nat) (sig : Bool) : Prog U64 := do
  let top ← if sig ∧ nn ≠ 0 then Checked.load l (run + nn - 1) else pure 0
  let r : U64 := if sig ∧ nn ≠ 0 ∧ top &&& 0x80 ≠ 0 then 0xFFFFFFFFFFFFFFFF else 0
  (List.range nn).reverse.foldlM (fun r i => do
    let c ← Checked.load l (run + i)
    pure ((r <<< 8) ||| c.setWidth 64)) r

def runMapTurn (l : List Byte) (vcn : U64) (s : Nat × U64 × U64) : Prog (Turn (Nat × U64 × U64) U64) :=
  let (run, currVcn, lcn) := s
  if l.length ≤ run then pure (.leave ntNoLcn) else do
  let head ← Checked.load l run
  let c1 := (head &&& 7).toNat
  let c2 := ((head >>> 4) &&& 7).toNat
  if c1 = 0 then pure (.leave ntNoLcn)
  else if l.length - (run + 1) < c1 + c2 then pure (.leave ntNoLcn) else do
  let len ← ntRunReadIn l (run + 1) c1 false
  let off ← ntRunReadIn l (run + 1 + c1) c2 true
  if currVcn < currVcn + len ∧ currVcn ≤ vcn ∧ vcn < currVcn + len then
    pure (.leave (if off = 0 then ntNoLcn else lcn + off + (vcn - currVcn)))
  else if 0x100000000 < currVcn + len then pure (.leave ntNoLcn)
  else pure (.again (run + 1 + c1 + c2, currVcn + len, lcn + off))

/-- `nt_run_map` over the bytes of a buffer and no others. -/
def ntRunMapIn (l : List Byte) (vcn : U32) : Prog U64 :=
  Checked.loop (runMapTurn l (wide vcn)) (l.length + 1) (0, 0, 0)

def atBytes (l : List Byte) : Mem := fun i => l.getD i 0

variable {l : List Byte}

theorem has_atBytes (l : List Byte) : Has (atBytes l) 0 l := by
  intro i hi
  rw [atBytes, Nat.zero_add, List.getD_eq_getElem?_getD, List.getElem?_eq_getElem hi, Option.getD_some]

theorem load_atBytes {i : Nat} (h : i < l.length) : Checked.load l i = .ok (atBytes l i) := by
  rw [Checked.load_eq (List.getElem?_eq_getElem h), atBytes, List.getD_eq_getElem?_getD, List.getElem?_eq_getElem h,
    Option.getD_some]

theorem ntRunReadIn_eq {nn : Nat} {sig : Bool} (h : run + nn ≤ l.length) :
    ntRunReadIn l run nn sig = .ok (ntRunRead (atBytes l) run nn sig) := by
  have hfold : ∀ (is : List Nat) (r : U64), (∀ i ∈ is, i < nn) →
      is.foldlM (fun r i => do
        let c ← Checked.load l (run + i)
        pure ((r <<< 8) ||| c.setWidth 64)) r
        = (Except.ok (is.foldl (fun r i => (r <<< 8) ||| (atBytes l (run + i)).setWidth 64) r) : Prog U64) := by
    intro is
    induction is with
    | nil => exact fun _ _ => rfl
    | cons i is ih =>
      intro r his
      rw [List.foldlM_cons, load_atBytes (Nat.lt_of_lt_of_le (Nat.add_lt_add_left (his i List.mem_cons_self) run) h),
        List.foldl_cons]
      exact ih _ fun j hj => his j (List.mem_cons_of_mem i hj)
  have hrange : ∀ i ∈ (List.range nn).reverse, i < nn := fun i hi => List.mem_range.mp (List.mem_reverse.mp hi)
  rw [ntRunReadIn, ntRunRead]
  by_cases hsig : sig = true ∧ nn ≠ 0
  · rw [if_pos hsig, load_atBytes (by omega)]
    exact hfold _ _ hrange
  · have hno : ∀ c : Byte, ¬ (sig = true ∧ nn ≠ 0 ∧ c &&& 0x80 ≠ 0) := fun c hc => hsig ⟨hc.1, hc.2.1⟩
    rw [if_neg hsig, if_neg (hno _)]
    refine (hfold _ (if sig = true ∧ nn ≠ 0 ∧ (0 : Byte) &&& 0x80 ≠ 0 then 0xFFFFFFFFFFFFFFFF else 0) hrange).trans ?_
    rw [if_neg (hno 0)]

theorem loop_runMapTurn (vcn cur : U64) (hn : l.length - run < n) :
    Checked.loop (runMapTurn l vcn) n (run, cur, lcn) = .ok (ntRunMapFrom (atBytes l) l.length vcn n run cur lcn) := by
  induction n generalizing run cur lcn with
  | zero => omega
  | succ n ih =>
    have hpure : ∀ {α : Type} (x : α), (pure x : Prog α) = .ok x := fun _ => rfl
    rw [Checked.loop, ntRunMapFrom, runMapTurn]
    dsimp only
    by_cases hend : l.length ≤ run
    · rw [if_pos hend, if_pos hend, hpure, Checked.ok_bind]
    rw [if_neg hend, if_neg hend, load_atBytes (by omega), Checked.ok_bind]
    change (if runLenBytes (atBytes l) run = 0 then pure (Turn.leave ntNoLcn)
      else if l.length - (run + 1) < runLenBytes (atBytes l) run + runOffBytes (atBytes l) run then pure (Turn.leave ntNoLcn)
      else ntRunReadIn l (run + 1) (runLenBytes (atBytes l) run) false >>= fun len =>
        ntRunReadIn l (run + 1 + runLenBytes (atBytes l) run) (runOffBytes (atBytes l) run) true >>= fun off => _) >>= _ = _
    by_cases hzero : runLenBytes (atBytes l) run = 0
    · rw [if_pos hzero, if_pos hzero, hpure, Checked.ok_bind]
    rw [if_neg hzero, if_neg hzero]
    by_cases hshort : l.length - (run + 1) < runLenBytes (atBytes l) run + runOffBytes (atBytes l) run
    · rw [if_pos hshort, if_pos hshort, hpure, Checked.ok_bind]
    rw [if_neg hshort, if_neg hshort, ntRunReadIn_eq (by omega), Checked.ok_bind, ntRunReadIn_eq (by omega), Checked.ok_bind]
    by_cases hin : cur < cur + ntRunRead (atBytes l) (run + 1) (runLenBytes (atBytes l) run) false ∧ cur ≤ vcn ∧
        vcn < cur + ntRunRead (atBytes l) (run + 1) (runLenBytes (atBytes l) run) false
    · rw [if_pos hin, if_pos hin, hpure, Checked.ok_bind]
    rw [if_neg hin, if_neg hin]
    by_cases hpast : 0x100000000 < cur + ntRunRead (atBytes l) (run + 1) (runLenBytes (atBytes l) run) false
    · rw [if_pos hpast, if_pos hpast, hpure, Checked.ok_bind]
    · rw [if_neg hpast, if_neg hpast, hpure, Checked.ok_bind]
      exact ih _ (by omega)

theorem ntRunMapIn_eq (l : List Byte) (vcn : U32) : ntRunMapIn l vcn = .ok (ntRunMap (atBytes l) 0 l.length vcn) := by
  rw [ntRunMapIn, ntRunMap, Nat.zero_add]
  exact loop_runMapTurn _ _ (by omega)

structure RunsOk (runs : List Run) : Prop where
  nonempty : runs ≠ []
  len : ∀ r ∈ runs, 0 < r.len.toNat
  lcn : ∀ r ∈ runs, 0 < r.lcn.toNat ∧ r.lcn.toNat < 2 ^ 28
  differ : runs.IsChain fun r s => r.lcn ≠ s.lcn

structure DecodesBack (runs : List Run) : Prop where
  mapped : ∀ (buf : Mem) (run : Nat), Has buf run (ntRunList runs) → ∀ v : U32,
    ntRunMap buf run (ntRunList runs).length v = ((clusters runs)[v.toNat]?).elim ntNoLcn (BitVec.ofNat 64)
  freed : ∀ (m : Mnt) (rec : Mem) (a : Nat), m.totalClusters < 2 ^ 32 → resident rec a = false →
    Has rec (runOff rec a) (ntRunList runs) → (ntRunList runs).length ≤ ntAttrRunMax m rec a →
    (∀ c ∈ clusters runs, c < m.totalClusters) → freedClusters m rec a = clusters runs

theorem sub_ne_zero_of_ne {x y : U32} (h : x ≠ y) : y - x ≠ 0 := by
  intro hsub
  apply h
  have hx := x.isLt
  have hy := y.isLt
  have hzero : (y - x).toNat = 0 := congrArg BitVec.toNat hsub
  rw [BitVec.toNat_sub] at hzero
  apply BitVec.eq_of_toNat_eq
  omega

theorem differences_ne_zero {q : Run} (h : (q :: rs).IsChain fun r s => r.lcn ≠ s.lcn) :
    ∀ p ∈ differences start q.lcn rs, p.2 ≠ 0 := by
  induction rs generalizing start q with
  | nil => exact fun p hp => absurd hp List.not_mem_nil
  | cons r rs ih =>
    intro p hp
    obtain ⟨hne, hrest⟩ := List.isChain_cons_cons.mp h
    rcases List.mem_cons.mp hp with rfl | hp
    · exact sub_ne_zero_of_ne hne
    · exact ih hrest p hp

theorem RunsOk.walked {runs : List Run} (h : RunsOk runs) : Walked 0 0 runs where
  below := by decide
  lcn_lt := fun r hr => (h.lcn r hr).2
  len_pos := h.len
  differ := by
    refine differences_ne_zero (q := ⟨0, 0⟩) ?_
    cases runs with
    | nil => exact .singleton _
    | cons r rs =>
      refine List.isChain_cons_cons.mpr ⟨?_, h.differ⟩
      intro hzero
      have hpos := (h.lcn r List.mem_cons_self).1
      rw [← show (0 : U32) = r.lcn from hzero] at hpos
      exact absurd hpos (Nat.lt_irrefl 0)

theorem length_lt_ntRunListFrom (prev : U32) (rs : List Run) : rs.length < (ntRunListFrom prev rs).length := by
  induction rs generalizing prev with
  | nil => exact Nat.one_pos
  | cons r rs ih =>
    have hrest := ih r.lcn
    rw [ntRunListFrom, List.length_append, length_ntRunEncode, List.length_cons]
    omega

def listAttr (l : List Byte) : Mem := fun x =>
  if 0x40 ≤ x then l.getD (x - 0x40) 0 else if x = 0x20 then 0x40 else if x = 8 then 1 else 0

def wideVolume (n : Nat) : Mnt where
  part := 0
  spc := 1
  clusterBytes := 512
  recBytes := n
  idxBytes := 512
  mftRunOff := 0
  totalClusters := 2 ^ 32 - 1
  mmft := zeros

theorem listAttr_head {x : Nat} (h : x < 0x40) : listAttr l x = if x = 0x20 then 0x40 else if x = 8 then 1 else 0 :=
  if_neg (by omega)

theorem runOff_listAttr (l : List Byte) : runOff (listAttr l) 0 = 0x40 := by
  rw [runOff, read16, listAttr_head (by omega), listAttr_head (by omega)]
  rfl

theorem ntAttrRunMax_listAttr (l : List Byte) (n : Nat) : ntAttrRunMax (wideVolume n) (listAttr l) 0 = n := by
  have hlen : read32 (listAttr l) (0 + 4) = 0 := by
    rw [read32, listAttr_head (by omega), listAttr_head (by omega), listAttr_head (by omega), listAttr_head (by omega)]
    rfl
  have hnone : (read32 (listAttr l) (0 + 4)).toNat - (read16 (listAttr l) (0 + 0x20)).toNat = 0 := by
    rw [hlen]
    exact Nat.zero_sub _
  exact if_pos (.inl hnone)

theorem has_listAttr (l : List Byte) : Has (listAttr l) 0x40 l := by
  intro i hi
  rw [listAttr, if_pos (by omega), Nat.add_sub_cancel_left, List.getD_eq_getElem?_getD, List.getElem?_eq_getElem hi,
    Option.getD_some]

theorem decodesBack_of_plain {runs : List Run} (h : RunsOk runs)
    (hplain : ∀ p ∈ differences 0 0 runs, p.1 < 2 ^ 32 ∨ (∀ c ∈ clusters runs, c < 2 ^ 32 - 1) → Plain p.2) :
    DecodesBack runs := by
  have hlong := length_lt_ntRunListFrom 0 runs
  constructor
  · intro buf run hbuf v
    have hv : wide v = BitVec.ofNat 64 v.toNat := (BitVec.ofNat_toNat 64 v).symm
    rw [ntRunMap, hv]
    exact ntRunMapFrom_list v.isLt h.walked (fun p hp hlt => hplain p hp (.inl hlt)) hbuf (Nat.le_refl _)
      (Nat.lt_succ_of_lt hlong) (Nat.zero_le _)
  · intro m rec a hm _ hrec hmax hfit
    rw [ntRunList] at hmax hrec
    refine freedClustersFrom_list h.walked (fun p hp => hplain p hp (.inr fun c hc => ?_)) (fits_volume h.len hfit) hrec
      (by omega) (by omega)
    have hc := hfit c hc
    omega

theorem plain_of_decodesBack {runs : List Run} (h : RunsOk runs) (hback : DecodesBack runs) :
    ∀ p ∈ differences 0 0 runs, p.1 < 2 ^ 32 ∨ (∀ c ∈ clusters runs, c < 2 ^ 32 - 1) → Plain p.2 := by
  have hlong := length_lt_ntRunListFrom 0 runs
  rintro p hp (hlt | hfit)
  · refine plain_of_mapped (n := (ntRunList runs).length + 1) h.walked
      (has_listAttr _) (Nat.le_refl _) (Nat.lt_succ_of_lt hlong) ?_ p hp hlt
    intro v hv _
    have hmap := hback.mapped _ _ (has_listAttr (ntRunList runs)) (BitVec.ofNat 32 v)
    have hnat : (BitVec.ofNat 32 v).toNat = v := (BitVec.toNat_ofNat v 32).trans (Nat.mod_eq_of_lt hv)
    rw [ntRunMap, wide, ← BitVec.ofNat_toNat, hnat] at hmap
    exact hmap
  · have hfreed := hback.freed (wideVolume (ntRunList runs).length) (listAttr (ntRunList runs)) 0
      (show 2 ^ 32 - 1 < 2 ^ 32 by omega) (by rfl)
      (by rw [runOff_listAttr]; exact has_listAttr _) (by rw [ntAttrRunMax_listAttr]) hfit
    rw [freedClusters, ntAttrRunMax_listAttr, runOff_listAttr] at hfreed
    exact plain_of_freed h.walked (has_listAttr _) (Nat.le_refl _) (Nat.lt_succ_of_lt hlong) hfreed p hp

/-- The walk of `nt_run_map` ends within its buffer on any bytes, what is freed is what the other walk visits, and a list of runs
is read back as it was written exactly when no forward difference that is looked at sets the upper bit of its last byte. -/
theorem ntRunList_decodes (runs : List Run) (h : RunsOk runs) :
    (∀ (l : List Byte) (v : U32), ntRunMapIn l v = .ok (ntRunMap (atBytes l) 0 l.length v)) ∧
      (∀ (m : Mnt) (rec : Mem) (a : Nat) (maps : Maps), resident rec a = false →
        ntFreeDataRuns m rec (some a) maps = (freedClusters m rec a).foldl ntFreeCluster maps) ∧
      (DecodesBack runs ↔
        ∀ p ∈ differences 0 0 runs, p.1 < 2 ^ 32 ∨ (∀ c ∈ clusters runs, c < 2 ^ 32 - 1) → Plain p.2) :=
  ⟨ntRunMapIn_eq, ntFreeDataRuns_eq, plain_of_decodesBack h, decodesBack_of_plain h⟩

theorem ntRunList_decodes_down : DecodesBack [⟨0x1234, 3⟩, ⟨7, 300⟩] := by
  have hplain : ∀ p ∈ differences 0 0 [⟨0x1234, 3⟩, ⟨7, 300⟩], Plain p.2 := by decide
  exact (ntRunList_decodes _ ⟨by decide, by decide, by decide, by decide⟩).2.2.mpr fun p hp _ => hplain p hp

/-- Cluster 0x8000 takes two bytes, and is read back as a number below zero. -/
theorem ntRunList_half_decoded : RunsOk [⟨0x8000, 1⟩] ∧ ¬ DecodesBack [⟨0x8000, 1⟩] ∧
    ntRunMap (atBytes (ntRunList [⟨0x8000, 1⟩])) 0 (ntRunList [⟨0x8000, 1⟩]).length 0 = 0xFFFFFFFFFFFF8000 := by
  have hmap : ntRunMap (atBytes (ntRunList [⟨0x8000, 1⟩])) 0 (ntRunList [⟨0x8000, 1⟩]).length 0 = 0xFFFFFFFFFFFF8000 := by
    decide
  refine ⟨⟨by decide, by decide, by decide, by decide⟩, ?_, hmap⟩
  intro hback
  have hright := hback.mapped _ 0 (has_atBytes _) 0
  rw [hmap] at hright
  exact absurd hright (by decide)

end Ezos.Ntfs
