import Ezos.Text.Decoding

/-!
# `utf16_to_utf8`, and both conversions one after the other

Like the decoder of UTF-8, the three versions are one function; on UTF-16 without an unpaired
surrogate it is the encoder of the scalar values behind it. Each conversion then undoes the
other, on names that are not empty: no units at all are refused.
-/

namespace Ezos.Text

open Exfat Lib.Scan Lib.Unicode

set_option autoImplicit false

theorem widen_unit (c : U16) : (c.setWidth 32 : U32).toNat = c.toNat :=
  BitVec.toNat_setWidth_of_le (by decide)

theorem isHighSurrogate_iff (c : U16) :
    isHighSurrogate c = true ↔ (c.setWidth 32 : U32) ≥ 0xD800 ∧ (c.setWidth 32 : U32) < 0xDC00 := by
  rw [isHighSurrogate, Bool.and_eq_true, decide_eq_true_eq, decide_eq_true_eq, ge_iff_le,
    BitVec.le_def, BitVec.lt_def, BitVec.le_def, BitVec.lt_def, widen_unit]
  exact Iff.rfl

theorem isLowSurrogate_iff (c : U16) :
    isLowSurrogate c = true ↔ (c.setWidth 32 : U32) ≥ 0xDC00 ∧ (c.setWidth 32 : U32) < 0xE000 := by
  rw [isLowSurrogate, Bool.and_eq_true, decide_eq_true_eq, decide_eq_true_eq, ge_iff_le,
    BitVec.le_def, BitVec.lt_def, BitVec.le_def, BitVec.lt_def, widen_unit]
  exact Iff.rfl

theorem headUnitsRs_eq (i : Nat) (c : U16) (rest : List U16) :
    headUnitsRs i c rest = headUnits i c rest := by
  unfold headUnitsRs headUnits
  simp only [isHighSurrogate_iff, isLowSurrogate_iff]

theorem putUtf8Zig_eq (cp : U32) (room : Nat) : putUtf8Zig cp room = putUtf8 cp room := by
  unfold putUtf8Zig
  split
  · rename_i h
    have hmask : cp &&& 0x7F = cp := by
      apply BitVec.eq_of_toNat_eq
      have hm : (0x7F : U32).toNat = 2 ^ 7 - 1 := rfl
      rw [BitVec.toNat_and, hm, Nat.and_two_pow_sub_one_eq_mod]
      exact Nat.mod_eq_of_lt h
    rw [putUtf8, if_pos h, hmask]
  · rfl

theorem store8_eq (cap : Nat) (out : List U8) (cp : U32) : store8Rs cap out cp =
    if out.length + (utf8Of cp).length ≤ cap - 1 then some (out ++ utf8Of cp) else none := by
  obtain ⟨bytes, hpos, hof, hput⟩ := putUtf8_cases cp
  rw [store8Rs, hput, hof]
  by_cases hroom : cap - 1 - out.length < bytes.length
  · rw [if_pos hroom, Option.map_none, ite_self, if_neg (by omega)]
  · rw [if_neg hroom, if_neg (by omega), if_pos (by omega)]
    rfl

theorem store8C_eq (cap : Nat) (out : List U8) (cp : U32) :
    store8C cap out cp = store8Rs cap out cp := by
  have h : cap - 1 ≤ out.length ↔ cap - 1 - out.length = 0 := by omega
  unfold store8C store8Rs
  simp only [h]

theorem store8Zig_eq (cap : Nat) (out : List U8) (cp : U32) :
    store8Zig cap out cp = store8Rs cap out cp := by
  unfold store8Zig store8Rs
  simp only [putUtf8Zig_eq]

def points16 (us : List U16) : List U32 := items (fun _ => headUnits 0) 0 0 us

theorem utf16ToUtf8By_eq (impl : Impl) (us : List U16) (cap : U32) : utf16ToUtf8By impl us cap =
    if us.length = 0 ∨ cap = 0 then (-1, [])
    else terminated (emit (store8Rs cap.toNat) [] (points16 us)) := by
  have hunits : items headUnits 0 0 us = points16 us :=
    items_congr (fun i _ c rest => rfl) _ 0 0 (Nat.le_refl _)
  have hunitsRs : items headUnitsRs 0 0 us = points16 us :=
    items_congr (fun i _ c rest => headUnitsRs_eq i c rest) _ 0 0 (Nat.le_refl _)
  cases impl with
  | c =>
    rw [utf16ToUtf8By, utf16ToUtf8C, scan_eq_emit, hunits, emit_congr (store8C_eq cap.toNat)]
  | rs => rw [utf16ToUtf8By, utf16ToUtf8Rs, scan_eq_emit, hunitsRs]
  | zig =>
    rw [utf16ToUtf8By, utf16ToUtf8Zig, scan_eq_emit, hunits, emit_congr (store8Zig_eq cap.toNat)]

def bytesOf (us : List U16) : List U8 := (points16 us).flatMap utf8Of

theorem utf16ToUtf8By_of_fits (impl : Impl) {us : List U16} {cap : U32} (hus : us ≠ [])
    (hfit : (bytesOf us).length < cap.toNat) :
    utf16ToUtf8By impl us cap = (i32 (bytesOf us).length, bytesOf us ++ [0]) := by
  have hcap : ¬ (us.length = 0 ∨ cap = 0) := by
    rintro (h | h)
    · exact hus (List.length_eq_zero_iff.mp h)
    · rw [h] at hfit
      exact absurd hfit (Nat.not_lt_zero _)
  have hroom : ([] : List U8).length + ((points16 us).flatMap utf8Of).length ≤ cap.toNat - 1 := by
    rw [List.length_nil, Nat.zero_add]
    exact Nat.le_sub_one_of_lt hfit
  rw [utf16ToUtf8By_eq, if_neg hcap, emit_of_fits (store8_eq cap.toNat) _ _ hroom]
  rfl

theorem of_utf16ToUtf8By {impl : Impl} {us : List U16} {cap : U32}
    (h : 0 ≤ (utf16ToUtf8By impl us cap).1) :
    us ≠ [] ∧ (bytesOf us).length < cap.toNat := by
  rw [utf16ToUtf8By_eq] at h
  by_cases hcap : us.length = 0 ∨ cap = 0
  · rw [if_pos hcap] at h
    exact absurd h (by decide)
  · rw [if_neg hcap] at h
    have hpos : cap.toNat ≠ 0 := toNat_ne_zero fun h0 => hcap (Or.inr h0)
    refine ⟨fun h0 => hcap (Or.inl (by rw [h0]; rfl)), ?_⟩
    by_contra hlt
    have hroom :
        ¬ ([] : List U8).length + ((points16 us).flatMap utf8Of).length ≤ cap.toNat - 1 := by
      rw [List.length_nil, Nat.zero_add]
      change ¬ (bytesOf us).length ≤ _
      omega
    have hno := emit_of_not_fits (store8_eq cap.toNat) (points16 us) [] (Nat.zero_le _) hroom
    have hfail : (terminated (emit (store8Rs cap.toNat) [] (points16 us))).1 = -1 := by
      rw [terminated, hno]
      rfl
    rw [hfail] at h
    exact absurd h (by decide)

theorem toNat_shr (x : U32) (k : Nat) : (x >>> k).toNat = x.toNat / 2 ^ k := by
  rw [BitVec.toNat_ushiftRight, Nat.shiftRight_eq_div_pow]

theorem toNat_low6 (x : U32) : (x &&& 0x3F).toNat = x.toNat % 64 := by
  have hmask : (0x3F : U32).toNat = 2 ^ 6 - 1 := rfl
  rw [BitVec.toNat_and, hmask, Nat.and_two_pow_sub_one_eq_mod]

theorem marked_byte {m x : U32} {n : Nat} (k : Nat) (hm : m.toNat % 2 ^ k = 0) (hn : x.toNat = n)
    (hlt : n < 2 ^ k) : (m ||| x).setWidth 8 = BitVec.ofNat 8 (m.toNat + n) := by
  subst hn
  apply BitVec.eq_of_toNat_eq
  rw [BitVec.toNat_setWidth, BitVec.toNat_ofNat, toNat_or_low m x k hm hlt]

theorem tail_byte {x : U32} {n : Nat} (hn : x.toNat = n) :
    (0x80 ||| (x &&& 0x3F)).setWidth 8 = BitVec.ofNat 8 (0x80 + n % 64) := by
  subst hn
  exact marked_byte 6 rfl (toNat_low6 x) (Nat.mod_lt _ (by decide))

theorem utf8Of_eq {cp : U32} (h : cp.toNat < 0x110000) : utf8Of cp = utf8 cp.toNat := by
  have h0 : (0x80 ||| (cp &&& 0x3F)).setWidth 8 = BitVec.ofNat 8 (0x80 + cp.toNat % 64) :=
    tail_byte rfl
  have h6 : (0x80 ||| ((cp >>> 6) &&& 0x3F)).setWidth 8 =
      BitVec.ofNat 8 (0x80 + cp.toNat / 64 % 64) := tail_byte (toNat_shr cp 6)
  have h12 : (0x80 ||| ((cp >>> 12) &&& 0x3F)).setWidth 8 =
      BitVec.ofNat 8 (0x80 + cp.toNat / 4096 % 64) := tail_byte (toNat_shr cp 12)
  unfold utf8Of putUtf8 utf8
  by_cases h1 : cp.toNat < 0x80
  · have hc : cp < 0x80 := h1
    rw [if_pos hc, if_pos h1]
    have hbyte : cp.setWidth 8 = BitVec.ofNat 8 cp.toNat := by
      apply BitVec.eq_of_toNat_eq
      rw [BitVec.toNat_setWidth, BitVec.toNat_ofNat]
    rw [hbyte]
    rfl
  · have hc : ¬ cp < 0x80 := h1
    rw [if_neg hc, if_neg h1]
    by_cases h2 : cp.toNat < 0x800
    · have hc : cp < 0x800 := h2
      have hlead : (0xC0 ||| (cp >>> 6)).setWidth 8 = BitVec.ofNat 8 (0xC0 + cp.toNat / 64) :=
        marked_byte 6 rfl (toNat_shr cp 6) (by omega)
      rw [if_pos hc, if_pos h2, hlead, h0]
      rfl
    · have hc : ¬ cp < 0x800 := h2
      rw [if_neg hc, if_neg h2]
      by_cases h3 : cp.toNat < 0x10000
      · have hc : cp < 0x10000 := h3
        have hlead : (0xE0 ||| (cp >>> 12)).setWidth 8 = BitVec.ofNat 8 (0xE0 + cp.toNat / 4096) :=
          marked_byte 5 rfl (toNat_shr cp 12) (by omega)
        rw [if_pos hc, if_pos h3, hlead, h0, h6]
        rfl
      · have hc : ¬ cp < 0x10000 := h3
        have hlead : (0xF0 ||| (cp >>> 18)).setWidth 8 = BitVec.ofNat 8 (0xF0 + cp.toNat / 262144) :=
          marked_byte 4 rfl (toNat_shr cp 18) (by omega)
        rw [if_neg hc, if_neg h3, hlead, h0, h6, h12]
        rfl

theorem surrogate_ranges {w : U32} {n : Nat} (h : w.toNat = n) :
    (w ≥ 0xD800 ∧ w < 0xDC00 ↔ 0xD800 ≤ n ∧ n < 0xDC00) ∧
      (w ≥ 0xDC00 ∧ w < 0xE000 ↔ 0xDC00 ≤ n ∧ n < 0xE000) := by
  subst h
  exact ⟨Iff.rfl, Iff.rfl⟩

theorem pair_value {hi lo : U32} {x y : Nat} (hhi : hi.toNat = 0xD800 + x)
    (hlo : lo.toNat = 0xDC00 + y) (hx : x < 1024) (hy : y < 1024) :
    (0x10000 + ((hi - 0xD800) <<< 10) + (lo - 0xDC00)).toNat = 0x10000 + x * 1024 + y := by
  have hD800 : (0xD800 : U32).toNat = 0xD800 := rfl
  have hDC00 : (0xDC00 : U32).toNat = 0xDC00 := rfl
  have h1 : (hi - 0xD800).toNat = x := by
    rw [BitVec.toNat_sub_of_le (by rw [BitVec.le_def]; omega)]
    omega
  have h2 : (lo - 0xDC00).toNat = y := by
    rw [BitVec.toNat_sub_of_le (by rw [BitVec.le_def]; omega)]
    omega
  have h3 := toNat_shl (hi - 0xD800) 10 (by omega)
  rw [BitVec.toNat_add, BitVec.toNat_add, h3, h2, h1]
  change ((0x10000 + x * 2 ^ 10) % 2 ^ 32 + y) % 2 ^ 32 = _
  omega

theorem head_utf16 {c : Nat} (h : Scalar c) :
    ∃ u t, utf16 c = u :: t ∧ ∀ rest,
      headUnits 0 u (t ++ rest) = (BitVec.ofNat 32 c, t.length + 1) := by
  unfold Scalar at h
  unfold utf16
  by_cases hc : c < 0x10000
  · rw [if_pos hc]
    refine ⟨_, [], rfl, fun rest => ?_⟩
    have hval : ((BitVec.ofNat 16 c).setWidth 32 : U32).toNat = c := by
      rw [widen_unit, BitVec.toNat_ofNat, Nat.mod_eq_of_lt hc]
    have heq : ((BitVec.ofNat 16 c).setWidth 32 : U32) = BitVec.ofNat 32 c := by
      apply BitVec.eq_of_toNat_eq
      rw [hval, BitVec.toNat_ofNat, Nat.mod_eq_of_lt (by omega)]
    obtain ⟨hhi, hlo⟩ := surrogate_ranges hval
    unfold headUnits
    rw [if_neg (by rw [hhi]; omega), if_neg (by rw [hlo]; omega), heq]
    rfl
  · rw [if_neg hc]
    refine ⟨_, [_], rfl, fun rest => ?_⟩
    generalize hx : (c - 0x10000) / 1024 = x
    have hhi : ((BitVec.ofNat 16 (0xD800 + x)).setWidth 32 : U32).toNat = 0xD800 + x := by
      rw [widen_unit, BitVec.toNat_ofNat, Nat.mod_eq_of_lt (by omega)]
    have hlo : ((BitVec.ofNat 16 (0xDC00 + c % 1024)).setWidth 32 : U32).toNat = 0xDC00 + c % 1024 := by
      rw [widen_unit, BitVec.toNat_ofNat, Nat.mod_eq_of_lt (by omega)]
    unfold headUnits
    rw [if_pos ((surrogate_ranges hhi).1.mpr (by omega))]
    change (if _ then _ else _) = _
    rw [if_pos ((surrogate_ranges hlo).2.mpr (by omega))]
    have hval := pair_value hhi hlo (by omega) (Nat.mod_lt _ (by decide))
    have hsum : 0x10000 + x * 1024 + c % 1024 = c := by omega
    have hof : (BitVec.ofNat 32 c).toNat = c := by
      rw [BitVec.toNat_ofNat, Nat.mod_eq_of_lt (by omega)]
    exact Prod.ext (BitVec.eq_of_toNat_eq ((hval.trans hsum).trans hof.symm)) rfl

theorem scalar_lt {c : Nat} (h : Scalar c) : c < 0x110000 := by
  unfold Scalar at h
  omega

theorem toNat_ofNat_scalar {c : Nat} (h : Scalar c) : (BitVec.ofNat 32 c).toNat = c := by
  have hlt := scalar_lt h
  rw [BitVec.toNat_ofNat, Nat.mod_eq_of_lt (by omega)]

variable {cs : List Nat}

theorem bytesOf_toUtf16 (h : ∀ c ∈ cs, Scalar c) : bytesOf (toUtf16 cs) = toUtf8 cs := by
  have hpoints : points16 (toUtf16 cs) = cs.map (BitVec.ofNat 32) :=
    items_flatMap cs (fun c hc => head_utf16 (h c hc)) 0
  rw [bytesOf, hpoints, List.flatMap_map]
  apply List.flatMap_congr
  intro c hc
  have hof := toNat_ofNat_scalar (h c hc)
  rw [utf8Of_eq (by rw [hof]; exact scalar_lt (h c hc)), hof]

theorem units_toUtf8 (h : ∀ c ∈ cs, Scalar c) : units (toUtf8 cs) = toUtf16 cs := by
  have hpoints : points (toUtf8 cs) = cs.map (BitVec.ofNat 32) := by
    refine items_flatMap cs (fun c hc => ?_) 0
    obtain ⟨b, t, hu, -⟩ := head_utf8 (h c hc) []
    refine ⟨b, t, hu, fun rest => ?_⟩
    obtain ⟨b', t', hu', hcp, hadv⟩ := head_utf8 (h c hc) rest
    rw [hu, List.cons.injEq] at hu'
    obtain ⟨rfl, rfl⟩ := hu'
    exact Prod.ext (BitVec.eq_of_toNat_eq (hcp.trans (toNat_ofNat_scalar (h c hc)).symm)) hadv
  rw [units, hpoints, List.flatMap_map]
  apply List.flatMap_congr
  intro c hc
  have hof := toNat_ofNat_scalar (h c hc)
  rw [putUtf16_eq (by rw [hof]; exact scalar_lt (h c hc)), hof]

theorem byte_ne_zero {n : Nat} (h0 : n ≠ 0) (h : n < 256) : BitVec.ofNat 8 n ≠ 0 := by
  intro heq
  have hnat := congrArg BitVec.toNat heq
  rw [toNat_ofNat_byte h] at hnat
  exact h0 hnat

theorem utf8_ne_zero {c : Nat} (h : Scalar c) (h0 : c ≠ 0) : ∀ b ∈ utf8 c, b ≠ 0 := by
  have hlt := scalar_lt h
  unfold utf8
  split
  · rw [List.forall_mem_singleton]
    exact byte_ne_zero h0 (by omega)
  · split
    · simp only [List.forall_mem_cons]
      exact ⟨byte_ne_zero (by omega) (by omega), byte_ne_zero (by omega) (by omega), by simp⟩
    · split
      · simp only [List.forall_mem_cons]
        exact ⟨byte_ne_zero (by omega) (by omega), byte_ne_zero (by omega) (by omega),
          byte_ne_zero (by omega) (by omega), by simp⟩
      · simp only [List.forall_mem_cons]
        exact ⟨byte_ne_zero (by omega) (by omega), byte_ne_zero (by omega) (by omega),
          byte_ne_zero (by omega) (by omega), byte_ne_zero (by omega) (by omega), by simp⟩

theorem ne_zero_of_units (h : ∀ u ∈ toUtf16 cs, u ≠ 0) : ∀ c ∈ cs, c ≠ 0 := by
  rintro c hc rfl
  exact h 0 (List.mem_flatMap.mpr ⟨0, hc, by decide⟩) rfl

theorem toUtf8_ne_zero (h : ∀ c ∈ cs, Scalar c) (h0 : ∀ c ∈ cs, c ≠ 0) :
    ∀ b ∈ toUtf8 cs, b ≠ 0 := by
  intro b hb
  obtain ⟨c, hc, hb⟩ := List.mem_flatMap.mp hb
  exact utf8_ne_zero (h c hc) (h0 c hc) b hb

theorem utf16_length_pos (c : Nat) : 0 < (utf16 c).length := by
  unfold utf16
  split <;> exact Nat.succ_pos _

theorem toUtf16_ne_nil (h : cs ≠ []) : toUtf16 cs ≠ [] := by
  cases cs with
  | nil => exact absurd rfl h
  | cons c cs =>
    intro hnil
    have hpos := utf16_length_pos c
    have hlen := congrArg List.length hnil
    rw [toUtf16_cons, List.length_append, List.length_nil] at hlen
    omega

/-- Names come back from either conversion after the other, whichever versions are combined. -/
theorem names_round_trip (impl impl' : Impl) :
    (∀ us cap, Paired us → (∀ u ∈ us, u ≠ 0) → 0 ≤ (utf16ToUtf8By impl us cap).1 →
      ∃ s : CString, (utf16ToUtf8By impl us cap).2 = s.bytes ++ [0] ∧
        ∀ cap', us.length ≤ cap'.toNat → utf8ToUtf16By impl' s cap' = (i32 us.length, us)) ∧
    ∀ (s : CString) cs cap, s.bytes = toUtf8 cs → (∀ c ∈ cs, Scalar c) → s.bytes ≠ [] →
      0 ≤ (utf8ToUtf16By impl s cap).1 → ∀ cap', s.bytes.length < cap'.toNat →
        utf16ToUtf8By impl' (utf8ToUtf16By impl s cap).2 cap' =
          (i32 s.bytes.length, s.bytes ++ [0]) := by
  constructor
  · intro us cap hpaired hzero hok
    obtain ⟨cs, hcs, rfl⟩ := hpaired.exists_scalars
    obtain ⟨hne, hfit⟩ := of_utf16ToUtf8By hok
    rw [utf16ToUtf8By_of_fits impl hne hfit]
    rw [bytesOf_toUtf16 hcs] at hfit ⊢
    have hcap := cap.isLt
    let s : CString := ⟨toUtf8 cs, toUtf8_ne_zero hcs (ne_zero_of_units hzero), by omega⟩
    refine ⟨s, rfl, fun cap' hle => ?_⟩
    have hunits : units s.bytes = toUtf16 cs := units_toUtf8 hcs
    have hcap' : cap' ≠ 0 := by
      intro h0
      have hpos := List.length_pos_iff.mpr hne
      rw [h0] at hle
      exact absurd (Nat.lt_of_lt_of_le hpos hle) (Nat.lt_irrefl 0)
    rw [utf8ToUtf16By_of_fits impl' hcap' (by rw [hunits]; exact hle), hunits]
  · intro s cs cap hs hcs hne hok cap' hle
    have hunits : units s.bytes = toUtf16 cs := by rw [hs, units_toUtf8 hcs]
    have hcsne : cs ≠ [] := by
      rintro rfl
      exact hne hs
    by_cases hfit : cap ≠ 0 ∧ (units s.bytes).length ≤ cap.toNat
    · have hbytes : bytesOf (toUtf16 cs) = s.bytes := by rw [bytesOf_toUtf16 hcs, hs]
      rw [utf8ToUtf16By_of_fits impl hfit.1 hfit.2, hunits,
        utf16ToUtf8By_of_fits impl' (toUtf16_ne_nil hcsne) (by rw [hbytes]; exact hle), hbytes]
    · have hfail : (utf8ToUtf16By impl s cap).1 = -1 := by
        apply utf8ToUtf16By_of_not_fits
        by_cases hcap : cap = 0
        · exact Or.inl hcap
        · exact Or.inr fun h => hfit ⟨hcap, h⟩
      rw [hfail] at hok
      exact absurd hok (by decide)

theorem empty_noNul : ∀ b ∈ ([] : List U8), b ≠ 0 := by simp

theorem empty_inMemory : ([] : List U8).length + 1 < 2 ^ 32 := by decide

def emptyName : CString := ⟨[], empty_noNul, empty_inMemory⟩

/-- The empty name has its units, but these are refused with every capacity. -/
theorem empty_name_refused :
    utf8ToUtf16By .rs emptyName 1 = (0, []) ∧
      ∀ cap, utf16ToUtf8By .rs (utf8ToUtf16By .rs emptyName 1).2 cap = (-1, []) := by
  have h : utf8ToUtf16By .rs emptyName 1 = (0, []) := rfl
  refine ⟨h, fun cap => ?_⟩
  rw [h]
  rfl

end Ezos.Text
