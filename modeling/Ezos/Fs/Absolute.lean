import Ezos.Fs.Paths

/-!
# What `fs_ro_abs` computes

The absolute path of a name is the stack of the segments of `raw`, each with a slash before it; the
path of the root is a slash.
-/

namespace Ezos.Fs

open Lib.Segments

set_option autoImplicit false

variable {s : State} {name p out r : Str} {cs st : List Str} {outsz : Nat}

def dots (cs : List Str) : List Str := norm isDot isDotDot cs

def spelt : List Str → Str
  | [] => [slash]
  | c :: cs => join slash (c :: cs)

theorem normSegs_some {r' : List Str} (h : normSegs st cs = some r') : r' = cs.foldl (step isDot isDotDot) st := by
  induction cs generalizing st with
  | nil => exact (Option.some.inj h).symm
  | cons c cs ih =>
    unfold normSegs at h
    rw [List.foldl_cons, step]
    by_cases hdot : isDot c = true
    · rw [if_pos hdot] at h
      rw [if_pos hdot]
      exact ih h
    · rw [if_neg hdot] at h
      rw [if_neg hdot]
      by_cases hdd : isDotDot c = true
      · rw [if_pos hdd] at h
        rw [if_pos hdd]
        exact ih h
      · rw [if_neg hdd] at h
        rw [if_neg hdd]
        by_cases hfull : st.length ≥ 64
        · rw [if_pos hfull] at h
          contradiction
        · rw [if_neg hfull] at h
          exact ih h

theorem length_normSegs {r' : List Str} (h : normSegs st cs = some r') (hst : st.length ≤ 64) :
    r'.length ≤ 64 := by
  induction cs generalizing st with
  | nil => exact Option.some.inj h ▸ hst
  | cons c cs ih =>
    unfold normSegs at h
    by_cases hdot : isDot c = true
    · rw [if_pos hdot] at h
      exact ih h hst
    · rw [if_neg hdot] at h
      by_cases hdd : isDotDot c = true
      · rw [if_pos hdd] at h
        exact ih h (by rw [List.length_dropLast]; omega)
      · rw [if_neg hdd] at h
        by_cases hfull : st.length ≥ 64
        · rw [if_pos hfull] at h
          contradiction
        · rw [if_neg hfull] at h
          exact ih h (by rw [List.length_append, List.length_singleton]; omega)

theorem normSegs_of_length (h : st.length + cs.length ≤ 64) :
    normSegs st cs = some (cs.foldl (step isDot isDotDot) st) := by
  induction cs generalizing st with
  | nil => rfl
  | cons c cs ih =>
    rw [List.length_cons] at h
    rw [normSegs, List.foldl_cons, step]
    by_cases hdot : isDot c = true
    · rw [if_pos hdot, if_pos hdot]
      exact ih (by omega)
    · rw [if_neg hdot, if_neg hdot]
      by_cases hdd : isDotDot c = true
      · rw [if_pos hdd, if_pos hdd]
        exact ih (by rw [List.length_dropLast]; omega)
      · rw [if_neg hdd, if_neg hdd, if_neg (by omega)]
        exact ih (by rw [List.length_append, List.length_singleton]; omega)

theorem emitSegs_iff :
    emitSegs outsz out cs = some r ↔ r = out ++ join slash cs ∧ (cs = [] ∨ r.length < outsz) := by
  induction cs generalizing out with
  | nil =>
    rw [emitSegs, Option.some.injEq, join_nil, List.append_nil]
    constructor
    · exact fun h => ⟨h.symm, Or.inl rfl⟩
    · exact fun h => h.1.symm
  | cons c cs ih =>
    have hassoc : out ++ join slash (c :: cs) = out ++ slash :: c ++ join slash cs := by
      rw [join_cons, List.append_assoc]
    rw [emitSegs, hassoc]
    by_cases hfit : out.length + c.length + 1 ≥ outsz
    · rw [if_pos hfit]
      constructor
      · exact fun h => by contradiction
      · rintro ⟨rfl, hno | hlt⟩
        · contradiction
        · rw [List.length_append, List.length_append, List.length_cons] at hlt
          omega
    · rw [if_neg hfit, ih]
      constructor
      · rintro ⟨rfl, hlt⟩
        refine ⟨rfl, Or.inr ?_⟩
        rcases hlt with rfl | hlt
        · rw [join_nil, List.append_nil, List.length_append, List.length_cons]
          omega
        · exact hlt
      · rintro ⟨rfl, hlt⟩
        rcases hlt with hno | hlt
        · contradiction
        · exact ⟨rfl, Or.inr hlt⟩

theorem join_ne_nil (h : cs ≠ []) : join slash cs ≠ [] := by
  cases cs with
  | nil => contradiction
  | cons c cs => exact fun h => by cases h

theorem spelt_of_ne_nil (h : cs ≠ []) : spelt cs = join slash cs := by
  cases cs with
  | nil => contradiction
  | cons c cs => rfl

theorem fsRoAbs_some (h : fsRoAbs s name outsz = some p) :
    p = spelt (dots (segs slash (rawPath s name))) ∧ p.length < outsz := by
  unfold fsRoAbs at h
  cases hn : normSegs [] (segs slash (rawPath s name)) with
  | none =>
    rw [hn] at h
    contradiction
  | some st =>
    rw [hn] at h
    have hst : dots (segs slash (rawPath s name)) = st := (normSegs_some hn).symm
    rw [hst]
    cases he : emitSegs outsz [] st with
    | none =>
      simp only [he] at h
      contradiction
    | some r =>
      simp only [he] at h
      obtain ⟨hr, hlen⟩ := emitSegs_iff.mp he
      rw [List.nil_append] at hr
      cases r with
      | nil =>
        have hnil : st = [] := by
          by_contra hne
          exact join_ne_nil hne hr.symm
        subst hnil
        by_cases hsmall : outsz < 2
        · rw [if_pos hsmall] at h
          contradiction
        · rw [if_neg hsmall, Option.some.injEq] at h
          subst h
          exact ⟨rfl, by rw [List.length_singleton]; omega⟩
      | cons c r =>
        rw [Option.some.injEq] at h
        subst h
        rcases hlen with rfl | hlen
        · contradiction
        · have hne : st ≠ [] := by
            rintro rfl
            contradiction
          rw [spelt_of_ne_nil hne]
          exact ⟨hr, hlen⟩

theorem fsRoAbs_of_normSegs (hn : normSegs [] (segs slash (rawPath s name)) = some st) (hlen : (spelt st).length < outsz) :
    fsRoAbs s name outsz = some (spelt st) := by
  unfold fsRoAbs
  rw [hn]
  dsimp only
  by_cases hnil : st = []
  · subst hnil
    have htwo : ¬ outsz < 2 := by
      have hone : (spelt []).length = 1 := rfl
      omega
    rw [emitSegs]
    exact if_neg htwo
  · have hspelt := spelt_of_ne_nil hnil
    have he : emitSegs outsz [] st = some (join slash st) := by
      rw [emitSegs_iff, List.nil_append, ← hspelt]
      exact ⟨rfl, Or.inr hlen⟩
    rw [he, hspelt]
    cases hj : join slash st with
    | nil => exact absurd hj (join_ne_nil hnil)
    | cons c r => rfl

theorem fsRoAbs_of_length (hsegs : (segs slash (rawPath s name)).length ≤ 64)
    (hlen : (spelt (dots (segs slash (rawPath s name)))).length < outsz) :
    fsRoAbs s name outsz = some (spelt (dots (segs slash (rawPath s name)))) :=
  fsRoAbs_of_normSegs (normSegs_of_length (by simpa using hsegs)) hlen

theorem normSegs_eq_none_iff (hst : st.length ≤ 64) :
    normSegs st cs = none ↔ ∃ k, 64 < ((cs.take k).foldl (step isDot isDotDot) st).length := by
  induction cs generalizing st with
  | nil =>
    simp only [normSegs, List.take_nil, List.foldl_nil, reduceCtorEq, false_iff]
    rintro ⟨-, hno⟩
    omega
  | cons c cs ih =>
    have hsucc : (∃ k, 64 < (((c :: cs).take k).foldl (step isDot isDotDot) st).length) ↔
        ∃ k, 64 < ((cs.take k).foldl (step isDot isDotDot) (step isDot isDotDot st c)).length := by
      constructor
      · rintro ⟨k, hk⟩
        cases k with
        | zero => exact absurd hk (Nat.not_lt.mpr hst)
        | succ k => exact ⟨k, hk⟩
      · rintro ⟨k, hk⟩
        exact ⟨k + 1, hk⟩
    rw [hsucc, normSegs, step]
    by_cases hdot : isDot c = true
    · rw [if_pos hdot, if_pos hdot]
      exact ih hst
    · rw [if_neg hdot, if_neg hdot]
      by_cases hdd : isDotDot c = true
      · rw [if_pos hdd, if_pos hdd]
        exact ih (by rw [List.length_dropLast]; omega)
      · rw [if_neg hdd, if_neg hdd]
        have hpush : (st ++ [c]).length = st.length + 1 := List.length_append
        by_cases hfull : st.length ≥ 64
        · rw [if_pos hfull]
          exact ⟨fun _ => ⟨0, by rw [List.take_zero, List.foldl_nil]; omega⟩, fun _ => rfl⟩
        · rw [if_neg hfull]
          exact ih (by omega)

theorem fsRoAbs_eq_none_iff : fsRoAbs s name outsz = none ↔
    (∃ k, 64 < (dots ((segs slash (rawPath s name)).take k)).length) ∨
      outsz ≤ (spelt (dots (segs slash (rawPath s name)))).length := by
  have hover := @normSegs_eq_none_iff (segs slash (rawPath s name)) [] (Nat.zero_le _)
  cases hn : normSegs [] (segs slash (rawPath s name)) with
  | none =>
    refine ⟨fun _ => Or.inl (hover.mp hn), fun _ => ?_⟩
    unfold fsRoAbs
    rw [hn]
  | some st =>
    have hst : dots (segs slash (rawPath s name)) = st := (normSegs_some hn).symm
    have hno : ¬ ∃ k, 64 < (dots ((segs slash (rawPath s name)).take k)).length := fun hk => by
      rw [hover.mpr hk] at hn
      contradiction
    rw [or_iff_right hno, hst]
    constructor
    · intro h
      by_contra hlt
      rw [fsRoAbs_of_normSegs hn (Nat.lt_of_not_le hlt)] at h
      contradiction
    · intro hle
      refine Option.eq_none_iff_forall_not_mem.mpr fun p hp => ?_
      obtain ⟨rfl, hlt⟩ := fsRoAbs_some hp
      rw [hst] at hlt
      omega

theorem segs_spelt (h : ∀ c ∈ cs, IsSeg slash c) : segs slash (spelt cs) = cs := by
  cases cs with
  | nil => exact segs_cons_sep.trans segs_nil
  | cons c cs => exact segs_join h

theorem isSeg_of_mem_dots {l : Str} : ∀ c ∈ dots (segs slash l), IsSeg slash c :=
  forall_mem_norm fun _ hc => isSeg_of_mem_segs hc

theorem fsRoAbs_segs (h : fsRoAbs s name outsz = some p) :
    segs slash p = dots (segs slash (rawPath s name)) := by
  rw [(fsRoAbs_some h).1, segs_spelt isSeg_of_mem_dots]

theorem fsRoAbs_depth (h : fsRoAbs s name outsz = some p) : (segs slash p).length ≤ 64 := by
  rw [fsRoAbs_segs h]
  unfold fsRoAbs at h
  cases hn : normSegs [] (segs slash (rawPath s name)) with
  | none =>
    rw [hn] at h
    contradiction
  | some st =>
    have hst : dots (segs slash (rawPath s name)) = st := (normSegs_some hn).symm
    rw [hst]
    exact length_normSegs hn (Nat.zero_le _)

theorem head?_spelt : (spelt cs).head? = some slash := by
  cases cs <;> rfl

theorem segs_rawPath_nil (h : s.roCwd.length ≤ 255) : segs slash (rawPath s []) = segs slash s.roCwd := by
  unfold rawPath
  have htake : s.roCwd.take 511 = s.roCwd := List.take_of_length_le (by omega)
  simp only [List.head?_nil, htake, List.append_nil]
  rw [if_neg (by simp)]
  by_cases hslash : s.roCwd ≠ [] ∧ s.roCwd.getLast? ≠ some slash ∧ s.roCwd.length < 511
  · rw [if_pos hslash, List.take_of_length_le (by simp; omega), segs_append_sep, segs_nil, List.append_nil]
  · rw [if_neg hslash, htake]

theorem fsRoAbs_again {s' : State} (h : fsRoAbs s name outsz = some p) (hlen : p.length ≤ 255)
    (hcwd : s'.roCwd = p) : fsRoAbs s' [] 512 = some p := by
  have hraw : segs slash (rawPath s' []) = segs slash p := by
    rw [segs_rawPath_nil (hcwd ▸ hlen), hcwd]
  have hdots : dots (segs slash p) = segs slash p := by
    rw [fsRoAbs_segs h]
    exact norm_norm
  have hspelt : spelt (segs slash p) = p := by
    rw [fsRoAbs_segs h]
    exact (fsRoAbs_some h).1.symm
  have hagain : fsRoAbs s' [] 512 = some (spelt (dots (segs slash (rawPath s' [])))) := by
    apply fsRoAbs_of_length
    · rw [hraw]
      exact fsRoAbs_depth h
    · rw [hraw, hdots, hspelt]
      omega
  rwa [hraw, hdots, hspelt] at hagain

end Ezos.Fs
