import Ezos.Fs.Absolute

/-!
# Which names reach the system volume

`sysvol_is_path` reads the first word of the name as it is spelled; the path a name denotes is what
`fs_ro_abs` makes of it. A name is misread when the two disagree about the system volume.
-/

namespace Ezos.Fs

open Lib.Segments

set_option autoImplicit false

variable {s : State} {name full p q w seg : Str} {n : Nat}

/-! ## The first word -/

def firstWord (full : Str) : Str := (svSkip full).takeWhile fun c => !isGap c

def IsSystemWord (w : Str) : Prop := w.map svLower = binName ∨ w.map svLower = systemName

instance (w : Str) : Decidable (IsSystemWord w) := inferInstanceAs (Decidable (_ ∨ _))

theorem isGap_svLower (c : U8) : isGap (svLower c) = isGap c := by
  revert c
  decide

theorem svMatch_iff {r : Str} :
    svMatch p seg = some r ↔ ∃ w, p = w ++ r ∧ w.map svLower = seg.map svLower := by
  induction seg generalizing p with
  | nil =>
    rw [svMatch, Option.some.injEq]
    constructor
    · rintro rfl
      exact ⟨[], rfl, rfl⟩
    · rintro ⟨w, rfl, hw⟩
      rw [List.map_nil, List.map_eq_nil_iff] at hw
      rw [hw, List.nil_append]
  | cons d seg ih =>
    cases p with
    | nil =>
      rw [svMatch]
      constructor
      · exact fun h => by contradiction
      · rintro ⟨w, hw, hmap⟩
        obtain ⟨rfl, -⟩ := List.append_eq_nil_iff.mp hw.symm
        contradiction
    | cons c p =>
      rw [svMatch]
      by_cases hc : svLower c = svLower d
      · rw [if_pos hc, ih]
        constructor
        · rintro ⟨w, rfl, hmap⟩
          exact ⟨c :: w, rfl, by rw [List.map_cons, List.map_cons, hc, hmap]⟩
        · rintro ⟨w, hw, hmap⟩
          cases w with
          | nil => contradiction
          | cons c' w =>
            rw [List.map_cons, List.map_cons, List.cons.injEq] at hmap
            rw [List.cons_append, List.cons.injEq] at hw
            exact ⟨w, hw.2, hmap.2⟩
      · rw [if_neg hc]
        constructor
        · exact fun h => by contradiction
        · rintro ⟨w, hw, hmap⟩
          cases w with
          | nil => contradiction
          | cons c' w =>
            rw [List.map_cons, List.map_cons, List.cons.injEq] at hmap
            rw [List.cons_append, List.cons.injEq] at hw
            exact absurd (hw.1 ▸ hmap.1) hc

theorem forall_not_gap_of_lower (hseg : ∀ c ∈ seg, isGap c = false)
    (hmap : w.map svLower = seg.map svLower) : ∀ c ∈ w, isGap c = false := by
  intro c hc
  have hmem : svLower c ∈ seg.map svLower := hmap ▸ List.mem_map_of_mem hc
  obtain ⟨d, hd, heq⟩ := List.mem_map.mp hmem
  rw [← isGap_svLower, ← heq, isGap_svLower]
  exact hseg d hd

theorem takeWhile_append_of_gap {r : Str} (hw : ∀ c ∈ w, isGap c = false)
    (hr : r = [] ∨ ∃ d r', r = d :: r' ∧ isGap d = true) :
    (w ++ r).takeWhile (fun c => !isGap c) = w := by
  rw [List.takeWhile_append_of_pos fun c hc => by rw [hw c hc]; rfl]
  rcases hr with rfl | ⟨d, r', rfl, hd⟩
  · exact List.append_nil w
  · rw [List.takeWhile_cons_of_neg (by simp [hd]), List.append_nil]

theorem svSegIs_of_skip {c : U8} {l : Str} (h : svSkip full = c :: l) :
    svSegIs full seg = true ↔
      ∃ r, svMatch (c :: l) seg = some r ∧ (r = [] ∨ ∃ d r', r = d :: r' ∧ isGap d = true) := by
  unfold svSegIs
  simp only [h]
  cases hm : svMatch (c :: l) seg with
  | none => simp
  | some r => cases r <;> simp

theorem svSegIs_iff (hseg : ∀ c ∈ seg, isGap c = false) (hne : seg ≠ []) :
    svSegIs full seg = true ↔ (firstWord full).map svLower = seg.map svLower := by
  cases hskip : svSkip full with
  | nil =>
    unfold svSegIs firstWord
    simp only [hskip, List.takeWhile_nil]
    constructor
    · exact fun h => by contradiction
    · intro h
      exact absurd (List.map_eq_nil_iff.mp h.symm) hne
  | cons c l =>
    have hsplit : (c :: l).takeWhile (fun c => !isGap c) ++ (c :: l).dropWhile (fun c => !isGap c) =
      c :: l := List.takeWhile_append_dropWhile
    rw [svSegIs_of_skip hskip, firstWord, hskip]
    constructor
    · rintro ⟨r, hm, hr⟩
      obtain ⟨w, hw, hmap⟩ := svMatch_iff.mp hm
      rw [hw, takeWhile_append_of_gap (forall_not_gap_of_lower hseg hmap) hr]
      exact hmap
    · intro hmap
      refine ⟨_, svMatch_iff.mpr ⟨_, hsplit.symm, hmap⟩, ?_⟩
      cases hr : (c :: l).dropWhile (fun c => !isGap c) with
      | nil => exact Or.inl rfl
      | cons d r' =>
        have hd := List.head?_dropWhile_not (fun c => !isGap c) (c :: l)
        rw [hr] at hd
        exact Or.inr ⟨d, r', rfl, by simpa using hd⟩

theorem sysvolIsPath_iff : sysvolIsPath full = true ↔ IsSystemWord (firstWord full) := by
  have hbin : binName.map svLower = binName := by decide
  have hsys : systemName.map svLower = systemName := by decide
  have hb := @svSegIs_iff full binName (by decide) (by decide)
  have hs := @svSegIs_iff full systemName (by decide) (by decide)
  rw [hbin] at hb
  rw [hsys] at hs
  unfold sysvolIsPath IsSystemWord
  by_cases hfull : full = []
  · subst hfull
    decide
  · rw [if_neg hfull, Bool.or_eq_true, hb, hs]

def Denotes (s : State) (name p : Str) : Prop :=
  ∃ full, fsResolvePath s name 256 = some full ∧ fsRoAbs s full 512 = some p

def IsSystem (s : State) (name : Str) : Prop :=
  ∃ full, fsResolvePath s name 256 = some full ∧ sysvolIsPath full = true

def UnderSystem (p : Str) : Prop := ∃ w, (segs slash p).head? = some w ∧ IsSystemWord w

def Refused (s : State) (name : Str) : Prop :=
  (∀ data, fsCreateFile s name data = none) ∧ fsDeleteFile s name = none ∧ fsMkdir s name = none ∧
    fsRmdir s name = none

/-- The first segment of the path that the name stands for: the first one of `raw` that is not '.' or
'..' and is not climbed out of by the segments after it. -/
def lead (s : State) (full : Str) : Option Str := firstKept isDot isDotDot (segs slash (rawPath s full))

def Misread (s : State) (name : Str) : Prop :=
  ∃ full, fsResolvePath s name 256 = some full ∧
    ¬ (IsSystemWord (firstWord full) ↔ ∃ w, lead s full = some w ∧ IsSystemWord w)

theorem lead_eq (h : fsRoAbs s full n = some p) : lead s full = (segs slash p).head? := by
  rw [lead, ← head?_norm, fsRoAbs_segs h]
  rfl

theorem isSystem_iff (h : fsResolvePath s name 256 = some full) :
    IsSystem s name ↔ IsSystemWord (firstWord full) := by
  rw [← sysvolIsPath_iff]
  constructor
  · rintro ⟨full', hfull', hsys⟩
    rw [h, Option.some.injEq] at hfull'
    rwa [hfull']
  · exact fun hsys => ⟨full, h, hsys⟩

theorem Denotes.misread_iff (h : Denotes s name p) :
    Misread s name ↔ ¬ (IsSystem s name ↔ UnderSystem p) := by
  obtain ⟨full, hfull, hp⟩ := h
  rw [isSystem_iff hfull, UnderSystem, ← lead_eq hp]
  constructor
  · rintro ⟨full', hfull', hno⟩
    rw [hfull, Option.some.injEq] at hfull'
    subst hfull'
    exact hno
  · exact fun hno => ⟨full, hfull, hno⟩

theorem roAsk_eq_none_iff (h : fsRoAbs s full 512 = some p) {ask : Str → Call} :
    roAsk s full ask = none ↔ s.fsType = .erofs := by
  unfold roAsk
  rw [h]
  by_cases he : s.fsType = .erofs
  · simp [he]
  · simp [he]

theorem fsAsk_eq_none_iff (h : Denotes s name p) {ask : Str → Call} :
    fsAsk s name ask = none ↔ IsSystem s name ∨ s.fsType = .none ∨ s.fsType = .erofs := by
  obtain ⟨full, hfull, hp⟩ := h
  rw [isSystem_iff hfull, ← sysvolIsPath_iff]
  unfold fsAsk
  simp only [hfull]
  by_cases hsys : sysvolIsPath full = true
  · rw [if_pos hsys]
    exact iff_of_true rfl (Or.inl hsys)
  · rw [if_neg hsys]
    have hro := @roAsk_eq_none_iff s full p hp ask
    cases ht : s.fsType <;> simp [ht, fsIsFat, fsIsRo, hsys, hro]

theorem fsCreateFile_eq_none_iff (h : Denotes s name p) {data : List U8} :
    fsCreateFile s name data = none ↔ IsSystem s name ∨ s.fsType = .none ∨ s.fsType = .erofs := by
  obtain ⟨full, hfull, hp⟩ := h
  rw [isSystem_iff hfull, ← sysvolIsPath_iff]
  unfold fsCreateFile
  simp only [hfull]
  by_cases hsys : sysvolIsPath full = true
  · rw [if_pos hsys]
    exact iff_of_true rfl (Or.inl hsys)
  · rw [if_neg hsys]
    have hro := @roAsk_eq_none_iff s full p hp (.createFile · data)
    cases ht : s.fsType <;> simp [ht, fsIsFat, fsIsRo, hsys, hro]

theorem Denotes.refused_iff (h : Denotes s name p) :
    Refused s name ↔ IsSystem s name ∨ s.fsType = .none ∨ s.fsType = .erofs := by
  unfold Refused fsDeleteFile fsMkdir fsRmdir
  rw [fsAsk_eq_none_iff h, fsAsk_eq_none_iff h, fsAsk_eq_none_iff h]
  constructor
  · exact fun hr => hr.2.1
  · exact fun hr => ⟨fun data => (fsCreateFile_eq_none_iff h).mpr hr, hr, hr, hr⟩

structure Direct (full : Str) : Prop where
  absolute : full.head? = some slash
  plain : ∀ c ∈ segs slash full, isDot c = false ∧ isDotDot c = false
  unbroken : ∀ w, (segs slash full).head? = some w → blank ∉ w

theorem isGap_eq_false {c : U8} (hslash : c ≠ slash) (hblank : c ≠ blank) : isGap c = false := by
  simp [isGap, hslash, hblank]

theorem firstWord_slash (l : Str) : firstWord (slash :: l) = firstWord l := by
  have hgap : isGap slash = true := by decide
  rw [firstWord, svSkip, List.dropWhile_cons_of_pos hgap]
  rfl

theorem firstWord_append {r : Str} (hw : IsSeg slash w) (hblank : blank ∉ w)
    (hr : r = [] ∨ ∃ r', r = slash :: r') : firstWord (w ++ r) = w := by
  have hgap : ∀ c ∈ w, isGap c = false := fun c hc =>
    isGap_eq_false (fun h => hw.2 (h ▸ hc)) (fun h => hblank (h ▸ hc))
  cases w with
  | nil => exact absurd rfl hw.1
  | cons c w =>
    have hc := hgap c List.mem_cons_self
    have hskip : svSkip (c :: w ++ r) = c :: w ++ r := by
      rw [svSkip, List.cons_append, List.dropWhile_cons_of_neg (by rw [hc]; exact Bool.false_ne_true)]
    rw [firstWord, hskip]
    apply takeWhile_append_of_gap hgap
    rcases hr with rfl | ⟨r', rfl⟩
    · exact Or.inl rfl
    · exact Or.inr ⟨slash, r', rfl, by decide⟩

theorem firstWord_eq (h : ∀ w, (segs slash full).head? = some w → blank ∉ w) :
    firstWord full = (segs slash full).head?.getD [] := by
  induction full using segs_induction slash with
  | hnil => rfl
  | hsep r ih =>
    rw [segs_cons_sep] at h ⊢
    rw [firstWord_slash]
    exact ih h
  | hlast w hw =>
    rw [segs_of_isSeg hw] at h ⊢
    have hword := firstWord_append hw (h w rfl) (Or.inl rfl)
    rw [List.append_nil] at hword
    exact hword
  | hcons w r hw ih =>
    rw [segs_isSeg_append hw] at h ⊢
    exact firstWord_append hw (h w rfl) (Or.inr ⟨r, rfl⟩)

theorem length_fsResolvePath (h : fsResolvePath s name 256 = some full) : full.length < 256 := by
  unfold fsResolvePath at h
  by_cases hraw : s.sysvolCwd = [] ∨ name = [] ∨ name.head? = some slash ∨ isDot name ∨ isDotDot name
  · rw [if_pos hraw] at h
    by_cases hlen : name.length < 256
    · rw [if_pos hlen, Option.some.injEq] at h
      exact h ▸ hlen
    · rw [if_neg hlen] at h
      contradiction
  · rw [if_neg hraw] at h
    by_cases hlen : s.sysvolCwd.length + 1 + name.length + 1 > 256
    · rw [if_pos hlen] at h
      contradiction
    · rw [if_neg hlen, Option.some.injEq] at h
      rw [← h, List.length_append, List.length_cons]
      omega

theorem not_isSystemWord_nil : ¬ IsSystemWord [] := by decide

theorem Direct.not_misread (h : Direct full) (hfull : fsResolvePath s name 256 = some full) :
    ¬ Misread s name := by
  rintro ⟨full', hfull', hno⟩
  rw [hfull, Option.some.injEq] at hfull'
  subst hfull'
  have hraw : rawPath s full = full := by
    have hlen := length_fsResolvePath hfull
    rw [rawPath, if_pos h.absolute, List.take_of_length_le (by omega)]
  have hlead : lead s full = (segs slash full).head? := by
    rw [lead, ← head?_norm, hraw, norm_of_pushed h.plain]
  apply hno
  rw [firstWord_eq h.unbroken, hlead]
  cases (segs slash full).head? with
  | none => simpa using not_isSystemWord_nil
  | some w => simp

/-- Two spellings of one path go to the same place if and only if both are misread or neither is, and
the spellings of a path on the system volume that are not refused are the misread ones. -/
theorem spellings_agree_iff {a b : Str} (ha : Denotes s a p) (hb : Denotes s b p) :
    ((IsSystem s a ↔ IsSystem s b) ↔ (Misread s a ↔ Misread s b)) ∧
    (UnderSystem p → (Refused s a ↔ ¬ Misread s a ∨ s.fsType = .none ∨ s.fsType = .erofs)) ∧
    (∀ full, fsResolvePath s a 256 = some full → Direct full → ¬ Misread s a) := by
  refine ⟨?_, ?_, fun full hfull hdirect => hdirect.not_misread hfull⟩
  · rw [ha.misread_iff, hb.misread_iff]
    by_cases hp : UnderSystem p
    · simp [hp, not_iff_not]
    · simp [hp]
  · intro hp
    rw [ha.refused_iff, ha.misread_iff]
    simp [hp]

def ext4AtRoot : State := { fsType := .ext4, roCwd := [slash], sysvolCwd := [] }

def binX : Str := [0x2F, 0x62, 0x69, 0x6E, 0x2F, 0x78]
def dotBinX : Str := [0x2F, 0x2E, 0x2F, 0x62, 0x69, 0x6E, 0x2F, 0x78]

theorem binX_denotes : Denotes ext4AtRoot binX binX := ⟨binX, by decide, by decide⟩

theorem dotBinX_denotes : Denotes ext4AtRoot dotBinX binX := ⟨dotBinX, by decide, by decide⟩

theorem spellings_agree_of_binX :
    (UnderSystem binX ∧ Denotes ext4AtRoot binX binX ∧ Denotes ext4AtRoot dotBinX binX) ∧
      ((IsSystem ext4AtRoot binX ↔ IsSystem ext4AtRoot dotBinX) ↔
        (Misread ext4AtRoot binX ↔ Misread ext4AtRoot dotBinX)) :=
  ⟨⟨⟨binName, by decide, by decide⟩, binX_denotes, dotBinX_denotes⟩,
    (spellings_agree_iff binX_denotes dotBinX_denotes).1⟩

theorem dotBinX_written :
    Denotes ext4AtRoot binX binX ∧ Denotes ext4AtRoot dotBinX binX ∧ UnderSystem binX ∧
      IsSystem ext4AtRoot binX ∧ ¬ IsSystem ext4AtRoot dotBinX ∧
      fsDeleteFile ext4AtRoot binX = none ∧
      fsDeleteFile ext4AtRoot dotBinX = some [.deleteFile binX] := by
  refine ⟨binX_denotes, dotBinX_denotes, ⟨binName, by decide, by decide⟩, ⟨binX, by decide, by decide⟩,
    ?_, by decide, by decide⟩
  rintro ⟨full, hfull, hsys⟩
  have hown : fsResolvePath ext4AtRoot dotBinX 256 = some dotBinX := by decide
  rw [hown, Option.some.injEq] at hfull
  subst hfull
  revert hsys
  decide

end Ezos.Fs
