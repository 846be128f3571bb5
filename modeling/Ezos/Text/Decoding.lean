import Ezos.Text.Heads

/-!
# What the UTF-8 decoders read

The documented decoding is `Decodes`. The code points that the three versions read are those, up
to stray pairs: where one starts, two bytes become one code point below U+0800 instead of two
replacements, so that the units come out fewer.
-/

namespace Ezos.Text

open Exfat Lib.Scan Lib.Unicode

set_option autoImplicit false

inductive StrayLead : List U8 → Prop
  | here (b : U8) (rest : List U8) : StrayPair b rest → StrayLead (b :: rest)
  | scalar (c : Nat) (rest : List U8) : Scalar c → StrayLead rest → StrayLead (utf8 c ++ rest)
  | bad (b : U8) (rest : List U8) : (∀ c, ¬ Starts (b :: rest) c) → StrayLead rest →
      StrayLead (b :: rest)

def points (s : List U8) : List U32 := items (fun _ => decodeUtf8Head) 0 0 s

theorem points_cons (b : U8) (rest : List U8) : points (b :: rest) =
    (decodeUtf8Head b rest).1 :: points (rest.drop ((decodeUtf8Head b rest).2 - 1)) := by
  rw [points, items, items_skip, items_index _ _ _ 0]
  rfl

def units (s : List U8) : List U16 := (points s).flatMap putUtf16

theorem units_cons (b : U8) (rest : List U8) : units (b :: rest) =
    putUtf16 (decodeUtf8Head b rest).1 ++ units (rest.drop ((decodeUtf8Head b rest).2 - 1)) := by
  rw [units, points_cons, List.flatMap_cons]
  rfl

theorem decodeUtf8Head_is (b : U8) (rest : List U8) :
    HeadIs b rest ((decodeUtf8Head b rest).1.toNat, (decodeUtf8Head b rest).2) := by
  rw [decodeUtf8Head_toNat]
  exact headNat_is b rest

theorem head_of_starts {b : U8} {rest : List U8} {c : Nat} (h : Starts (b :: rest) c) :
    (decodeUtf8Head b rest).1.toNat = c ∧ (decodeUtf8Head b rest).2 = (utf8 c).length := by
  obtain ⟨hs, tail, heq⟩ := h
  obtain ⟨b', t, hu, hcp, hadv⟩ := head_utf8 hs tail
  rw [hu, List.cons_append, List.cons.injEq] at heq
  obtain ⟨rfl, rfl⟩ := heq
  rw [hu]
  exact ⟨hcp, hadv⟩

theorem starts_unique {s : List U8} {c c' : Nat} (h : Starts s c) (h' : Starts s c') : c = c' := by
  cases s with
  | nil =>
    obtain ⟨-, rest, heq⟩ := h
    have hpos := utf8_length_pos c
    have hlen := congrArg List.length heq
    rw [List.length_append, List.length_nil] at hlen
    omega
  | cons b rest => exact (head_of_starts h).1.symm.trans (head_of_starts h').1

theorem utf8_lead_not_tail {c : Nat} (hc : Scalar c) {b : U8} {t : List U8}
    (h : utf8 c = b :: t) : ¬ Tail b.toNat := by
  unfold Scalar at hc
  unfold utf8 at h
  unfold Tail
  split at h
  · obtain ⟨rfl, -⟩ := List.cons.inj h
    rw [toNat_ofNat_byte (by omega)]
    omega
  · split at h
    · obtain ⟨rfl, -⟩ := List.cons.inj h
      rw [toNat_ofNat_byte (by omega)]
      omega
    · split at h
      · obtain ⟨rfl, -⟩ := List.cons.inj h
        rw [toNat_ofNat_byte (by omega)]
        omega
      · obtain ⟨rfl, -⟩ := List.cons.inj h
        rw [toNat_ofNat_byte (by omega)]
        omega

theorem not_starts_of_tail {b : U8} (hb : Tail b.toNat) (rest : List U8) (c : Nat) :
    ¬ Starts (b :: rest) c := by
  rintro ⟨hs, tail, heq⟩
  obtain ⟨b', t, hu, -⟩ := head_utf8 hs tail
  rw [hu, List.cons_append, List.cons.injEq] at heq
  exact utf8_lead_not_tail hs hu (heq.1 ▸ hb)

theorem StrayPair.head {b : U8} {rest : List U8} (h : StrayPair b rest) :
    (decodeUtf8Head b rest).2 = 2 := by
  obtain ⟨b1, rest', rfl, hb, h1E, hb1⟩ := h
  have hn := decodeUtf8Head_toNat b (b1 :: rest')
  rw [ne_eq, (toNat_tests b).2.2.2.2.1] at h1E
  unfold Tail at hb
  rw [headNat, if_neg (by omega), if_pos (by omega), if_neg h1E, List.getD_cons_zero,
    if_neg (not_not.mpr hb1)] at hn
  exact (Prod.mk.inj hn).2

theorem not_starts_of_bad {b : U8} {rest : List U8}
    (h : ((decodeUtf8Head b rest).1.toNat, (decodeUtf8Head b rest).2) = (replacement, 1)) :
    (∀ c, ¬ Starts (b :: rest) c) ∧ ¬ StrayPair b rest := by
  obtain ⟨hcp, hadv⟩ := Prod.mk.inj h
  constructor
  · intro c hc
    obtain ⟨hcp', hlen⟩ := head_of_starts hc
    rw [← hcp', hcp, hadv] at hlen
    exact absurd hlen (by decide)
  · intro hp
    rw [hp.head] at hadv
    omega

theorem decodes_cons {b : U8} {rest : List U8} {cs : List Nat} (h : Decodes (b :: rest) cs) :
    (∃ c t rest' cs', utf8 c = b :: t ∧ rest = t ++ rest' ∧ Scalar c ∧ cs = c :: cs' ∧
      Decodes rest' cs') ∨
    ((∀ c, ¬ Starts (b :: rest) c) ∧ ∃ cs', cs = replacement :: cs' ∧ Decodes rest cs') := by
  generalize hs : b :: rest = s at h
  cases h with
  | nil => cases hs
  | scalar c rest' cs' hc hd =>
    obtain ⟨b', t, hu, -⟩ := head_utf8 hc rest'
    rw [hu, List.cons_append, List.cons.injEq] at hs
    obtain ⟨rfl, rfl⟩ := hs
    exact Or.inl ⟨c, t, rest', cs', hu, rfl, hc, rfl, hd⟩
  | bad b' rest' cs' hno hd =>
    obtain ⟨rfl, rfl⟩ := List.cons.inj hs
    exact Or.inr ⟨hno, cs', rfl, hd⟩

theorem StrayLead.cons_cases {b : U8} {rest : List U8} (h : StrayLead (b :: rest)) :
    StrayPair b rest ∨
    (∃ c t rest', utf8 c = b :: t ∧ rest = t ++ rest' ∧ Scalar c ∧ StrayLead rest') ∨
    ((∀ c, ¬ Starts (b :: rest) c) ∧ StrayLead rest) := by
  generalize hs : b :: rest = s at h
  cases h with
  | here b' rest' hp =>
    obtain ⟨rfl, rfl⟩ := List.cons.inj hs
    exact Or.inl hp
  | scalar c rest' hc hd =>
    obtain ⟨b', t, hu, -⟩ := head_utf8 hc rest'
    rw [hu, List.cons_append, List.cons.injEq] at hs
    obtain ⟨rfl, rfl⟩ := hs
    exact Or.inr (Or.inl ⟨c, t, rest', hu, rfl, hc, hd⟩)
  | bad b' rest' hno hd =>
    obtain ⟨rfl, rfl⟩ := List.cons.inj hs
    exact Or.inr (Or.inr ⟨hno, hd⟩)

theorem not_strayLead_nil : ¬ StrayLead [] := by
  intro h
  generalize hs : ([] : List U8) = s at h
  cases h with
  | here b rest _ => cases hs
  | scalar c rest hc _ =>
    have hpos := utf8_length_pos c
    have hlen := congrArg List.length hs
    rw [List.length_append, List.length_nil] at hlen
    omega
  | bad b rest _ _ => cases hs

theorem decodes_total (s : List U8) : ∃ cs, Decodes s cs := by
  induction hn : s.length using Nat.strong_induction_on generalizing s with
  | _ n ih =>
    subst hn
    cases s with
    | nil => exact ⟨[], .nil⟩
    | cons b rest =>
      by_cases h : ∃ c, Starts (b :: rest) c
      · obtain ⟨c, hc, tail, heq⟩ := h
        rw [heq]
        have hpos := utf8_length_pos c
        obtain ⟨cs, hd⟩ := ih tail.length (by rw [heq, List.length_append]; omega) tail rfl
        exact ⟨_, .scalar c tail cs hc hd⟩
      · obtain ⟨cs, hd⟩ := ih rest.length (by rw [List.length_cons]; omega) rest rfl
        exact ⟨_, .bad b rest cs (fun c hc => h ⟨c, hc⟩) hd⟩

/-! ## The main comparison -/

theorem utf16_length_le (c : Nat) : (utf16 c).length ≤ (utf8 c).length := by
  unfold utf16 utf8
  by_cases h : c < 0x10000
  · rw [if_pos h, if_pos h]
    split
    · exact Nat.le_refl _
    · split <;> exact Nat.le_add_left _ _
  · rw [if_neg h, if_neg h, if_neg (by omega), if_neg (by omega)]
    exact Nat.le_add_left _ _

theorem utf16_length_of_lt {c : Nat} (h : c < 0x10000) : (utf16 c).length = 1 := by
  rw [utf16, if_pos h]
  rfl

theorem putUtf16_eq {cp : U32} (h : cp.toNat < 0x110000) : putUtf16 cp = utf16 cp.toNat := by
  unfold putUtf16 utf16
  by_cases hcp : cp.toNat < 0x10000
  · rw [if_neg (by rw [ge_iff_le, BitVec.le_def]; exact Nat.not_le.mpr hcp), if_pos hcp]
    congr 1
  · have hge : cp ≥ 0x10000 := by
      rw [ge_iff_le, BitVec.le_def]
      exact Nat.not_lt.mp hcp
    rw [if_pos hge, if_neg hcp]
    have hsub : (cp - 0x10000).toNat = cp.toNat - 0x10000 := BitVec.toNat_sub_of_le hge
    generalize cp - 0x10000 = x at hsub
    have hand : (x &&& 0x3FF).toNat = x.toNat % 1024 := by
      have hmask : (0x3FF : U32).toNat = 2 ^ 10 - 1 := rfl
      rw [BitVec.toNat_and, hmask, Nat.and_two_pow_sub_one_eq_mod]
    have hshr : (x >>> 10).toNat = x.toNat / 1024 := by
      rw [BitVec.toNat_ushiftRight, Nat.shiftRight_eq_div_pow]
    have hD800 : (0xD800 : U32).toNat = 0xD800 := rfl
    have hDC00 : (0xDC00 : U32).toNat = 0xDC00 := rfl
    have h1 : ((0xD800 : U32) + x >>> 10).setWidth 16 =
        BitVec.ofNat 16 (0xD800 + (cp.toNat - 0x10000) / 1024) := by
      apply BitVec.eq_of_toNat_eq
      rw [BitVec.toNat_setWidth, BitVec.toNat_ofNat, BitVec.toNat_add, hshr, hD800]
      omega
    have h2 : ((0xDC00 : U32) + (x &&& 0x3FF)).setWidth 16 =
        BitVec.ofNat 16 (0xDC00 + cp.toNat % 1024) := by
      apply BitVec.eq_of_toNat_eq
      rw [BitVec.toNat_setWidth, BitVec.toNat_ofNat, BitVec.toNat_add, hand, hDC00]
      omega
    change [((0xD800 : U32) + x >>> 10).setWidth 16, _] = _
    rw [h1, h2]

def Compares (s : List U8) (cs : List Nat) : Prop :=
  (¬ StrayLead s → units s = toUtf16 cs) ∧
    (StrayLead s → (units s).length < (toUtf16 cs).length)

theorem Compares.length_le {s : List U8} {cs : List Nat} (h : Compares s cs) :
    (units s).length ≤ (toUtf16 cs).length := by
  by_cases hs : StrayLead s
  · exact Nat.le_of_lt (h.2 hs)
  · rw [h.1 hs]

theorem Compares.cons {b : U8} {rest rest' : List U8} {c : Nat} {cs : List Nat}
    (hunits : units (b :: rest) = utf16 c ++ units rest')
    (hstray : StrayLead (b :: rest) ↔ StrayLead rest') (h : Compares rest' cs) :
    Compares (b :: rest) (c :: cs) := by
  unfold Compares
  rw [hunits, hstray, toUtf16_cons, List.length_append, List.length_append]
  constructor
  · intro hs
    rw [h.1 hs]
  · intro hs
    have hlt := h.2 hs
    omega

theorem decodes_nil {cs : List Nat} (h : Decodes [] cs) : cs = [] := by
  generalize hs : ([] : List U8) = s at h
  cases h with
  | nil => rfl
  | scalar c rest cs hc _ =>
    have hpos := utf8_length_pos c
    have hlen := congrArg List.length hs
    rw [List.length_append, List.length_nil] at hlen
    omega
  | bad b rest cs _ _ => cases hs

theorem StrayPair.decodes {b : U8} {rest : List U8} {cs : List Nat} (hp : StrayPair b rest)
    (h : Decodes (b :: rest) cs) :
    ∃ b1 rest' cs', rest = b1 :: rest' ∧ cs = replacement :: replacement :: cs' ∧
      Decodes rest' cs' := by
  obtain ⟨b1, rest', rfl, hb, -, hb1⟩ := hp
  rcases decodes_cons h with ⟨c, t, r, cs', hu, hr, hc, -, -⟩ | ⟨-, cs1, rfl, h1⟩
  · exact absurd hb (utf8_lead_not_tail hc hu)
  · rcases decodes_cons h1 with ⟨c, t, r, cs', hu, hr, hc, -, -⟩ | ⟨-, cs2, rfl, h2⟩
    · exact absurd hb1 (utf8_lead_not_tail hc hu)
    · exact ⟨b1, rest', cs2, rfl, rfl, h2⟩

theorem decodes_compares (s : List U8) (cs : List Nat) (h : Decodes s cs) : Compares s cs := by
  induction hn : s.length using Nat.strong_induction_on generalizing s cs with
  | _ n ih =>
    subst hn
    cases s with
    | nil =>
      rw [decodes_nil h]
      exact ⟨fun _ => rfl, fun hs => absurd hs not_strayLead_nil⟩
    | cons b rest =>
      have hu := units_cons b rest
      have hbad := @not_starts_of_bad b rest
      cases decodeUtf8Head_is b rest with
      | scalar t rest' hrest hadv hsc hutf =>
        dsimp only at hadv hsc hutf
        subst hrest
        have hmax : (decodeUtf8Head b (t ++ rest')).1.toNat < 0x110000 := by
          unfold Scalar at hsc
          omega
        rw [hadv, Nat.add_sub_cancel, List.drop_left, putUtf16_eq hmax] at hu
        generalize (decodeUtf8Head b (t ++ rest')).1.toNat = c at *
        have hst : Starts (b :: (t ++ rest')) c := ⟨hsc, rest', by rw [hutf]; rfl⟩
        -- nothing but `c` starts here
        have hsame : ∀ c' t' r, utf8 c' = b :: t' → t ++ rest' = t' ++ r → Scalar c' →
            c' = c ∧ r = rest' := by
          intro c' t' r hu' hr hc'
          have heq := starts_unique ⟨hc', r, by rw [hu', hr]; rfl⟩ hst
          subst heq
          rw [hutf, List.cons.injEq] at hu'
          obtain ⟨-, rfl⟩ := hu'
          exact ⟨rfl, (List.append_cancel_left hr).symm⟩
        have hstray : StrayLead (b :: (t ++ rest')) ↔ StrayLead rest' := by
          constructor
          · intro hs
            rcases hs.cons_cases with ⟨b1, r, -, hb, -⟩ | ⟨c', t', r, hu', hr, hc', hs⟩ | ⟨hno, -⟩
            · exact absurd hb (utf8_lead_not_tail hsc hutf)
            · rwa [(hsame c' t' r hu' hr hc').2] at hs
            · exact absurd hst (hno c)
          · intro hs
            have hlead := StrayLead.scalar c rest' hsc hs
            rwa [hutf] at hlead
        rcases decodes_cons h with ⟨c', t', r, cs', hu', hr, hc', rfl, hd⟩ | ⟨hno, -⟩
        · obtain ⟨rfl, rfl⟩ := hsame c' t' r hu' hr hc'
          refine Compares.cons hu hstray (ih r.length ?_ r cs' hd rfl)
          rw [List.length_cons, List.length_append]
          omega
        · exact absurd hst (hno c)
      | bad hr =>
        obtain ⟨hno, hnp⟩ := hbad hr
        obtain ⟨hcp, hadv⟩ := Prod.mk.inj hr
        rw [hadv, putUtf16_eq (by rw [hcp]; decide), hcp] at hu
        have hstray : StrayLead (b :: rest) ↔ StrayLead rest := by
          constructor
          · intro hs
            rcases hs.cons_cases with hp | ⟨c, t, r, hu', hr', hc, -⟩ | ⟨-, hs⟩
            · exact absurd hp hnp
            · exact absurd ⟨hc, r, by rw [hu', hr']; rfl⟩ (hno c)
            · exact hs
          · exact StrayLead.bad b rest hno
        rcases decodes_cons h with ⟨c, t, r, cs', hu', hr', hc, -, -⟩ | ⟨-, cs', rfl, hd⟩
        · exact absurd ⟨hc, r, by rw [hu', hr']; rfl⟩ (hno c)
        · exact Compares.cons hu hstray (ih rest.length (Nat.lt_succ_self _) rest cs' hd rfl)
      | stray hp h2 hlt =>
        dsimp only at h2 hlt
        obtain ⟨b1, rest', cs', rfl, rfl, hd⟩ := hp.decodes h
        have hless : rest'.length < (b :: b1 :: rest').length := by
          simp only [List.length_cons]
          omega
        have hle := (ih rest'.length hless rest' cs' hd rfl).length_le
        have hshort : (units (b :: b1 :: rest')).length <
            (toUtf16 (replacement :: replacement :: cs')).length := by
          rw [h2, putUtf16_eq (by omega)] at hu
          rw [hu, List.length_append, utf16_length_of_lt (by omega), toUtf16_cons, toUtf16_cons]
          simp only [List.length_append, utf16_length_of_lt (show replacement < 0x10000 by decide)]
          change 1 + (units rest').length < _
          omega
        exact ⟨fun hs => absurd (.here b _ hp) hs, fun _ => hshort⟩

theorem Decodes.length_le {s : List U8} {cs : List Nat} (h : Decodes s cs) :
    (toUtf16 cs).length ≤ s.length := by
  induction h with
  | nil => exact Nat.le_refl 0
  | scalar c rest cs _ _ ih =>
    rw [toUtf16_cons, List.length_append, List.length_append]
    exact Nat.add_le_add (utf16_length_le c) ih
  | bad b rest cs _ _ ih =>
    rw [toUtf16_cons, List.length_append, List.length_cons,
      utf16_length_of_lt (show replacement < 0x10000 by decide)]
    omega

end Ezos.Text

/-!
## `utf8_to_utf16` against its contract

All three versions store `units` of the string when it fits and return -1 when it does not. With
`decodes_compares` this is the documented result exactly for the strings without a stray pair.
-/

namespace Ezos.Text

open Exfat Lib.Scan Lib.Unicode

theorem store16C_eq (cap : Nat) (out : List U16) (cp : U32) :
    store16C cap out cp = store16 cap out cp := by
  have h1 : cap - out.length < 1 ↔ out.length + 1 > cap := by omega
  have h2 : cap - out.length < 2 ↔ out.length + 2 > cap := by omega
  unfold store16C store16
  simp only [h1, h2]

theorem store16_eq (cap : Nat) (out : List U16) (cp : U32) : store16 cap out cp =
    if out.length + (putUtf16 cp).length ≤ cap then some (out ++ putUtf16 cp) else none := by
  unfold store16
  by_cases h : cp ≥ 0x10000
  · have hlen : (putUtf16 cp).length = 2 := by
      rw [putUtf16, if_pos h]
      rfl
    rw [if_pos h, hlen]
    by_cases hfit : out.length + 2 > cap
    · rw [if_pos hfit, if_neg (Nat.not_le.mpr hfit)]
    · rw [if_neg hfit, if_pos (Nat.not_lt.mp hfit)]
  · have hlen : (putUtf16 cp).length = 1 := by
      rw [putUtf16, if_neg h]
      rfl
    rw [if_neg h, hlen]
    by_cases hfit : out.length + 1 > cap
    · rw [if_pos hfit, if_neg (Nat.not_le.mpr hfit)]
    · rw [if_neg hfit, if_pos (Nat.not_lt.mp hfit)]

theorem items_headRs (s : CString) : items headRs 0 0 s.bytes = points s.bytes := by
  have hlen := s.inMemory
  refine items_congr (n := 0xFFFFFFFE) (fun i hi b rest => headRs_eq (by omega) b rest) _ 0 0 ?_
  omega

theorem items_headC (s : List U8) : items headC 0 0 s = points s :=
  items_congr (fun i _ b rest => headC_eq i b rest) _ 0 0 (Nat.le_refl _)

theorem items_headZig (s : List U8) : items headZig 0 0 s = points s :=
  items_congr (fun i _ b rest => headZig_eq i b rest) _ 0 0 (Nat.le_refl _)

theorem utf8ToUtf16By_eq (impl : Impl) (s : CString) (cap : U32) : utf8ToUtf16By impl s cap =
    if cap = 0 then (-1, []) else result (emit (store16 cap.toNat) [] (points s.bytes)) := by
  cases impl with
  | c =>
    rw [utf8ToUtf16By, utf8ToUtf16C, scan_eq_emit, items_headC, emit_congr (store16C_eq cap.toNat)]
  | rs => rw [utf8ToUtf16By, utf8ToUtf16Rs, scan_eq_emit, items_headRs]
  | zig => rw [utf8ToUtf16By, utf8ToUtf16Zig, scan_eq_emit, items_headZig]

theorem utf8ToUtf16By_of_fits (impl : Impl) {s : CString} {cap : U32} (hcap : cap ≠ 0)
    (hfit : (units s.bytes).length ≤ cap.toNat) :
    utf8ToUtf16By impl s cap = (i32 (units s.bytes).length, units s.bytes) := by
  have hroom : ([] : List U16).length + ((points s.bytes).flatMap putUtf16).length ≤ cap.toNat := by
    rw [List.length_nil, Nat.zero_add]
    exact hfit
  rw [utf8ToUtf16By_eq, if_neg hcap, emit_of_fits (store16_eq cap.toNat) _ _ hroom]
  rfl

theorem utf8ToUtf16By_of_not_fits (impl : Impl) {s : CString} {cap : U32}
    (hfit : cap = 0 ∨ ¬ (units s.bytes).length ≤ cap.toNat) :
    (utf8ToUtf16By impl s cap).1 = -1 := by
  rw [utf8ToUtf16By_eq]
  by_cases hcap : cap = 0
  · rw [if_pos hcap]
  · have hroom :
        ¬ ([] : List U16).length + ((points s.bytes).flatMap putUtf16).length ≤ cap.toNat := by
      rw [List.length_nil, Nat.zero_add]
      exact hfit.resolve_left hcap
    have hno := emit_of_not_fits (store16_eq cap.toNat) (points s.bytes) [] (Nat.zero_le _) hroom
    rw [if_neg hcap, result, hno]
    rfl

def Converts (impl : Impl) (s : CString) (cap : U32) : Prop :=
  ∃ cs, Decodes s.bytes cs ∧
    if cap ≠ 0 ∧ (toUtf16 cs).length ≤ cap.toNat then
      utf8ToUtf16By impl s cap = (i32 (toUtf16 cs).length, toUtf16 cs)
    else (utf8ToUtf16By impl s cap).1 = -1

/-- A version keeps the contract on exactly the strings without a stray pair. -/
theorem converts_iff (impl : Impl) (s : CString) :
    (∀ cap, Converts impl s cap) ↔ ¬ StrayLead s.bytes := by
  constructor
  · intro h hs
    obtain ⟨cs, hd, hconv⟩ := h 0xFFFFFFFF
    have hmem := s.inMemory
    have hlt := (decodes_compares _ cs hd).2 hs
    have hle := Decodes.length_le hd
    have hcap : (0xFFFFFFFF : U32).toNat = 2 ^ 32 - 1 := rfl
    rw [if_pos ⟨by decide, by omega⟩, utf8ToUtf16By_of_fits impl (by decide) (by omega)] at hconv
    have hlen := congrArg List.length (Prod.mk.inj hconv).2
    omega
  · intro hs cap
    obtain ⟨cs, hd⟩ := decodes_total s.bytes
    have hunits := (decodes_compares _ cs hd).1 hs
    refine ⟨cs, hd, ?_⟩
    rw [← hunits]
    split
    · rename_i hfit
      exact utf8ToUtf16By_of_fits impl hfit.1 hfit.2
    · rename_i hfit
      apply utf8ToUtf16By_of_not_fits
      by_cases hcap : cap = 0
      · exact Or.inl hcap
      · exact Or.inr fun hle => hfit ⟨hcap, hle⟩

theorem strayBytes_noNul : ∀ b ∈ [(0x84 : U8), 0x80], b ≠ 0 := by decide

theorem strayBytes_inMemory : [(0x84 : U8), 0x80].length + 1 < 2 ^ 32 := by decide

def strayBytes : CString := ⟨[0x84, 0x80], strayBytes_noNul, strayBytes_inMemory⟩

theorem strayBytes_merged :
    Decodes strayBytes.bytes [0xFFFD, 0xFFFD] ∧
    ∀ impl, utf8ToUtf16By impl strayBytes 2 = (1, [0x0100]) ∧ ¬ Converts impl strayBytes 2 := by
  have h1 : Tail (0x84 : U8).toNat := by decide
  have h2 : Tail (0x80 : U8).toNat := by decide
  refine ⟨.bad 0x84 [0x80] _ (not_starts_of_tail h1 _) (.bad 0x80 [] _ (not_starts_of_tail h2 _) .nil),
    fun impl => ?_⟩
  have heq : utf8ToUtf16By impl strayBytes 2 = (1, [0x0100]) := by cases impl <;> decide
  refine ⟨heq, ?_⟩
  rintro ⟨cs, hd, hconv⟩
  have hpair : StrayPair 0x84 [0x80] := ⟨0x80, [], rfl, h1, by decide, h2⟩
  obtain ⟨b1, rest, cs', -, rfl, -⟩ := hpair.decodes hd
  have hle := Decodes.length_le hd
  rw [heq, if_pos ⟨by decide, hle⟩, toUtf16_cons, toUtf16_cons] at hconv
  have hlen := congrArg List.length (Prod.mk.inj hconv).2
  have hone : (utf16 replacement).length = 1 := rfl
  rw [List.length_append, List.length_append, hone] at hlen
  change 1 = 1 + (1 + _) at hlen
  omega

end Ezos.Text
