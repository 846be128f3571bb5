import Ezos.Text.Utf
import Ezos.Lib.Unicode

/-!
# One code point

The three versions read the same code point at every index below `2^32 - 2`. What they read is
said in arithmetic and compared with the encoder: they take a well-formed sequence for what it
is, and everything else for U+FFFD, except a continuation byte that is itself followed by one.
-/

namespace Ezos.Text

open Exfat Lib.Scan Lib.Unicode

set_option autoImplicit false

theorem widen_lt : ∀ b : U8, ((b.setWidth 32 : U32) < 0x80 ↔ b < 0x80) ∧
    ((b.setWidth 32 : U32) < 0xE0 ↔ b < 0xE0) ∧ ((b.setWidth 32 : U32) < 0xF0 ↔ b < 0xF0) ∧
    ((b.setWidth 32 : U32) < 0xF8 ↔ b < 0xF8) := by decide

theorem widen_and : ∀ b : U8, (b.setWidth 32 : U32) &&& 0x1F = (b &&& 0x1F).setWidth 32 ∧
    (b.setWidth 32 : U32) &&& 0x0F = (b &&& 0x0F).setWidth 32 ∧
    (b.setWidth 32 : U32) &&& 0x07 = (b &&& 0x07).setWidth 32 ∧
    (b.setWidth 32 : U32) &&& 0x3F = (b &&& 0x3F).setWidth 32 := by decide

theorem widen_and_iff : ∀ b : U8, ((b.setWidth 32 : U32) &&& 0x1E = 0 ↔ b &&& 0x1E = 0) ∧
    ((b.setWidth 32 : U32) &&& 0xC0 = 0x80 ↔ b &&& 0xC0 = 0x80) := by decide

theorem isContinuation_eq_false_iff (b : U8) : isContinuation b = false ↔ b &&& 0xC0 ≠ 0x80 := by
  unfold isContinuation
  exact decide_eq_false_iff_not

theorem cont_cases (p : U8) :
    isContinuation p = false ∧ cont p = none ∨
      isContinuation p = true ∧ cont p = some ((p &&& 0x3F).setWidth 32) := by
  unfold cont
  cases h : isContinuation p with
  | false => exact Or.inl ⟨rfl, if_pos ((isContinuation_eq_false_iff p).mp h)⟩
  | true =>
    have hc : ¬ p &&& 0xC0 ≠ 0x80 := by
      intro hne
      rw [(isContinuation_eq_false_iff p).mpr hne] at h
      cases h
    exact Or.inr ⟨rfl, if_neg hc⟩

theorem headRs_eq {i : Nat} (hi : i + 1 < 0xFFFFFFFF) (b : U8) (rest : List U8) :
    headRs i b rest = decodeUtf8Head b rest := by
  have hguard : ¬ i + 1 ≥ 0xFFFFFFFF := by omega
  unfold headRs decodeUtf8Head bad
  simp only [isContinuation_eq_false_iff, hguard, false_or]
  by_cases hE : b < 0xE0
  · simp only [hE, if_true]
  · simp only [hE, if_false, and_false]

theorem headZig_eq (i : Nat) (b : U8) (rest : List U8) :
    headZig i b rest = decodeUtf8Head b rest := by
  unfold headZig decodeUtf8Head bad
  simp only [isContinuation_eq_false_iff, ne_eq, (widen_lt _).1, (widen_lt _).2.1, (widen_lt _).2.2.1,
    (widen_lt _).2.2.2, (widen_and _).1, (widen_and _).2.1, (widen_and _).2.2.1, (widen_and _).2.2.2,
    (widen_and_iff _).1, (widen_and_iff _).2]
  by_cases hE : b < 0xE0
  · simp only [hE, if_true]
  · simp only [hE, if_false, and_false]

theorem headC_eq (i : Nat) (b : U8) (rest : List U8) :
    headC i b rest = decodeUtf8Head b rest := by
  unfold headC decodeUtf8Head bad
  simp only [(widen_lt _).1, (widen_lt _).2.1, (widen_lt _).2.2.1, (widen_lt _).2.2.2,
    (widen_and _).1, (widen_and _).2.1, (widen_and _).2.2.1, (widen_and_iff _).1]
  rcases cont_cases (rest.getD 0 0) with ⟨h1, hc1⟩ | ⟨h1, hc1⟩ <;>
  rcases cont_cases (rest.getD 1 0) with ⟨h2, hc2⟩ | ⟨h2, hc2⟩ <;>
  rcases cont_cases (rest.getD 2 0) with ⟨h3, hc3⟩ | ⟨h3, hc3⟩ <;>
  simp only [h1, hc1, h2, hc2, h3, hc3, if_true, Bool.true_eq_false, if_false] <;>
  by_cases hE : b < 0xE0 <;>
  simp only [hE, if_true, if_false, and_false]

def Tail (n : Nat) : Prop := 0x80 ≤ n ∧ n < 0xC0

instance (n : Nat) : Decidable (Tail n) := inferInstanceAs (Decidable (_ ∧ _))

def headNat (b b1 b2 b3 : Nat) : Nat × Nat :=
  if b < 0x80 then (b, 1)
  else if b < 0xE0 then
    if b % 32 < 2 then (replacement, 1)
    else if ¬ Tail b1 then (replacement, 1)
    else (b % 32 * 64 + b1 % 64, 2)
  else if b < 0xF0 then
    if ¬ Tail b1 then (replacement, 1)
    else if ¬ Tail b2 then (replacement, 1)
    else
      let v := b % 16 * 4096 + b1 % 64 * 64 + b2 % 64
      if (0xD800 ≤ v ∧ v < 0xE000) ∨ v < 0x800 then (replacement, 1) else (v, 3)
  else if b < 0xF8 then
    if ¬ Tail b1 then (replacement, 1)
    else if ¬ Tail b2 then (replacement, 1)
    else if ¬ Tail b3 then (replacement, 1)
    else
      let v := b % 8 * 262144 + b1 % 64 * 4096 + b2 % 64 * 64 + b3 % 64
      if v < 0x10000 ∨ v > 0x10FFFF then (replacement, 1) else (v, 4)
  else (replacement, 1)

theorem toNat_bits : ∀ b : U8, ((b &&& 0x1F).setWidth 32 : U32).toNat = b.toNat % 32 ∧
    ((b &&& 0x0F).setWidth 32 : U32).toNat = b.toNat % 16 ∧
    ((b &&& 0x07).setWidth 32 : U32).toNat = b.toNat % 8 ∧
    ((b &&& 0x3F).setWidth 32 : U32).toNat = b.toNat % 64 := by decide

theorem toNat_tests : ∀ b : U8, (b < 0x80 ↔ b.toNat < 0x80) ∧ (b < 0xE0 ↔ b.toNat < 0xE0) ∧
    (b < 0xF0 ↔ b.toNat < 0xF0) ∧ (b < 0xF8 ↔ b.toNat < 0xF8) ∧
    (b &&& 0x1E = 0 ↔ b.toNat % 32 < 2) ∧ (isContinuation b = false ↔ ¬ Tail b.toNat) := by
  decide

theorem toNat_or_low (x y : U32) (k : Nat) (hx : x.toNat % 2 ^ k = 0) (hy : y.toNat < 2 ^ k) :
    (x ||| y).toNat = x.toNat + y.toNat := by
  obtain ⟨z, hz⟩ := Nat.dvd_of_mod_eq_zero hx
  rw [BitVec.toNat_or, hz, Nat.mul_comm, ← Nat.shiftLeft_eq, Nat.shiftLeft_add_eq_or_of_lt hy]

theorem toNat_shl (x : U32) (k : Nat) (hx : x.toNat * 2 ^ k < 2 ^ 32) :
    (x <<< k).toNat = x.toNat * 2 ^ k := by
  rw [BitVec.toNat_shiftLeft, Nat.shiftLeft_eq, Nat.mod_eq_of_lt hx]

theorem toNat_two (x y : U32) (hx : x.toNat < 32) (hy : y.toNat < 64) :
    ((x <<< 6) ||| y).toNat = x.toNat * 64 + y.toNat := by
  have h := toNat_shl x 6 (by omega)
  rw [toNat_or_low _ _ 6 (by omega) (by omega), h]
  rfl

theorem toNat_three (x y z : U32) (hx : x.toNat < 16) (hy : y.toNat < 64) (hz : z.toNat < 64) :
    ((x <<< 12) ||| (y <<< 6) ||| z).toNat = x.toNat * 4096 + y.toNat * 64 + z.toNat := by
  have h1 := toNat_shl x 12 (by omega)
  have h2 := toNat_shl y 6 (by omega)
  have h12 := toNat_or_low (x <<< 12) (y <<< 6) 12 (by omega) (by omega)
  rw [toNat_or_low _ _ 6 (by omega) (by omega), h12, h1, h2]
  rfl

theorem toNat_four (x y z w : U32) (hx : x.toNat < 8) (hy : y.toNat < 64) (hz : z.toNat < 64)
    (hw : w.toNat < 64) : ((x <<< 18) ||| (y <<< 12) ||| (z <<< 6) ||| w).toNat =
      x.toNat * 262144 + y.toNat * 4096 + z.toNat * 64 + w.toNat := by
  have h1 := toNat_shl x 18 (by omega)
  have h2 := toNat_shl y 12 (by omega)
  have h3 := toNat_shl z 6 (by omega)
  have h12 := toNat_or_low (x <<< 18) (y <<< 12) 18 (by omega) (by omega)
  have h123 := toNat_or_low ((x <<< 18) ||| (y <<< 12)) (z <<< 6) 12 (by omega) (by omega)
  rw [toNat_or_low _ _ 6 (by omega) (by omega), h123, h12, h1, h2, h3]
  rfl

theorem surrogate_tests {cp : U32} {v : Nat} (h : cp.toNat = v) :
    ((0xD800 ≤ cp ∧ cp < 0xE000) ∨ cp < 0x800 ↔ (0xD800 ≤ v ∧ v < 0xE000) ∨ v < 0x800) ∧
      (cp < 0x10000 ∨ cp > 0x10FFFF ↔ v < 0x10000 ∨ v > 0x10FFFF) := by
  subst h
  exact ⟨Iff.rfl, Iff.rfl⟩

theorem decodeUtf8Head_toNat (b : U8) (rest : List U8) :
    ((decodeUtf8Head b rest).1.toNat, (decodeUtf8Head b rest).2) =
      headNat b.toNat (rest.getD 0 0).toNat (rest.getD 1 0).toNat (rest.getD 2 0).toNat := by
  obtain ⟨hb1, hb2, hb3, hb4, hb5, -⟩ := toNat_tests b
  obtain ⟨hm1, hm2, hm3, -⟩ := toNat_bits b
  unfold decodeUtf8Head headNat replacement
  generalize rest.getD 0 0 = x
  generalize rest.getD 1 0 = y
  generalize rest.getD 2 0 = z
  have hx := (toNat_bits x).2.2.2
  have hy := (toNat_bits y).2.2.2
  have hz := (toNat_bits z).2.2.2
  have h2 := toNat_two ((b &&& 0x1F).setWidth 32) ((x &&& 0x3F).setWidth 32) (by omega) (by omega)
  have h3 := toNat_three ((b &&& 0x0F).setWidth 32) ((x &&& 0x3F).setWidth 32)
    ((y &&& 0x3F).setWidth 32) (by omega) (by omega) (by omega)
  have h4 := toNat_four ((b &&& 0x07).setWidth 32) ((x &&& 0x3F).setWidth 32)
    ((y &&& 0x3F).setWidth 32) ((z &&& 0x3F).setWidth 32) (by omega) (by omega) (by omega) (by omega)
  rw [hm1, hx] at h2
  rw [hm2, hx, hy] at h3
  rw [hm3, hx, hy, hz] at h4
  have hb : (b.setWidth 32 : U32).toNat = b.toNat := BitVec.toNat_setWidth_of_le (by decide)
  have hr : (0xFFFD : U32).toNat = 0xFFFD := rfl
  simp only [hb1, hb2, hb3, hb4, hb5, (toNat_tests _).2.2.2.2.2, (surrogate_tests h3).1,
    (surrogate_tests h4).2]
  apply Prod.ext
  · simp only [apply_ite Prod.fst, apply_ite BitVec.toNat, h2, h3, h4, hb, hr]
  · simp only [apply_ite Prod.snd]

theorem ofNat_eq {n : Nat} {b : U8} (h : n = b.toNat) : BitVec.ofNat 8 n = b := by
  rw [h, BitVec.ofNat_toNat, BitVec.setWidth_eq]

theorem toNat_ofNat_byte {n : Nat} (h : n < 256) : (BitVec.ofNat 8 n).toNat = n := by
  rw [BitVec.toNat_ofNat, Nat.mod_eq_of_lt h]

theorem head_utf8 {c : Nat} (h : Scalar c) (rest : List U8) :
    ∃ b t, utf8 c = b :: t ∧ (decodeUtf8Head b (t ++ rest)).1.toNat = c ∧
      (decodeUtf8Head b (t ++ rest)).2 = t.length + 1 := by
  unfold Scalar at h
  unfold utf8
  split
  · refine ⟨_, [], rfl, ?_⟩
    have hn := decodeUtf8Head_toNat (BitVec.ofNat 8 c) rest
    rw [toNat_ofNat_byte (by omega), headNat, if_pos (by omega)] at hn
    exact Prod.mk.inj hn
  · split
    · refine ⟨_, [_], rfl, ?_⟩
      have hn := decodeUtf8Head_toNat (BitVec.ofNat 8 (0xC0 + c / 64))
        (BitVec.ofNat 8 (0x80 + c % 64) :: rest)
      rw [toNat_ofNat_byte (by omega), List.getD_cons_zero, toNat_ofNat_byte (by omega), headNat,
        if_neg (by omega), if_pos (by omega), if_neg (by omega), if_neg (by unfold Tail; omega)] at hn
      refine (Prod.mk.inj hn).imp ?_ id
      intro hc
      exact hc.trans (by omega)
    · split
      · refine ⟨_, [_, _], rfl, ?_⟩
        have hn := decodeUtf8Head_toNat (BitVec.ofNat 8 (0xE0 + c / 4096))
          (BitVec.ofNat 8 (0x80 + c / 64 % 64) :: BitVec.ofNat 8 (0x80 + c % 64) :: rest)
        rw [toNat_ofNat_byte (by omega), List.getD_cons_zero, toNat_ofNat_byte (by omega),
          List.getD_cons_succ, List.getD_cons_zero, toNat_ofNat_byte (by omega), headNat,
          if_neg (by omega), if_neg (by omega), if_pos (by omega), if_neg (by unfold Tail; omega),
          if_neg (by unfold Tail; omega)] at hn
        have hv : (0xE0 + c / 4096) % 16 * 4096 + (0x80 + c / 64 % 64) % 64 * 64 +
            (0x80 + c % 64) % 64 = c := by omega
        rw [hv] at hn
        dsimp only at hn
        rw [if_neg (by omega)] at hn
        exact Prod.mk.inj hn
      · refine ⟨_, [_, _, _], rfl, ?_⟩
        have hn := decodeUtf8Head_toNat (BitVec.ofNat 8 (0xF0 + c / 262144))
          (BitVec.ofNat 8 (0x80 + c / 4096 % 64) :: BitVec.ofNat 8 (0x80 + c / 64 % 64) ::
            BitVec.ofNat 8 (0x80 + c % 64) :: rest)
        rw [toNat_ofNat_byte (by omega), List.getD_cons_zero, toNat_ofNat_byte (by omega),
          List.getD_cons_succ, List.getD_cons_zero, toNat_ofNat_byte (by omega),
          List.getD_cons_succ, List.getD_cons_succ, List.getD_cons_zero,
          toNat_ofNat_byte (by omega), headNat,
          if_neg (by omega), if_neg (by omega), if_neg (by omega), if_pos (by omega),
          if_neg (by unfold Tail; omega), if_neg (by unfold Tail; omega),
          if_neg (by unfold Tail; omega)] at hn
        have hv : (0xF0 + c / 262144) % 8 * 262144 + (0x80 + c / 4096 % 64) % 64 * 4096 +
            (0x80 + c / 64 % 64) % 64 * 64 + (0x80 + c % 64) % 64 = c := by omega
        rw [hv] at hn
        dsimp only at hn
        rw [if_neg (by omega)] at hn
        exact Prod.mk.inj hn

def StrayPair (b : U8) (rest : List U8) : Prop :=
  ∃ b1 rest', rest = b1 :: rest' ∧ Tail b.toNat ∧ b &&& 0x1E ≠ 0 ∧ Tail b1.toNat

theorem exists_of_tail {l : List U8} (h : Tail (l.getD 0 0).toNat) :
    ∃ x t, l = x :: t ∧ Tail x.toNat := by
  cases l with
  | nil => exact absurd h (by decide)
  | cons x t => exact ⟨x, t, rfl, h⟩

inductive HeadIs (b : U8) (rest : List U8) (r : Nat × Nat) : Prop
  | scalar (t rest' : List U8) : rest = t ++ rest' → r.2 = t.length + 1 → Scalar r.1 →
      utf8 r.1 = b :: t → HeadIs b rest r
  | bad : r = (replacement, 1) → HeadIs b rest r
  | stray : StrayPair b rest → r.2 = 2 → r.1 < 0x800 → HeadIs b rest r

theorem headNat_is (b : U8) (rest : List U8) : HeadIs b rest
    (headNat b.toNat (rest.getD 0 0).toNat (rest.getD 1 0).toNat (rest.getD 2 0).toNat) := by
  have hlt := b.isLt
  unfold headNat
  split
  · refine .scalar [] rest rfl rfl (Or.inl (by omega)) ?_
    rw [utf8, if_pos (by assumption), ofNat_eq rfl]
  · split
    · split
      · exact .bad rfl
      · split
        · exact .bad rfl
        · rename_i hb hE h1E hx
          obtain ⟨x, t, rfl, htx⟩ := exists_of_tail (not_not.mp hx)
          rw [List.getD_cons_zero]
          unfold Tail at htx
          by_cases hC : b.toNat < 0xC0
          · refine .stray ⟨x, t, rfl, ⟨by omega, hC⟩, ?_, htx⟩ rfl (by dsimp only; omega)
            rwa [ne_eq, (toNat_tests b).2.2.2.2.1]
          · refine .scalar [x] t rfl rfl (Or.inl (by dsimp only; omega)) ?_
            dsimp only
            rw [utf8, if_neg (by omega), if_pos (by omega), ofNat_eq (b := b) (by omega),
              ofNat_eq (b := x) (by omega)]
    · split
      · split
        · exact .bad rfl
        · split
          · exact .bad rfl
          · rename_i hb hE hF hx hy
            obtain ⟨x, t, rfl, htx⟩ := exists_of_tail (not_not.mp hx)
            rw [List.getD_cons_succ] at hy
            obtain ⟨y, t, rfl, hty⟩ := exists_of_tail (not_not.mp hy)
            simp only [List.getD_cons_succ, List.getD_cons_zero]
            unfold Tail at htx hty
            split
            · exact .bad rfl
            · refine .scalar [x, y] t rfl rfl ?_ ?_
              · unfold Scalar
                dsimp only
                omega
              · dsimp only
                rw [utf8, if_neg (by omega), if_neg (by omega), if_pos (by omega),
                  ofNat_eq (b := b) (by omega), ofNat_eq (b := x) (by omega),
                  ofNat_eq (b := y) (by omega)]
      · split
        · split
          · exact .bad rfl
          · split
            · exact .bad rfl
            · split
              · exact .bad rfl
              · rename_i hb hE hF hF8 hx hy hz
                obtain ⟨x, t, rfl, htx⟩ := exists_of_tail (not_not.mp hx)
                rw [List.getD_cons_succ] at hy hz
                obtain ⟨y, t, rfl, hty⟩ := exists_of_tail (not_not.mp hy)
                rw [List.getD_cons_succ] at hz
                obtain ⟨z, t, rfl, htz⟩ := exists_of_tail (not_not.mp hz)
                simp only [List.getD_cons_succ, List.getD_cons_zero]
                unfold Tail at htx hty htz
                split
                · exact .bad rfl
                · refine .scalar [x, y, z] t rfl rfl ?_ ?_
                  · unfold Scalar
                    dsimp only
                    omega
                  · dsimp only
                    rw [utf8, if_neg (by omega), if_neg (by omega), if_neg (by omega),
                      ofNat_eq (b := b) (by omega), ofNat_eq (b := x) (by omega),
                      ofNat_eq (b := y) (by omega), ofNat_eq (b := z) (by omega)]
        · exact .bad rfl

end Ezos.Text
