import Ezos.Exfat.Dir
import Ezos.Lib.OnesComplement
import Ezos.Text.RoundTrip
import Ezos.Text.Levenshtein

/-!
# Checksums, and the agreement of the three versions

The exFAT sums rotate: as a rotation, as two shifts of the same width, or as two shifts after
the promotion of a `uint16_t` to `int`. The Internet checksum adds up 32-bit words; an overflow
wraps in C and in Rust (`overflow-checks = false`) and is undefined in Zig with the runtime
safety switched off, which is `none` here.
-/

namespace Ezos.Text

open Exfat Lib.Memory Lib.Unicode Lib.EditDistance Lib.OnesComplement

set_option autoImplicit false

def exfatChecksumC (data : Mem) (len : Nat) : U32 :=
  (List.range len).foldl (fun chk i => ((chk <<< 31) ||| (chk >>> 1)) + (data i).setWidth 32) 0

def exfatChecksumZig (data : Mem) (len : Nat) : U32 :=
  (List.range len).foldl (fun sum i => sum.rotateLeft 31 + (data i).setWidth 32) 0

def exfatChecksumBy : Impl → Mem → Nat → U32
  | .c => exfatChecksumC
  | .rs => exfatChecksum
  | .zig => exfatChecksumZig

/-- `(uint16_t)(((sum << 15) | (sum >> 1)) + x)`, computed in `int`. -/
def mixPromoted (sum : U16) (x : U32) : U16 :=
  (((sum.setWidth 32 <<< 15) ||| (sum.setWidth 32 >>> 1)) + x).setWidth 16

def exfatSetChecksumC (data : Mem) (len : Nat) : U16 :=
  (List.range len).foldl
    (fun sum i => if i = 2 ∨ i = 3 then sum else mixPromoted sum ((data i).setWidth 32)) 0

def exfatSetChecksumZig (data : Mem) (len : Nat) : U16 :=
  (List.range len).foldl
    (fun sum i => if i ≠ 2 ∧ i ≠ 3 then sum.rotateLeft 15 + (data i).setWidth 16 else sum) 0

def exfatSetChecksumBy : Impl → Mem → Nat → U16
  | .c => exfatSetChecksumC
  | .rs => exfatSetChecksum
  | .zig => exfatSetChecksumZig

def exfatNameHashC (name : List U16) : U16 :=
  name.foldl (fun hash ch =>
    mixPromoted hash ((if 0x61 ≤ ch ∧ ch ≤ 0x7A then ch - 32 else ch).setWidth 32)) 0

def exfatNameHashZig (utf16 : List U16) : U16 :=
  utf16.foldl (fun hash c =>
    hash.rotateLeft 15 + (if c ≥ 0x61 ∧ c ≤ 0x7A then c - 32 else c)) 0

def exfatNameHashBy : Impl → List U16 → U16
  | .c => exfatNameHashC
  | .rs => exfatNameHash
  | .zig => exfatNameHashZig

theorem mixPromoted_eq (sum : U16) (x : U32) :
    mixPromoted sum x = sum.rotateLeft 15 + x.setWidth 16 := by
  have hrot : ((sum.setWidth 32 <<< 15) ||| (sum.setWidth 32 >>> 1) : U32).setWidth 16 =
      sum.rotateLeft 15 := by
    apply BitVec.eq_of_getLsbD_eq
    intro i hi
    have hr : sum.rotateLeft 15 = (sum <<< 15) ||| (sum >>> 1) := rfl
    rw [hr]
    simp only [BitVec.getLsbD_setWidth, BitVec.getLsbD_or, BitVec.getLsbD_shiftLeft,
      BitVec.getLsbD_ushiftRight]
    have h32 : i < 32 := by omega
    have h1 : 1 + i < 32 := by omega
    have h2 : i - 15 < 32 := by omega
    simp only [hi, h32, h1, h2, decide_true, Bool.true_and]
  rw [mixPromoted, BitVec.setWidth_add _ _ (by decide), hrot]

theorem exfatChecksumBy_eq (impl : Impl) (data : Mem) (len : Nat) :
    exfatChecksumBy impl data len = exfatChecksum data len := by
  cases impl with
  | c => rfl
  | rs => rfl
  | zig => rfl

theorem exfatSetChecksumBy_eq (impl : Impl) (data : Mem) (len : Nat) :
    exfatSetChecksumBy impl data len = exfatSetChecksum data len := by
  cases impl with
  | c =>
    have hstep : (fun (sum : U16) i =>
        if i = 2 ∨ i = 3 then sum else mixPromoted sum ((data i).setWidth 32)) =
        fun sum i => if i ≠ 2 ∧ i ≠ 3 then sum.rotateLeft 15 + (data i).setWidth 16 else sum := by
      funext sum i
      rw [mixPromoted_eq, BitVec.setWidth_setWidth_of_le _ (by decide)]
      by_cases h : i = 2 ∨ i = 3
      · rw [if_pos h, if_neg (by omega)]
      · rw [if_neg h, if_pos (by omega)]
    rw [exfatSetChecksumBy, exfatSetChecksumC, hstep]
    rfl
  | rs => rfl
  | zig => rfl

theorem exfatNameHashBy_eq (impl : Impl) (name : List U16) :
    exfatNameHashBy impl name = exfatNameHash name := by
  cases impl with
  | c =>
    rw [exfatNameHashBy, exfatNameHashC]
    simp only [mixPromoted_eq, BitVec.setWidth_setWidth_of_le _ (show 16 ≤ 32 by decide),
      BitVec.setWidth_eq]
    rfl
  | rs => rfl
  | zig => rfl

/-! ## The Internet checksum -/

theorem carry_eq_zero_iff (s : U32) : s >>> 16 = 0 ↔ s.toNat < 65536 := by
  rw [eq_zero_iff, BitVec.toNat_ushiftRight, Nat.shiftRight_eq_div_pow]
  omega

theorem toNat_carried (s : U32) :
    ((s &&& (0xFFFF : U32)) + (s >>> 16)).toNat = s.toNat % 65536 + s.toNat / 65536 := by
  have hlt := s.isLt
  have hmask : (0xFFFF : U32).toNat = 2 ^ 16 - 1 := rfl
  rw [BitVec.toNat_add, BitVec.toNat_and, hmask, Nat.and_two_pow_sub_one_eq_mod,
    BitVec.toNat_ushiftRight, Nat.shiftRight_eq_div_pow]
  omega

/-- `while (s >> 16) s = (s & 0xFFFF) + (s >> 16)` -/
def foldCarry (s : U32) : U32 :=
  if s >>> 16 = 0 then s else foldCarry ((s &&& (0xFFFF : U32)) + (s >>> 16))
termination_by s.toNat
decreasing_by
  rename_i h
  rw [carry_eq_zero_iff] at h
  rw [toNat_carried]
  omega

theorem foldCarry_toNat (s : U32) : (foldCarry s).toNat = fold s.toNat := by
  have hlt := s.isLt
  -- two rounds end the loop
  have hend : ∀ t : U32, t.toNat < 65536 → foldCarry t = t := by
    intro t ht
    rw [foldCarry, if_pos ((carry_eq_zero_iff t).mpr ht)]
  have hround : ∀ t : U32, ¬ t.toNat < 65536 →
      foldCarry t = foldCarry ((t &&& (0xFFFF : U32)) + (t >>> 16)) := by
    intro t ht
    rw [foldCarry, if_neg fun h => ht ((carry_eq_zero_iff t).mp h)]
  have h1 := toNat_carried s
  have h2 := toNat_carried ((s &&& (0xFFFF : U32)) + (s >>> 16))
  unfold fold foldOnce
  by_cases hs : s.toNat < 65536
  · rw [hend s hs, if_pos hs, if_pos hs]
  · rw [hround s hs, if_neg hs]
    by_cases hs' : s.toNat % 65536 + s.toNat / 65536 < 65536
    · rw [hend _ (by omega), if_pos hs', h1]
    · rw [hround _ (by omega), hend _ (by omega), if_neg hs', h2, h1]

/-- The word loop of `cksum_raw_c`, which moves its pointer. -/
def addWordsC (m : Mem) : Nat → Nat → U32 → U32
  | p, n + 2, s =>
    addWordsC m (p + 2) n (s + (((m p).setWidth 32 <<< 8) ||| (m (p + 1)).setWidth 32))
  | p, 1, s => s + ((m p).setWidth 32 <<< 8)
  | _, 0, s => s

def cksumRawC (m : Mem) (p n : Nat) : U32 := foldCarry (addWordsC m p n 0)

def cksumC (m : Mem) (p n : Nat) : U16 := (~~~ cksumRawC m p n).setWidth 16

/-- The word loop of `cksum_raw_rs`, which counts up `i` and down `left`. -/
def addWordsRs (m : Mem) (p : Nat) : Nat → Nat → U32 → U32
  | i, left + 2, s =>
    addWordsRs m p (i + 2) left
      (s + (((m (p + i)).setWidth 32 <<< 8) ||| (m (p + (i + 1))).setWidth 32))
  | i, 1, s => s + ((m (p + i)).setWidth 32 <<< 8)
  | _, 0, s => s

def cksumRawRs (m : Mem) (p n : Nat) : U32 := foldCarry (addWordsRs m p 0 n 0)

def cksumRs (m : Mem) (p n : Nat) : U16 := ~~~ (cksumRawRs m p n).setWidth 16

def uncheckedAdd (x y : U32) : Option U32 :=
  if x.toNat + y.toNat < 2 ^ 32 then some (x + y) else none

def addWordsZig (m : Mem) (p : Nat) : Nat → Nat → U32 → Option U32
  | i, left + 2, s =>
    (uncheckedAdd s (((m (p + i)).setWidth 32 <<< 8) ||| (m (p + (i + 1))).setWidth 32)).bind
      (addWordsZig m p (i + 2) left)
  | i, 1, s => uncheckedAdd s ((m (p + i)).setWidth 32 <<< 8)
  | _, 0, s => some s

def cksumRawZig (m : Mem) (p n : Nat) : Option U32 := (addWordsZig m p 0 n 0).map foldCarry

def cksumZig (m : Mem) (p n : Nat) : Option U16 :=
  (cksumRawZig m p n).map fun s => (~~~ s).setWidth 16

def cksumRawBy : Impl → Mem → Nat → Nat → Option U32
  | .c, m, p, n => some (cksumRawC m p n)
  | .rs, m, p, n => some (cksumRawRs m p n)
  | .zig, m, p, n => cksumRawZig m p n

def cksumBy : Impl → Mem → Nat → Nat → Option U16
  | .c, m, p, n => some (cksumC m p n)
  | .rs, m, p, n => some (cksumRs m p n)
  | .zig, m, p, n => cksumZig m p n

theorem addWordsRs_eq (m : Mem) (p i n : Nat) (s : U32) :
    addWordsRs m p i n s = addWordsC m (p + i) n s := by
  induction n using Nat.strong_induction_on generalizing i s with
  | _ n ih =>
    match n with
    | 0 => rw [addWordsRs, addWordsC]
    | 1 => rw [addWordsRs, addWordsC]
    | n + 2 =>
      rw [addWordsRs, addWordsC, ih n (by omega)]
      rfl

theorem toNat_word (x y : U8) :
    (((x.setWidth 32 <<< 8) ||| y.setWidth 32 : U32)).toNat = x.toNat * 256 + y.toNat ∧
      (x.setWidth 32 <<< 8 : U32).toNat = x.toNat * 256 := by
  have hx := x.isLt
  have hy := y.isLt
  have hwx : (x.setWidth 32 : U32).toNat = x.toNat := BitVec.toNat_setWidth_of_le (by decide)
  have hwy : (y.setWidth 32 : U32).toNat = y.toNat := BitVec.toNat_setWidth_of_le (by decide)
  have hshl : (x.setWidth 32 <<< 8 : U32).toNat = x.toNat * 256 := by
    rw [toNat_shl _ 8 (by omega), hwx]
    rfl
  refine ⟨?_, hshl⟩
  rw [toNat_or_low _ _ 8 (by omega) (by omega), hshl, hwy]

theorem uncheckedAdd_eq {x y : U32} (h : x.toNat + y.toNat < 2 ^ 32) :
    uncheckedAdd x y = some (x + y) ∧ (x + y).toNat = x.toNat + y.toNat :=
  ⟨if_pos h, BitVec.toNat_add_of_lt h⟩

theorem addWords_spec (m : Mem) (p i n : Nat) (s : U32)
    (h : s.toNat + sumWords m (p + i) n < 2 ^ 32) :
    (addWordsC m (p + i) n s).toNat = s.toNat + sumWords m (p + i) n ∧
      addWordsZig m p i n s = some (addWordsC m (p + i) n s) := by
  induction n using Nat.strong_induction_on generalizing i s with
  | _ n ih =>
    match n with
    | 0 =>
      rw [addWordsC, addWordsZig, sumWords]
      exact ⟨rfl, rfl⟩
    | 1 =>
      have hw := (toNat_word (m (p + i)) 0).2
      rw [sumWords] at h
      obtain ⟨hzig, hadd⟩ := uncheckedAdd_eq (hw.symm ▸ h)
      rw [addWordsC, addWordsZig, sumWords, hadd, hw]
      exact ⟨rfl, hzig⟩
    | n + 2 =>
      have hw := (toNat_word (m (p + i)) (m (p + (i + 1)))).1
      rw [sumWords, Nat.add_assoc p i 1] at h
      obtain ⟨hzig, hadd⟩ := uncheckedAdd_eq
        (show s.toNat + (((m (p + i)).setWidth 32 <<< 8) ||| (m (p + (i + 1))).setWidth 32 : U32).toNat <
          2 ^ 32 by omega)
      have hnext := ih n (by omega) (i + 2)
        (s + (((m (p + i)).setWidth 32 <<< 8) ||| (m (p + (i + 1))).setWidth 32))
        (by rw [hadd, hw, ← Nat.add_assoc p i 2]; omega)
      rw [addWordsC, addWordsZig, sumWords, hzig, Option.bind_some, Nat.add_assoc p i 1,
        Nat.add_assoc p i 2]
      refine ⟨?_, hnext.2⟩
      rw [hnext.1, hadd, hw]
      omega

theorem cksumRawBy_eq (impl : Impl) (m : Mem) (p n : Nat) (hn : n ≤ 131072) :
    cksumRawBy impl m p n = some (BitVec.ofNat 32 (cksumRaw m p n)) := by
  have hsum := sumWords_le m p n
  have hzero : (0 : U32).toNat = 0 := rfl
  obtain ⟨hnat, hzig⟩ := addWords_spec m p 0 n 0 (by rw [hzero, Nat.zero_add, Nat.add_zero]; omega)
  rw [Nat.add_zero, hzero, Nat.zero_add] at hnat
  rw [Nat.add_zero] at hzig
  have hraw : cksumRawC m p n = BitVec.ofNat 32 (cksumRaw m p n) := by
    have hlt := (cksumRawC m p n).isLt
    have hval : (cksumRawC m p n).toNat = cksumRaw m p n := by
      rw [cksumRawC, foldCarry_toNat, hnat]
      rfl
    apply BitVec.eq_of_toNat_eq
    rw [BitVec.toNat_ofNat, ← hval, Nat.mod_eq_of_lt hlt]
  cases impl with
  | c => rw [cksumRawBy, hraw]
  | rs =>
    rw [cksumRawBy, cksumRawRs, addWordsRs_eq]
    exact congrArg some hraw
  | zig =>
    rw [cksumRawBy, cksumRawZig, hzig]
    exact congrArg some hraw

theorem cksumBy_eq (impl : Impl) (m : Mem) (p n : Nat) (hn : n ≤ 131072) :
    cksumBy impl m p n = some (cksum m p n) := by
  have hlow : (BitVec.ofNat 32 (cksumRaw m p n)).setWidth 16 = BitVec.ofNat 16 (cksumRaw m p n) := by
    apply BitVec.eq_of_toNat_eq
    rw [BitVec.toNat_setWidth, BitVec.toNat_ofNat, BitVec.toNat_ofNat]
    exact Nat.mod_mod_of_dvd _ (by decide)
  have hraw := cksumRawBy_eq impl m p n hn
  cases impl with
  | c =>
    rw [cksumBy, cksumC, Option.some.inj hraw, BitVec.setWidth_not (by decide), hlow]
    rfl
  | rs =>
    rw [cksumBy, cksumRs, Option.some.inj hraw, hlow]
    rfl
  | zig =>
    rw [cksumRawBy] at hraw
    rw [cksumBy, cksumZig, hraw, Option.map_some, BitVec.setWidth_not (by decide), hlow]
    rfl

/-- The versions agree, on every input of the converters and of the exFAT sums, on every pair of
strings for the limit of 24 and on every packet length. -/
theorem versions_agree (impl impl' : Impl) :
    (∀ us cap, utf16ToUtf8By impl us cap = utf16ToUtf8By impl' us cap) ∧
    (∀ s cap, utf8ToUtf16By impl s cap = utf8ToUtf16By impl' s cap) ∧
    (∀ buf buf' a b, levenshteinBy buf impl a b 24 = levenshteinBy buf' impl' a b 24 ∧
      levenshteinBy buf impl a b 24 =
        if a.bytes.length ≤ 24 ∧ b.bytes.length ≤ 24 then BitVec.ofNat 32 (dist a.bytes b.bytes)
        else 25) ∧
    (∀ data len, exfatChecksumBy impl data len = exfatChecksumBy impl' data len) ∧
    (∀ data len, exfatSetChecksumBy impl data len = exfatSetChecksumBy impl' data len) ∧
    (∀ name, exfatNameHashBy impl name = exfatNameHashBy impl' name) ∧
    (∀ m p n, n ≤ 131072 → cksumRawBy impl m p n = cksumRawBy impl' m p n ∧
      cksumRawBy impl m p n = some (BitVec.ofNat 32 (cksumRaw m p n)) ∧
      cksumBy impl m p n = cksumBy impl' m p n ∧ cksumBy impl m p n = some (cksum m p n)) := by
  refine ⟨fun us cap => ?_, fun s cap => ?_, fun buf buf' a b => ⟨?_, ?_⟩, fun data len => ?_,
    fun data len => ?_, fun name => ?_, fun m p n hn =>
    ⟨?_, cksumRawBy_eq impl m p n hn, ?_, cksumBy_eq impl m p n hn⟩⟩
  · rw [utf16ToUtf8By_eq, utf16ToUtf8By_eq]
  · rw [utf8ToUtf16By_eq, utf8ToUtf16By_eq]
  · rw [levenshteinBy_eq, levenshteinBy_eq]
  · exact levenshteinBy_eq buf impl a b
  · rw [exfatChecksumBy_eq, exfatChecksumBy_eq]
  · rw [exfatSetChecksumBy_eq, exfatSetChecksumBy_eq]
  · rw [exfatNameHashBy_eq, exfatNameHashBy_eq]
  · rw [cksumRawBy_eq impl m p n hn, cksumRawBy_eq impl' m p n hn]
  · rw [cksumBy_eq impl m p n hn, cksumBy_eq impl' m p n hn]

end Ezos.Text
