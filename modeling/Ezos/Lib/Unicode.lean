import Mathlib.Data.List.Basic

/-!
# UTF-8 and UTF-16

A byte string decodes by taking the encoding of a scalar value wherever one starts and
U+FFFD for one byte elsewhere. "Starts" is said through the encoder, so that overlong forms,
surrogates and values over U+10FFFF are excluded without being mentioned.
-/

namespace Ezos.Lib.Unicode

set_option autoImplicit false

abbrev Byte := BitVec 8
abbrev CodeUnit := BitVec 16

def Scalar (c : Nat) : Prop := c < 0xD800 ∨ 0xE000 ≤ c ∧ c < 0x110000

def replacement : Nat := 0xFFFD

def utf8 (c : Nat) : List Byte :=
  if c < 0x80 then [BitVec.ofNat 8 c]
  else if c < 0x800 then [BitVec.ofNat 8 (0xC0 + c / 64), BitVec.ofNat 8 (0x80 + c % 64)]
  else if c < 0x10000 then
    [BitVec.ofNat 8 (0xE0 + c / 4096), BitVec.ofNat 8 (0x80 + c / 64 % 64),
      BitVec.ofNat 8 (0x80 + c % 64)]
  else
    [BitVec.ofNat 8 (0xF0 + c / 262144), BitVec.ofNat 8 (0x80 + c / 4096 % 64),
      BitVec.ofNat 8 (0x80 + c / 64 % 64), BitVec.ofNat 8 (0x80 + c % 64)]

def utf16 (c : Nat) : List CodeUnit :=
  if c < 0x10000 then [BitVec.ofNat 16 c]
  else [BitVec.ofNat 16 (0xD800 + (c - 0x10000) / 1024), BitVec.ofNat 16 (0xDC00 + c % 1024)]

def toUtf8 (cs : List Nat) : List Byte := cs.flatMap utf8

def toUtf16 (cs : List Nat) : List CodeUnit := cs.flatMap utf16

def Starts (s : List Byte) (c : Nat) : Prop := Scalar c ∧ ∃ rest, s = utf8 c ++ rest

inductive Decodes : List Byte → List Nat → Prop
  | nil : Decodes [] []
  | scalar (c : Nat) (rest : List Byte) (cs : List Nat) :
      Scalar c → Decodes rest cs → Decodes (utf8 c ++ rest) (c :: cs)
  | bad (b : Byte) (rest : List Byte) (cs : List Nat) :
      (∀ c, ¬ Starts (b :: rest) c) → Decodes rest cs → Decodes (b :: rest) (replacement :: cs)

inductive Paired : List CodeUnit → Prop
  | nil : Paired []
  | bmp (u : CodeUnit) (us : List CodeUnit) :
      u.toNat < 0xD800 ∨ 0xE000 ≤ u.toNat → Paired us → Paired (u :: us)
  | pair (hi lo : CodeUnit) (us : List CodeUnit) :
      0xD800 ≤ hi.toNat ∧ hi.toNat < 0xDC00 → 0xDC00 ≤ lo.toNat ∧ lo.toNat < 0xE000 →
      Paired us → Paired (hi :: lo :: us)

@[simp] theorem toUtf8_nil : toUtf8 [] = [] := rfl

@[simp] theorem toUtf8_cons (c : Nat) (cs : List Nat) : toUtf8 (c :: cs) = utf8 c ++ toUtf8 cs :=
  List.flatMap_cons

@[simp] theorem toUtf16_nil : toUtf16 [] = [] := rfl

@[simp] theorem toUtf16_cons (c : Nat) (cs : List Nat) :
    toUtf16 (c :: cs) = utf16 c ++ toUtf16 cs :=
  List.flatMap_cons

theorem utf8_length_pos (c : Nat) : 0 < (utf8 c).length := by
  unfold utf8
  split
  · exact Nat.succ_pos _
  · split
    · exact Nat.succ_pos _
    · split <;> exact Nat.succ_pos _

theorem Paired.exists_scalars {us : List CodeUnit} (h : Paired us) :
    ∃ cs, (∀ c ∈ cs, Scalar c) ∧ us = toUtf16 cs := by
  induction h with
  | nil => exact ⟨[], by simp, rfl⟩
  | bmp u us hu _ ih =>
    obtain ⟨cs, hcs, rfl⟩ := ih
    have hlt : u.toNat < 0x10000 := u.isLt
    refine ⟨u.toNat :: cs, ?_, ?_⟩
    · intro c hc
      rcases List.mem_cons.mp hc with rfl | hc
      · unfold Scalar
        omega
      · exact hcs c hc
    · rw [toUtf16_cons, utf16, if_pos hlt, BitVec.ofNat_toNat, BitVec.setWidth_eq]
      rfl
  | pair hi lo us hhi hlo _ ih =>
    obtain ⟨cs, hcs, rfl⟩ := ih
    obtain ⟨c0, hc0⟩ : ∃ c0, c0 = 0x10000 + (hi.toNat - 0xD800) * 1024 + (lo.toNat - 0xDC00) := ⟨_, rfl⟩
    refine ⟨c0 :: cs, ?_, ?_⟩
    · intro c hc
      rcases List.mem_cons.mp hc with rfl | hc
      · unfold Scalar
        omega
      · exact hcs c hc
    · rw [toUtf16_cons, utf16, if_neg (by omega)]
      have h1 : 0xD800 + (c0 - 0x10000) / 1024 = hi.toNat := by omega
      have h2 : 0xDC00 + c0 % 1024 = lo.toNat := by omega
      rw [h1, h2, BitVec.ofNat_toNat, BitVec.ofNat_toNat, BitVec.setWidth_eq, BitVec.setWidth_eq]
      rfl

end Ezos.Lib.Unicode
