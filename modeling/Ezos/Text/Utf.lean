import Ezos.Exfat.Names
import Ezos.Lib.Scan

/-!
# File names in two encodings, three times (`textenc.c`, `ezos_rs/src/lib.rs`, `ezos_zig.zig`)

Every converter returns the source's result together with what it has stored from `dst[0]` on,
also when the result is -1. Indices and lengths are natural numbers; the result is the length
taken as an `int32_t`.
-/

namespace Ezos.Text

open Exfat Lib.Scan

set_option autoImplicit false

/-- Which of the three the kernel is built with (`EZ_TEXT_IMPL`). -/
inductive Impl
  | c | rs | zig

/-- A NUL-terminated string: the bytes in front of the NUL. String and NUL lie in a 32-bit
address space, behind the null address. -/
structure CString where
  bytes : List U8
  noNul : ∀ b ∈ bytes, b ≠ 0
  inMemory : bytes.length + 1 < 2 ^ 32

def i32 (n : Nat) : Int := (BitVec.ofNat 32 n).toInt

def result {γ : Type} (r : Bool × List γ) : Int × List γ :=
  if r.1 = true then (i32 r.2.length, r.2) else (-1, r.2)

def cont (p : U8) : Option U32 := if p &&& 0xC0 ≠ 0x80 then none else some ((p &&& 0x3F).setWidth 32)

def bad : U32 × Nat := (0xFFFD, 1)

/-- The head of the loop of `utf8_to_utf16_c`: code point and `adv`. -/
def headC (_i : Nat) (b0 : U8) (rest : List U8) : U32 × Nat :=
  let b : U32 := b0.setWidth 32
  if b < 0x80 then (b, 1)
  else if b < 0xE0 then
    if b &&& 0x1E = 0 then bad
    else
      match cont (rest.getD 0 0) with
      | none => bad
      | some c1 => (((b &&& 0x1F) <<< 6) ||| c1, 2)
  else if b < 0xF0 then
    if b &&& 0x0F = 0 ∧ b < 0xE0 then bad
    else
      match cont (rest.getD 0 0) with
      | none => bad
      | some c1 =>
        match cont (rest.getD 1 0) with
        | none => bad
        | some c2 =>
          let v : U32 := ((b &&& 0x0F) <<< 12) ||| (c1 <<< 6) ||| c2
          if (v ≥ 0xD800 ∧ v < 0xE000) ∨ v < 0x800 then bad else (v, 3)
  else if b < 0xF8 then
    match cont (rest.getD 0 0) with
    | none => bad
    | some c1 =>
      match cont (rest.getD 1 0) with
      | none => bad
      | some c2 =>
        match cont (rest.getD 2 0) with
        | none => bad
        | some c3 =>
          let v : U32 := ((b &&& 0x07) <<< 18) ||| (c1 <<< 12) ||| (c2 <<< 6) ||| c3
          if v < 0x10000 ∨ v > 0x10FFFF then bad else (v, 4)
  else bad

/-- The head of the loop of `utf8_to_utf16_rs`, which also looks at its index. -/
def headRs (i : Nat) (b : U8) (rest : List U8) : U32 × Nat :=
  let b1 := rest.getD 0 0
  let b2 := rest.getD 1 0
  let b3 := rest.getD 2 0
  if b < 0x80 then (b.setWidth 32, 1)
  else if b < 0xE0 then
    if i + 1 ≥ 0xFFFFFFFF ∨ b &&& 0x1E = 0 then bad
    else if b1 &&& 0xC0 ≠ 0x80 then bad
    else (((b &&& 0x1F).setWidth 32 <<< 6) ||| (b1 &&& 0x3F).setWidth 32, 2)
  else if b < 0xF0 then
    if b &&& 0x0F = 0 ∧ b < 0xE0 then bad
    else if b1 &&& 0xC0 ≠ 0x80 then bad
    else if b2 &&& 0xC0 ≠ 0x80 then bad
    else
      let cp : U32 := ((b &&& 0x0F).setWidth 32 <<< 12) ||| ((b1 &&& 0x3F).setWidth 32 <<< 6) |||
        (b2 &&& 0x3F).setWidth 32
      if (0xD800 ≤ cp ∧ cp < 0xE000) ∨ cp < 0x800 then bad else (cp, 3)
  else if b < 0xF8 then
    if b1 &&& 0xC0 ≠ 0x80 then bad
    else if b2 &&& 0xC0 ≠ 0x80 then bad
    else if b3 &&& 0xC0 ≠ 0x80 then bad
    else
      let cp : U32 := ((b &&& 0x07).setWidth 32 <<< 18) ||| ((b1 &&& 0x3F).setWidth 32 <<< 12) |||
        ((b2 &&& 0x3F).setWidth 32 <<< 6) ||| (b3 &&& 0x3F).setWidth 32
      if cp < 0x10000 ∨ cp > 0x10FFFF then bad else (cp, 4)
  else bad

/-- The head of the loop of `utf8_to_utf16_zig`; all bytes are widened when they are read. -/
def headZig (_i : Nat) (b0 : U8) (rest : List U8) : U32 × Nat :=
  let b : U32 := b0.setWidth 32
  let b1 : U32 := (rest.getD 0 0).setWidth 32
  let b2 : U32 := (rest.getD 1 0).setWidth 32
  let b3 : U32 := (rest.getD 2 0).setWidth 32
  if b < 0x80 then (b, 1)
  else if b < 0xE0 then
    if b &&& 0x1E = 0 then bad
    else if b1 &&& 0xC0 ≠ 0x80 then bad
    else (((b &&& 0x1F) <<< 6) ||| (b1 &&& 0x3F), 2)
  else if b < 0xF0 then
    if b &&& 0x0F = 0 ∧ b < 0xE0 then bad
    else if b1 &&& 0xC0 ≠ 0x80 then bad
    else if b2 &&& 0xC0 ≠ 0x80 then bad
    else
      let c0 : U32 := ((b &&& 0x0F) <<< 12) ||| ((b1 &&& 0x3F) <<< 6) ||| (b2 &&& 0x3F)
      if (c0 ≥ 0xD800 ∧ c0 < 0xE000) ∨ c0 < 0x800 then bad else (c0, 3)
  else if b < 0xF8 then
    if b1 &&& 0xC0 ≠ 0x80 then bad
    else if b2 &&& 0xC0 ≠ 0x80 then bad
    else if b3 &&& 0xC0 ≠ 0x80 then bad
    else
      let c0 : U32 := ((b &&& 0x07) <<< 18) ||| ((b1 &&& 0x3F) <<< 12) ||| ((b2 &&& 0x3F) <<< 6) |||
        (b3 &&& 0x3F)
      if c0 < 0x10000 ∨ c0 > 0x10FFFF then bad else (c0, 4)
  else bad

def store16C (cap : Nat) (out : List U16) (cp : U32) : Option (List U16) :=
  if cp ≥ 0x10000 then
    if cap - out.length < 2 then none else some (out ++ putUtf16 cp)
  else if cap - out.length < 1 then none
  else some (out ++ putUtf16 cp)

def store16 (cap : Nat) (out : List U16) (cp : U32) : Option (List U16) :=
  if cp ≥ 0x10000 then
    if out.length + 2 > cap then none else some (out ++ putUtf16 cp)
  else if out.length + 1 > cap then none
  else some (out ++ putUtf16 cp)

def utf8ToUtf16C (src : CString) (cap : U32) : Int × List U16 :=
  if cap = 0 then (-1, []) else result (scan headC (store16C cap.toNat) 0 [] 0 src.bytes)

def utf8ToUtf16Rs (src : CString) (cap : U32) : Int × List U16 :=
  if cap = 0 then (-1, []) else result (scan headRs (store16 cap.toNat) 0 [] 0 src.bytes)

def utf8ToUtf16Zig (src : CString) (cap : U32) : Int × List U16 :=
  if cap = 0 then (-1, []) else result (scan headZig (store16 cap.toNat) 0 [] 0 src.bytes)

def utf8ToUtf16By : Impl → CString → U32 → Int × List U16
  | .c => utf8ToUtf16C
  | .rs => utf8ToUtf16Rs
  | .zig => utf8ToUtf16Zig

/-- The head of the loop of `utf16_to_utf8_c` and of `utf16_to_utf8_zig`: units are widened when
they are read. -/
def headUnits (_i : Nat) (c0 : U16) (rest : List U16) : U32 × Nat :=
  let c : U32 := c0.setWidth 32
  if c ≥ 0xD800 ∧ c < 0xDC00 then
    match rest with
    | [] => bad
    | lo0 :: _ =>
      let lo : U32 := lo0.setWidth 32
      if lo ≥ 0xDC00 ∧ lo < 0xE000 then (0x10000 + ((c - 0xD800) <<< 10) + (lo - 0xDC00), 2)
      else bad
  else if c ≥ 0xDC00 ∧ c < 0xE000 then bad
  else (c, 1)

/-- The head of the loop of `utf16_to_utf8_rs`: the ranges are those of `u16` values. -/
def headUnitsRs (_i : Nat) (c : U16) (rest : List U16) : U32 × Nat :=
  if isHighSurrogate c then
    match rest with
    | [] => bad
    | lo :: _ =>
      if isLowSurrogate lo then
        (0x10000 + ((c.setWidth 32 - 0xD800) <<< 10) + (lo.setWidth 32 - 0xDC00), 2)
      else bad
  else if isLowSurrogate c then bad
  else (c.setWidth 32, 1)

def putUtf8Zig (cp : U32) (room : Nat) : Option (List U8) :=
  if cp < 0x80 then
    if room < 1 then none else some [(cp &&& 0x7F).setWidth 8]
  else putUtf8 cp room

def store8C (cap : Nat) (out : List U8) (cp : U32) : Option (List U8) :=
  if cap - 1 ≤ out.length then none
  else (putUtf8 cp (cap - 1 - out.length)).map (out ++ ·)

def store8Rs (cap : Nat) (out : List U8) (cp : U32) : Option (List U8) :=
  if cap - 1 - out.length = 0 then none
  else (putUtf8 cp (cap - 1 - out.length)).map (out ++ ·)

def store8Zig (cap : Nat) (out : List U8) (cp : U32) : Option (List U8) :=
  if cap - 1 - out.length = 0 then none
  else (putUtf8Zig cp (cap - 1 - out.length)).map (out ++ ·)

/-- `dst[used] = 0` behind a complete name. -/
def terminated (r : Bool × List U8) : Int × List U8 :=
  if r.1 = true then (i32 r.2.length, r.2 ++ [0]) else (-1, r.2)

def utf16ToUtf8C (src : List U16) (cap : U32) : Int × List U8 :=
  if src.length = 0 ∨ cap = 0 then (-1, [])
  else terminated (scan headUnits (store8C cap.toNat) 0 [] 0 src)

def utf16ToUtf8Rs (src : List U16) (cap : U32) : Int × List U8 :=
  if src.length = 0 ∨ cap = 0 then (-1, [])
  else terminated (scan headUnitsRs (store8Rs cap.toNat) 0 [] 0 src)

def utf16ToUtf8Zig (src : List U16) (cap : U32) : Int × List U8 :=
  if src.length = 0 ∨ cap = 0 then (-1, [])
  else terminated (scan headUnits (store8Zig cap.toNat) 0 [] 0 src)

def utf16ToUtf8By : Impl → List U16 → U32 → Int × List U8
  | .c => utf16ToUtf8C
  | .rs => utf16ToUtf8Rs
  | .zig => utf16ToUtf8Zig

end Ezos.Text
