import Ezos.Types
import Ezos.Lib.Memory
import Mathlib.Logic.Function.Basic
import Mathlib.Algebra.GroupWithZero.Nat

/-!
# The decompressors of the EROFS driver (`er_inflate`, `er_lz4_decompress`)

What is decompressed is the list of the bytes put out, at most `dstcap` of them: a copy inside the output only reads bytes that
are there. A source is `srclen` bytes of a memory.
-/

namespace Ezos.Erofs

open Lib.Memory

set_option autoImplicit false

/-- `dst[dp++] = dst[s + k]` for `n` bytes that begin `off` before the end of the output. -/
def copyBack (off : Nat) : Nat → List Byte → List Byte
  | 0, out => out
  | n + 1, out => copyBack off n (out ++ [out.getD (out.length - off) 0])

def bytesAt (src : Mem) (sp n : Nat) : List Byte := (List.range n).map fun i => src (sp + i)

structure Huff where
  count : Nat → Nat
  symbol : Nat → Nat

def leftFrom (count : Nat → Nat) : Nat → Nat → Int → Option Int
  | 0, _, left => some left
  | n + 1, len, left => if 2 * left - count len < 0 then none else leftFrom count n (len + 1) (2 * left - count len)

def offsOf (count : Nat → Nat) (len : Nat) : Nat := ((List.range len).map fun k => if k = 0 then 0 else count k).sum

def symbolsFrom : List Nat → Nat → (Nat → Nat) → (Nat → Nat) → Nat → Nat
  | [], _, _, symbol => symbol
  | len :: lengths, i, offs, symbol =>
    if len = 0 then symbolsFrom lengths (i + 1) offs symbol
    else symbolsFrom lengths (i + 1) (Function.update offs len (offs len + 1)) (Function.update symbol (offs len) i)

def erHuffBuild (h : Huff) (lengths : List Nat) : Huff × Bool :=
  let count := fun len => lengths.count len
  if count 0 = lengths.length then ({ h with count }, false) else
  match leftFrom count 15 1 1 with
  | none => ({ h with count }, false)
  | some _ => ({ count, symbol := symbolsFrom lengths 0 (offsOf count) h.symbol }, true)

def erBit (src : Mem) (srclen bitpos : Nat) : Nat :=
  if bitpos < srclen * 8 then ((src (bitpos / 8)).getLsbD (bitpos % 8)).toNat else 0

def erBits (src : Mem) (srclen bitpos n : Nat) : Nat :=
  ((List.range n).map fun i => erBit src srclen (bitpos + i) * 2 ^ i).sum

def erHuffDecodeFrom (h : Huff) (src : Mem) (srclen : Nat) : Nat → Nat → Nat → Nat → Nat → Nat → Option (Nat × Nat)
  | 0, _, _, _, _, _ => none
  | n + 1, len, code, first, index, bitpos =>
    let code := code + erBit src srclen bitpos
    let count := h.count len
    if code < first + count then some (h.symbol (index + (code - first)), bitpos + 1)
    else erHuffDecodeFrom h src srclen n (len + 1) (code * 2) ((first + count) * 2) (index + count) (bitpos + 1)

def erHuffDecode (h : Huff) (src : Mem) (srclen bitpos : Nat) : Option (Nat × Nat) :=
  erHuffDecodeFrom h src srclen 15 1 0 0 0 bitpos

def erLbase : List Nat :=
  [3, 4, 5, 6, 7, 8, 9, 10, 11, 13, 15, 17, 19, 23, 27, 31, 35, 43, 51, 59, 67, 83, 99, 115, 131, 163, 195, 227, 258]

def erLext : List Nat := [0, 0, 0, 0, 0, 0, 0, 0, 1, 1, 1, 1, 2, 2, 2, 2, 3, 3, 3, 3, 4, 4, 4, 4, 5, 5, 5, 5, 0]

def erDbase : List Nat :=
  [1, 2, 3, 4, 5, 7, 9, 13, 17, 25, 33, 49, 65, 97, 129, 193, 257, 385, 513, 769, 1025, 1537, 2049, 3073, 4097, 6145, 8193,
    12289, 16385, 24577]

def erDext : List Nat :=
  [0, 0, 0, 0, 1, 1, 2, 2, 3, 3, 4, 4, 5, 5, 6, 6, 7, 7, 8, 8, 9, 9, 10, 10, 11, 11, 12, 12, 13, 13]

def clorder : List Nat := [16, 17, 18, 0, 8, 7, 9, 6, 10, 5, 11, 4, 12, 3, 13, 2, 14, 1, 15]

def fixedLens : List Nat :=
  List.replicate 144 8 ++ List.replicate 112 9 ++ List.replicate 24 7 ++ List.replicate 8 8

/-- The static variables of `er_inflate` that outlive a call; the tables of the fixed codes are built once. -/
structure Inflate where
  lit : Huff
  dist : Huff
  fixedInited : Bool

structure Progress where
  bitpos : Nat
  out : List Byte

def lensFrom (clen : Huff) (src : Mem) (srclen n : Nat) : Nat → List Nat → Nat → Option (List Nat × Nat)
  | 0, lens, bitpos => some (lens, bitpos)
  | fuel + 1, lens, bitpos =>
    if n ≤ lens.length then some (lens, bitpos) else
    match erHuffDecode clen src srclen bitpos with
    | none => none
    | some (sym, bitpos) =>
      if sym < 16 then lensFrom clen src srclen n fuel (lens ++ [sym]) bitpos else
      if sym = 16 ∧ lens = [] then none else
      let val := if sym = 16 then lens.getLastD 0 else 0
      let wide := if sym = 16 then 2 else if sym = 17 then 3 else 7
      let rep := (if sym = 18 then 11 else 3) + erBits src srclen bitpos wide
      if n < lens.length + rep then none
      else lensFrom clen src srclen n fuel (lens ++ List.replicate rep val) (bitpos + wide)

/-- The loop over the symbols of a block. Each of them but the last puts a byte out, so `dstcap + 1` turns are enough. -/
def symbolsLoop (z : Inflate) (src : Mem) (srclen dstcap : Nat) : Nat → Progress → Option Progress
  | 0, _ => none
  | fuel + 1, p =>
    match erHuffDecode z.lit src srclen p.bitpos with
    | none => none
    | some (sym, bitpos) =>
      if sym < 256 then
        if dstcap ≤ p.out.length then none
        else symbolsLoop z src srclen dstcap fuel ⟨bitpos, p.out ++ [BitVec.ofNat 8 sym]⟩
      else if sym = 256 then some ⟨bitpos, p.out⟩
      else if 29 ≤ sym - 257 then none
      else
        let lext := erLext.getD (sym - 257) 0
        let len := erLbase.getD (sym - 257) 0 + erBits src srclen bitpos lext
        match erHuffDecode z.dist src srclen (bitpos + lext) with
        | none => none
        | some (dsym, bitpos) =>
          if 30 ≤ dsym then none else
          let dext := erDext.getD dsym 0
          let dist := erDbase.getD dsym 0 + erBits src srclen bitpos dext
          if dist = 0 ∨ p.out.length < dist ∨ dstcap < p.out.length + len then none
          else symbolsLoop z src srclen dstcap fuel ⟨bitpos + dext, copyBack dist len p.out⟩

def storedBlock (src : Mem) (srclen dstcap : Nat) (p : Progress) : Option Progress :=
  let sp := (p.bitpos + 7) / 8
  if srclen < sp + 4 then none else
  let len := (read16 src sp).toNat
  if srclen < sp + 4 + len ∨ dstcap < p.out.length + len then none
  else some ⟨(sp + 4 + len) * 8, p.out ++ bytesAt src (sp + 4) len⟩

def fixedTables (z : Inflate) : Inflate × Bool :=
  if z.fixedInited then (z, true) else
  let (lit, lok) := erHuffBuild z.lit fixedLens
  if ¬ lok then ({ z with lit }, false) else
  let (dist, dok) := erHuffBuild z.dist (List.replicate 30 5)
  if ¬ dok then ({ z with lit, dist }, false) else ({ lit, dist, fixedInited := true }, true)

def dynamicTables (z : Inflate) (src : Mem) (srclen bitpos : Nat) : Inflate × Option Nat :=
  let hlit := erBits src srclen bitpos 5 + 257
  let hdist := erBits src srclen (bitpos + 5) 5 + 1
  let hclen := erBits src srclen (bitpos + 10) 4 + 4
  let cl := (List.range 19).map fun s =>
    if clorder.idxOf s < hclen then erBits src srclen (bitpos + 14 + 3 * clorder.idxOf s) 3 else 0
  let (clen, ok) := erHuffBuild ⟨fun _ => 0, fun _ => 0⟩ cl
  if ¬ ok then (z, none) else
  match lensFrom clen src srclen (hlit + hdist) (hlit + hdist) [] (bitpos + 14 + 3 * hclen) with
  | none => (z, none)
  | some (lens, bitpos) =>
    let (lit, lok) := erHuffBuild z.lit (lens.take hlit)
    if ¬ lok then ({ z with lit }, none) else
    let (dist, dok) := erHuffBuild z.dist (lens.drop hlit)
    if ¬ dok then ({ z with lit, dist }, none) else ({ z with lit, dist }, some bitpos)

def inflateBlock (z : Inflate) (src : Mem) (srclen dstcap type : Nat) (p : Progress) : Inflate × Option Progress :=
  if type = 0 then (z, storedBlock src srclen dstcap p)
  else if type = 1 then
    let (z, ok) := fixedTables z
    if ¬ ok then (z, none) else (z, symbolsLoop z src srclen dstcap (dstcap + 1) p)
  else if type = 2 then
    match dynamicTables z src srclen p.bitpos with
    | (z, none) => (z, none)
    | (z, some bitpos) => (z, symbolsLoop z src srclen dstcap (dstcap + 1) ⟨bitpos, p.out⟩)
  else (z, none)

/-- The loop over the blocks. Behind the end of the source a block is a stored one that does not fit, so `8 * srclen + 1` turns
are enough. -/
def inflateFrom (src : Mem) (srclen dstcap : Nat) : Nat → Inflate → Progress → Inflate × Option (List Byte)
  | 0, z, _ => (z, none)
  | fuel + 1, z, p =>
    let last := erBits src srclen p.bitpos 1
    let type := erBits src srclen (p.bitpos + 1) 2
    match inflateBlock z src srclen dstcap type ⟨p.bitpos + 3, p.out⟩ with
    | (z, none) => (z, none)
    | (z, some p) => if last ≠ 0 then (z, some p.out) else inflateFrom src srclen dstcap fuel z p

def erInflate (z : Inflate) (src : Mem) (srclen dstcap : Nat) : Inflate × Option (List Byte) :=
  inflateFrom src srclen dstcap (8 * srclen + 1) z ⟨0, []⟩

def lz4Length (src : Mem) (srclen : Nat) : Nat → Nat → Nat → Option (Nat × Nat)
  | 0, _, _ => none
  | fuel + 1, sp, l =>
    if srclen ≤ sp then none
    else if src sp = 255 then lz4Length src srclen fuel (sp + 1) (l + 255)
    else some (l + (src sp).toNat, sp + 1)

def lz4Field (src : Mem) (srclen sp l : Nat) : Option (Nat × Nat) :=
  if l = 15 then lz4Length src srclen srclen sp l else some (l, sp)

def lz4From (src : Mem) (srclen dstcap : Nat) : Nat → Nat → List Byte → Option (List Byte)
  | 0, _, _ => none
  | fuel + 1, sp, out =>
    if srclen ≤ sp then none else
    let token := (src sp).toNat
    match lz4Field src srclen (sp + 1) (token / 16) with
    | none => none
    | some (ll, sp) =>
      if dstcap < out.length + ll ∨ srclen < sp + ll then none else
      let out := out ++ bytesAt src sp ll
      let sp := sp + ll
      if sp = srclen then some out else
      if srclen < sp + 2 then none else
      let off := (read16 src sp).toNat
      if off = 0 ∨ out.length < off then none else
      match lz4Field src srclen (sp + 2) (token % 16) with
      | none => none
      | some (ml, sp) =>
        if dstcap < out.length + (ml + 4) then none
        else lz4From src srclen dstcap fuel sp (copyBack off (ml + 4) out)

def erLz4Decompress (src : Mem) (srclen dstcap : Nat) : Option (List Byte) :=
  lz4From src srclen dstcap (srclen + 1) 0 []

end Ezos.Erofs
