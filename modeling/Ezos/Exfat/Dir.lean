import Ezos.Exfat.Format
import Ezos.Exfat.Names

/-!
# Directories: chains of clusters, entry sets in them

A directory is read as one buffer. The buffers are static: what a read does not fill is left
over from before, and so is what parsing does not fill of the merged entry.
-/

namespace Ezos.Exfat

open Lib.Memory

set_option autoImplicit false

def dirBufSize : Nat := 512 * 16
/-- The loop of `exfat_read_dir_chain` with `n` clusters read and room for `k` more. -/
def dirChainLoop (v : Vol) (cur : U32) (buffer : Mem) (n : Nat) : Nat → Nat × Mem × Vol
  | 0 => (n, buffer, v)
  | k + 1 =>
    if cur ≥ 2 ∧ cur < v.clusterLimit ∧ n < v.clusterLimit.toNat ∧
        (n + 1) * v.clusterSize ≤ dirBufSize then
      match exfatReadCluster v cur buffer (n * v.clusterSize) with
      | (false, buffer, v) => (n, buffer, v)
      | (true, buffer, v) =>
        match exfatReadFatEntry v cur with
        | (cur, v) =>
          if cur ≥ 0xFFFFFFF8 then (n + 1, buffer, v) else dirChainLoop v cur buffer (n + 1) k
    else (n, buffer, v)

def exfatReadDirChain (v : Vol) (dirCluster : U32) (buffer : Mem) : Nat × Mem × Vol :=
  dirChainLoop v dirCluster buffer 0 16

def exfatNameHash (units : List U16) : U16 :=
  units.foldl (fun hash c => hash.rotateLeft 15 + (if 0x61 ≤ c ∧ c ≤ 0x7A then c - 32 else c)) 0

def mergedClusterOff : Nat := 600
def mergedSizeOff : Nat := 604

def secCount (buf : Mem) (e : Nat) : Nat := (buf (e + 1)).toNat

def nameLength (buf : Mem) (e : Nat) : Nat := (buf (e + 32 + 3)).toNat

def copyUnits (buf : Mem) (e : Nat) (out : Mem) (k : Nat) : Mem :=
  (List.range k).foldl
    (fun out j => write16 out (4 + j * 2) (read16 buf (e + 64 + j / 15 * 32 + 2 + j % 15 * 2))) out

def mergeEntry (buf : Mem) (e : Nat) (out : Mem) : Mem :=
  let out := writeBytes (fill out 0 32 0) 0 [0x85, buf (e + 4), buf (e + 32 + 3)]
  let out := copyUnits buf e out (min (nameLength buf e) (15 * (secCount buf e - 1)))
  let out := write32 out mergedClusterOff (read32 buf (e + 32 + 0x14))
  write32 out mergedSizeOff (read32 buf (e + 32 + 0x18))

def exfatParseEntrySet (buf : Mem) (e : Nat) (out : Mem) : Option Mem :=
  if buf e ≠ 0x85 then none
  else if secCount buf e < 2 ∨ secCount buf e > 20 then none
  else some (mergeEntry buf e out)

def mergedUnits (merged : Mem) : List U16 :=
  (List.range (merged 2).toNat).map fun i => read16 merged (4 + i * 2)

def attrDirectory : U8 := 0x10

/-- The loop of `exfat_find_entry` goes on at an offset, or it returns. -/
inductive ScanStep where
  | next (off : Nat) (merged : Mem)
  | found (off : Nat) (merged : Mem)
  | missing

def findStep (buf : Mem) (total : Nat) (name : List U8) (off : Nat) (merged : Mem) : ScanStep :=
  if off + 32 > total then .missing
  else if buf off = 0x00 then .missing
  else if buf off = 0x85 then
    if secCount buf off < 2 ∨ secCount buf off > 20 then .next (off + 32) merged
    else if off + (1 + secCount buf off) * 32 > total then .missing
    else
      match exfatParseEntrySet buf off merged with
      | none => .next (off + (1 + secCount buf off) * 32) merged
      | some merged =>
        match utf16ToUtf8 (mergedUnits merged) 512 with
        | none => .next off merged
        | some entryName =>
          if myStrcmp (cstr entryName) name = 0 then .found off merged
          else .next (off + (1 + secCount buf off) * 32) merged
  else .next (off + 32) merged

def findLoop (buf : Mem) (total : Nat) (name : List U8) : Nat → Nat → Mem → Option (Option (Nat × Mem))
  | 0, _, _ => none
  | fuel + 1, off, merged =>
    match findStep buf total name off merged with
    | .next off merged => findLoop buf total name fuel off merged
    | .found off merged => some (some (off, merged))
    | .missing => some none

/-- The inner `none` is -1. A loop that returns does so within one iteration for each slot
and one more, so the outer `none` is a loop that never returns. -/
def exfatFindEntry (v : Vol) (dirCluster : U32) (name : List U8) (stale : Mem) :
    Option (Option (Nat × Mem)) × Vol :=
  match exfatReadDirChain v dirCluster zeros with
  | (clusters, buf, v) =>
    if clusters = 0 then (some none, v)
    else (findLoop buf (clusters * v.clusterSize) name (clusters * v.clusterSize / 32 + 1) 0 stale, v)

end Ezos.Exfat
