import Ezos.Erofs.Zmap

/-!
# Files, directories and paths (`er_read_file_data`, `er_dir_walk`, `er_resolve`, `erofs_read_file`)

A buffer is a memory; what is returned is the buffer with the count of the bytes read. The tables of the decompressor are
passed along, since one read leaves them to the next.
-/

namespace Ezos.Erofs

open Lib.Memory

set_option autoImplicit false

def nblocks (v : Vol) (ino : Inode) : Nat := (ino.size + v.blksz - 1) / v.blksz

def erFlatFrom (v : Vol) (raw : U32) (size : Nat) : Nat → Nat → Nat → Mem → Mem × Nat
  | 0, _, done, buf => (buf, done)
  | n + 1, b, done, buf =>
    if done < size then
      let chunk := min v.blksz (size - done)
      erFlatFrom v raw size n (b + 1) (done + chunk) (v.read ((raw + BitVec.ofNat 32 b).toNat * v.blksz) buf done chunk)
    else (buf, done)

def erReadFlat (v : Vol) (ino : Inode) (buf : Mem) (max : Nat) : Mem × Nat :=
  let size := min ino.size max
  let (buf, done) := erFlatFrom v ino.iU size (nblocks v ino - 1) 0 0 buf
  if nblocks v ino ≠ 0 ∧ done < size then
    let off :=
      if ino.datalayout = flatInline then ino.tail
      else (ino.iU + BitVec.ofNat 32 (nblocks v ino) - 1).toNat * v.blksz
    (v.read off buf done (size - done), size)
  else (buf, done)

def Inode.chunkFmt (ino : Inode) : Nat := (ino.iU &&& 0xFFFF).toNat

def Inode.hasIdx (ino : Inode) : Bool := ino.chunkFmt / 0x20 % 2 = 1

def chunksize (v : Vol) (ino : Inode) : Nat := 2 ^ (ino.chunkFmt % 0x20 + v.blkszbits)

def chunkBlkaddr (v : Vol) (ino : Inode) (c : Nat) : U32 :=
  let esz := if ino.hasIdx then 8 else 4
  read32 (v.read (ino.tail + c * esz) zeros 0 esz) (if ino.hasIdx then 4 else 0)

def erChunkFrom (v : Vol) (ino : Inode) (size : Nat) : Nat → Nat → Nat → Mem → Mem × Nat
  | 0, _, done, buf => (buf, done)
  | n + 1, c, done, buf =>
    if done < size then
      let blkaddr := chunkBlkaddr v ino c
      let chunk := min (chunksize v ino) (size - done)
      let buf := if blkaddr = nullAddr then fill buf done chunk 0 else v.read (blkaddr.toNat * v.blksz) buf done chunk
      erChunkFrom v ino size n (c + 1) (done + chunk) buf
    else (buf, done)

def erReadChunk (v : Vol) (ino : Inode) (buf : Mem) (max : Nat) : Mem × Nat :=
  erChunkFrom v ino (min ino.size max) ((ino.size + chunksize v ino - 1) / chunksize v ino) 0 0 buf

def erReadFileData (v : Vol) (ino : Inode) (buf : Mem) (max : Nat) (z : Inflate) : Inflate × Option (Mem × Nat) :=
  if ino.datalayout = flatPlain ∨ ino.datalayout = flatInline then (z, some (erReadFlat v ino buf max))
  else if ino.datalayout = chunkBased then (z, some (erReadChunk v ino buf max))
  else if ino.datalayout = compressedFull ∨ ino.datalayout = compressedCompact then erReadZ v ino buf max z
  else (z, none)

def direntSize : Nat := 12
def dirbufSize : Nat := 32768

def dot : Byte := 0x2E

structure Dirent where
  name : List Byte
  nid : U32
  isDir : Bool
deriving DecidableEq

def cstr (l : List Byte) : List Byte := l.takeWhile (· ≠ 0)

def nameoff (dirbuf : Mem) (i : Nat) : Nat := (read16 dirbuf (i * direntSize + 8)).toNat

def erDirent (dirbuf : Mem) (dlen ndirents i : Nat) : Option Dirent :=
  let nextoff := if i + 1 < ndirents then nameoff dirbuf (i + 1) else dlen
  if nameoff dirbuf i < ndirents * direntSize ∨ dlen ≤ nameoff dirbuf i then none else
  if dlen < nextoff ∨ nextoff ≤ nameoff dirbuf i then none else
  if 255 < nextoff - nameoff dirbuf i then none else
  let name := bytesAt dirbuf (nameoff dirbuf i) (nextoff - nameoff dirbuf i)
  if name = [dot] ∨ name = [dot, dot] then none else
  some { name := cstr name, nid := read32 dirbuf (i * direntSize), isDir := dirbuf (i * direntSize + 10) = ftDir }

def erPass {σ : Type} (cb : σ → Dirent → σ × Bool) : List Dirent → σ → σ × Bool
  | [], s => (s, true)
  | e :: l, s =>
    match cb s e with
    | (s, true) => (s, false)
    | (s, false) => erPass cb l s

def erDirents (dirbuf : Mem) (dlen : Nat) : Option (List Dirent) :=
  if dlen < direntSize then some [] else
  let ndirents := nameoff dirbuf 0 / direntSize
  if dlen / direntSize < ndirents then none else some ((List.range ndirents).filterMap (erDirent dirbuf dlen ndirents))

def erDirWalk {σ : Type} (v : Vol) (dirNid : U32) (cb : σ → Dirent → σ × Bool) (s : σ) (z : Inflate) : Inflate × σ × Bool :=
  match erLoadInode v dirNid with
  | none => (z, s, false)
  | some ino =>
    if ¬ ino.isDir then (z, s, false) else
    if ino.size = 0 then (z, s, true) else
    let dlen := min ino.size dirbufSize
    match erReadFileData v ino zeros dlen z with
    | (z, none) => (z, s, false)
    | (z, some (dirbuf, r)) =>
      if r < dlen then (z, s, false) else
      match erDirents dirbuf dlen with
      | none => (z, s, false)
      | some l => (z, erPass cb l s)

def slash : Byte := 0x2F

def erLower (c : Byte) : Byte := if 0x41 ≤ c ∧ c ≤ 0x5A then c + 32 else c

def sameName (a b : List Byte) : Bool := a.map erLower == b.map erLower

/-- `er_lookup_cb`: the last entry that fits stays. -/
def erLookupCb (seg : List Byte) (found : Option Dirent) (e : Dirent) : Option Dirent × Bool :=
  (if sameName e.name seg then some e else found, false)

def erResolveFrom (v : Vol) : Nat → U32 → Inode → List Byte → Inflate → Inflate × Option (U32 × Inode)
  | 0, _, _, _, z => (z, none)
  | fuel + 1, cur, ino, path, z =>
    match path.dropWhile (· == slash) with
    | [] => (z, some (cur, ino))
    | c :: rest =>
      let seg := (c :: rest).takeWhile (· != slash)
      if 255 < seg.length then (z, none) else
      if ¬ ino.isDir then (z, none) else
      match erDirWalk v cur (erLookupCb seg) none z with
      | (z, none, _) => (z, none)
      | (z, some e, ok) =>
        if ¬ ok then (z, none) else
        match erLoadInode v e.nid with
        | none => (z, none)
        | some ino => erResolveFrom v fuel e.nid ino ((c :: rest).dropWhile (· != slash)) z

def erResolve (v : Vol) (path : List Byte) (z : Inflate) : Inflate × Option (U32 × Inode) :=
  match erLoadInode v v.rootNid with
  | none => (z, none)
  | some root =>
    match erResolveFrom v (path.length + 1) v.rootNid root path z with
    | (z, none) => (z, none)
    | (z, some (nid, ino)) => if nid = 0 then (z, none) else (z, some (nid, ino))

def erofsReadFile (v : Vol) (path : List Byte) (buf : Mem) (max : Nat) (z : Inflate) : Inflate × Option (Mem × Nat) :=
  match erResolve v path z with
  | (z, none) => (z, none)
  | (z, some (_, ino)) => if ¬ ino.isReg then (z, none) else erReadFileData v ino buf max z

structure Entry where
  name : List Byte
  isDir : Bool
  size : U32
deriving DecidableEq

/-- `er_fill_cb`, with the entries filled in so far. -/
def erFillCb (v : Vol) (max : Nat) (entries : List Entry) (e : Dirent) : List Entry × Bool :=
  if max ≤ entries.length then (entries, true)
  else
    let size := if e.isDir then 0 else ((erLoadInode v e.nid).map fun ci => BitVec.ofNat 32 ci.size).getD 0
    (entries ++ [{ name := e.name, isDir := e.isDir, size }], false)

def erofsReadDir (v : Vol) (path : List Byte) (max : Nat) (z : Inflate) : Inflate × Option (List Entry) :=
  match erResolve v path z with
  | (z, none) => (z, none)
  | (z, some (dir, ino)) =>
    if ¬ ino.isDir then (z, none) else
    match erDirWalk v dir (erFillCb v max) [] z with
    | (z, entries, ok) => if ¬ ok then (z, none) else (z, some entries)

end Ezos.Erofs
