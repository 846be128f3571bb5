import Ezos.Ext4.Volume

/-!
# Directories, paths and reading (`e4_dx_collect`, `e4_dir_walk`, `e4_resolve`, `ext4_read_file`)

A walk is the list of entries that it would hand to a callback that never stops it; a lookup takes the first that
fits.
-/

namespace Ezos.Ext4

open Lib.Memory

set_option autoImplicit false

def dxMaxLeaves : Nat := 64

/-- What the root or an inner node of the tree offers: `count` numbers of blocks from the byte `base` on. -/
def dxCount (v : Vol) (buf : Mem) (isRoot : Bool) : U32 :=
  let cnt : U32 := (read16 buf (if isRoot then 34 else 14)).setWidth 32
  let room := (v.blksize - if isRoot then 36 else 16) / 8
  if room < cnt then room else cnt

def dxBlk (buf : Mem) (isRoot : Bool) (i : Nat) : U32 := read32 buf ((if isRoot then 36 else 16) + i * 8)

def dxWalk (v : Vol) (levels : Nat) : Nat → List (U32 × U32) → List U32 → Option (List U32)
  | _, [], out => some out
  | 0, _ :: _, _ => none
  | n + 1, (blk, idx) :: rest, out =>
    let buf := v.block blk
    let isRoot := rest.isEmpty
    let cnt := dxCount v buf isRoot
    if rest.length = levels then
      dxWalk v levels n rest (out ++ ((List.range cnt.toNat).map (dxBlk buf isRoot)).take (dxMaxLeaves - out.length))
    else if idx < cnt then
      dxWalk v levels n ((dxBlk buf isRoot idx.toNat, 0) :: (blk, idx + 1) :: rest) out
    else dxWalk v levels n rest out

/-- `DX_INFO_LEVELS`: the byte after the zero word of `dx_root_info` would be six further on. -/
def dxInfoLevels : Nat := 24 + 3

def e4DxCollect (v : Vol) (rootBlk : U32) : Option (List U32) :=
  let levels := (v.block rootBlk dxInfoLevels).toNat
  if 5 < levels then none else dxWalk v levels 1024 [(rootBlk, 0)] []

structure Dirent where
  name : List Byte
  ino : U32
  ftype : Byte
deriving DecidableEq

def dot : Byte := 0x2E

def dotName (name : List Byte) : Bool := name == [dot] || name == [dot, dot]

def direntAt (blksize : Nat) (buf : Mem) (off : Nat) : Option Dirent :=
  let child := read32 buf off
  let nameLen := (buf (off + 6)).toNat
  if child ≠ 0 ∧ 0 < nameLen ∧ off + 8 + nameLen ≤ blksize then
    let name := (List.range nameLen).map fun i => buf (off + 8 + i)
    if dotName name then none else some { name, ino := child, ftype := buf (off + 7) }
  else none

def blockDirents (blksize : Nat) (buf : Mem) : Nat → Nat → List Dirent
  | 0, _ => []
  | fuel + 1, off =>
    if off + 8 ≤ blksize then
      let recLen := (read16 buf (off + 4)).toNat
      if recLen < 8 ∨ blksize < off + recLen then [] else
      (direntAt blksize buf off).toList ++ blockDirents blksize buf fuel (off + recLen)
    else []

def scanBlock (v : Vol) (pb : U32) : List Dirent :=
  if pb = 0 then [] else blockDirents v.blksize.toNat (v.block pb) v.blksize.toNat 0

def dxLeaves (v : Vol) (dino : Mem) : Option (List U32) :=
  if hasFlag dino indexFl then
    let blk0 := e4MapBlock v dino 0
    if blk0 = 0 then none
    else if (read16 (v.block blk0) 16).setWidth 32 = v.blksize - 12 then e4DxCollect v blk0
    else none
  else none

def blockCount (v : Vol) (size : U32) : U32 := (size + v.blksize - 1) / v.blksize

def linearBlocks (v : Vol) (dino : Mem) : List U32 :=
  (List.range (blockCount v (e4InoSizeOf dino)).toNat).map fun b => e4MapBlock v dino (BitVec.ofNat 32 b)

def e4DirWalk (v : Vol) (dirIno : U32) : Option (List Dirent) :=
  match e4ReadInode v dirIno with
  | none => none
  | some dino =>
    if e4InoIsDir dino = false then none
    else if hasFlag dino inlineDataFl then none
    else if blockCount v (e4InoSizeOf dino) = 0 then some []
    else some (((dxLeaves v dino).getD (linearBlocks v dino)).flatMap (scanBlock v))

def slash : Byte := 0x2F

def e4Lower (c : Byte) : Byte := if 0x41 ≤ c ∧ c ≤ 0x5A then c + 32 else c

/-- `e4_lookup_cb`: names of one length that differ at most in the case of letters. -/
def sameName (a b : List Byte) : Bool := a.map e4Lower == b.map e4Lower

def lookupIn (v : Vol) (dir : U32) (name : List Byte) : Option Dirent :=
  match e4DirWalk v dir with
  | none => none
  | some l => l.find? fun e => sameName e.name name

def resolveFrom (v : Vol) : Nat → U32 → List Byte → Option U32
  | 0, _, _ => none
  | fuel + 1, cur, path =>
    match path.dropWhile (· == slash) with
    | [] => some cur
    | c :: rest =>
      let comp := (c :: rest).takeWhile (· != slash)
      if 255 < comp.length then none else
      match lookupIn v cur comp with
      | none => none
      | some e => resolveFrom v fuel e.ino ((c :: rest).dropWhile (· != slash))

def ext4RootIno : U32 := 2

/-- `e4_resolve`: the number and the bytes of the inode that an absolute path names. -/
def e4Resolve (v : Vol) (path : List Byte) : Option (U32 × Mem) :=
  if path.head? ≠ some slash then none else
  match resolveFrom v (path.length + 1) ext4RootIno path with
  | none => none
  | some n => (e4ReadInode v n).map fun ino => (n, ino)

def ext4IsDir (v : Vol) (path : List Byte) : Option Bool := (e4Resolve v path).map fun r => e4InoIsDir r.2

def ext4GetFileSize (v : Vol) (path : List Byte) : U32 :=
  match e4Resolve v path with
  | none => 0
  | some r => e4InoSizeOf r.2

def readChunk (v : Vol) (ino : Mem) (done chunk : U32) : List Byte :=
  let pb := e4MapBlock v ino (done / v.blksize)
  if pb = 0 then List.replicate chunk.toNat 0
  else (List.range chunk.toNat).map fun i => v.block pb ((done % v.blksize).toNat + i)

/-- The copying loop of `ext4_read_file`, `fuel` turns of it. -/
def readLoop (v : Vol) (ino : Mem) (size : U32) : Nat → U32 → List Byte
  | 0, _ => []
  | fuel + 1, done =>
    if done < size then
      let whole := v.blksize - done % v.blksize
      let chunk := if size - done < whole then size - done else whole
      readChunk v ino done chunk ++ readLoop v ino size fuel (done + chunk)
    else []

/-- The bytes that `ext4_read_file` puts into a buffer of `maxSize` bytes. -/
def ext4ReadFile (v : Vol) (path : List Byte) (maxSize : U32) : Option (List Byte) :=
  match e4Resolve v path with
  | none => none
  | some (_, ino) =>
    if inoIsReg ino = false then none
    else if hasFlag ino inlineDataFl then none
    else
      let size := e4InoSizeOf ino
      let size := if maxSize < size then maxSize else size
      some (readLoop v ino size size.toNat 0)

structure Listed where
  name : List Byte
  isDir : Bool
  size : U32
deriving DecidableEq

def e4FillCb (v : Vol) (e : Dirent) : Listed :=
  match e4ReadInode v e.ino with
  | none => { name := e.name, isDir := false, size := 0 }
  | some cino => { name := e.name, isDir := e4InoIsDir cino, size := e4InoSizeOf cino }

def ext4ReadDir (v : Vol) (path : List Byte) (maxEntries : Nat) : Option (List Listed) :=
  match e4Resolve v path with
  | none => none
  | some (dir, ino) =>
    if e4InoIsDir ino = false then none
    else (e4DirWalk v dir).map fun l => (l.take maxEntries).map (e4FillCb v)

end Ezos.Ext4
