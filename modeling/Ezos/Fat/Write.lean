import Ezos.Fat.Dirents
import Ezos.Fs.Paths

/-!
# Creating and deleting (`kernel/fat.c`)

A name is a list of bytes, and the code reads it up to its first zero byte. Writing a block does not fail
here, and the answer -1 is `false`; what had been written by then stays.
-/

namespace Ezos.Fat

open Lib.Memory

set_option autoImplicit false

/-- A mounted volume, and `current_dir_cluster` with what belongs to it. -/
structure Sys where
  vol : Vol
  cwd : Fs.Cwd

/-- What one call finds on its stack and on the clock: what `lfn_chars` starts with in the lookups of the
path, of the last name, of the aliases and of the entries inside a directory, and the readings of the clock
(time, date). -/
structure Frame where
  path : Nat → Str → Junk
  leaf : Junk
  probes : Nat → Junk
  inside : Junk
  clock : Nat → U16 × U16

def cstr (l : Str) : Str := l.takeWhile (· ≠ 0)

def findIn (v : Vol) (f : Frame) : Fs.Find := fun c name =>
  (fatFindEntry v (f.path c.toNat name) c.toNat name).map fun e => (BitVec.ofNat 32 e.firstCluster, e.isDir)

def splitLast : Str → Option (Str × Str)
  | [] => none
  | c :: rest =>
    match splitLast rest with
    | some (front, leaf) => some (c :: front, leaf)
    | none => if c = Fs.slash then some ([], rest) else none

def fatResolveLeaf (s : Sys) (f : Frame) (path : Str) : Option (Nat × Str) :=
  if s.cwd.ready = false ∨ path = [] then none
  else
    match splitLast path with
    | none => if path.length + 1 > 128 then none else some (s.cwd.cur.toNat, path)
    | some (front, leaf) =>
      if leaf = [] ∨ leaf.length + 1 > 128 then none
      else if front = [] then some (rootDirClusterValue s.vol, leaf)
      else if front.length ≥ 128 then none
      else
        match Fs.fatResolveDir (findIn s.vol f) s.cwd front with
        | none => none
        | some d => some (d.toNat, leaf)

def fatWriteCluster (v : Vol) (c : Nat) (buf : Mem) : Option Vol :=
  if c < 2 ∨ c ≥ v.limit then none else some (fatWriteBlock v (.cluster c) buf)

/-- `fat_free_chain` where its answer is ignored. -/
def dropChain (v : Vol) (first : Nat) : Vol := (fatFreeChain v first).getD v

def allocChain (v : Vol) (first prev : Nat) : Nat → Option Nat × Vol
  | 0 => (some first, v)
  | n + 1 =>
    match fatAllocCluster v with
    | (c, v) =>
      if c = 0 then (none, dropChain v first)
      else
        match fatEntrySet v c (fatEocVal v.kind) with
        | none => (none, dropChain v first)
        | some v =>
          if first = 0 then allocChain v c c n
          else
            match fatEntrySet v prev c with
            | none => (none, dropChain (dropChain v first) c)
            | some v => allocChain v first c n

def writeData (v : Vol) (cur : Nat) (data : Mem) (size written : Nat) : Nat → Option Vol
  | 0 => some v
  | n + 1 =>
    let toCopy := min (size - written) v.clusterSize
    match fatWriteCluster v cur fun j => if j < toCopy then data (written + j) else 0 with
    | none => none
    | some v => writeData v (if n = 0 then cur else fatEntryGet v cur) data size (written + toCopy) n

/-- `data_clusters`; the sum is one of 32 bits. -/
def dataClusters (v : Vol) (size : Nat) : Nat := (size + v.clusterSize - 1) % 2 ^ 32 / v.clusterSize

def storeData (v : Vol) (data : Mem) (size : Nat) : Option Nat × Vol :=
  match allocChain v 0 0 (dataClusters v size) with
  | (none, v) => (none, v)
  | (some first, v) =>
    match writeData v first data size 0 (dataClusters v size) with
    | none => (none, dropChain v first)
    | some v => (some first, v)

def isFreeSlot (b : U8) : Bool := b = 0x00 || b = deletedEntry

/-- The first run of `need` free slots, from slot `i` on, over `n` slots; `run` free ones were just passed. -/
def freeRun (blk : Mem) (need i run : Nat) : Nat → Option Nat
  | 0 => none
  | n + 1 =>
    if isFreeSlot (slotAt blk i 0) then
      if run + 1 = need then some (i + 1 - need) else freeRun blk need (i + 1) (run + 1) n
    else freeRun blk need (i + 1) 0 n

def searchSlots (v : Vol) (need : Nat) : List Block → Option (Option (Block × Nat))
  | [] => some none
  | b :: bs =>
    match fatReadBlock v b with
    | none => none
    | some blk =>
      match freeRun blk need 0 0 (slotsOf v b) with
      | some i => some (some (b, i))
      | none => searchSlots v need bs

def chainTail (v : Vol) (tail : Nat) : Nat → Nat
  | 0 => tail
  | n + 1 =>
    let next := fatEntryGet v tail
    if fatIsEoc v.kind next ∨ next < 2 ∨ next ≥ v.limit then tail else chainTail v next n

def growDir (v : Vol) (dir : Nat) : Option (Block × Nat) × Vol :=
  let tail := chainTail v dir v.limit
  match fatAllocCluster v with
  | (c, v) =>
    if c = 0 then (none, v)
    else
      match fatEntrySet v tail c with
      | none => (none, v)
      | some v =>
        match fatEntrySet v c (fatEocVal v.kind) with
        | none => (none, v)
        | some v =>
          match fatWriteCluster v c zeros with
          | none => (none, v)
          | some v => (some (.cluster c, 0), v)

def fatFindFreeSlots (v : Vol) (dir need : Nat) : Option (Block × Nat) × Vol :=
  match searchSlots v need (dirBlocks v dir) with
  | none => (none, v)
  | some (some ref) => (some ref, v)
  | some none => if dir ≥ 2 then growDir v dir else (none, v)

def fatWriteDirentAt (v : Vol) (b : Block) (i : Nat) (entry : Mem) : Bool × Vol :=
  if 32 * i + 32 > blockBytes v b then (false, v)
  else
    match fatReadBlock v b with
    | none => (false, v)
    | some blk => (true, fatWriteBlock v b (copyIn blk (32 * i) 32 entry))

def lfnEntry (name : Str) (ck : U8) (total n : Nat) : Mem :=
  let ent := writeBytes zeros 0 [BitVec.ofNat 8 n ||| if n = total then 0x40 else 0x00]
  let ent := writeBytes (writeBytes ent 11 [attrLfn]) 13 [ck]
  (List.range 13).foldl (fun m i => write16 m (lfnOffTab.getD i 0) (lfnUnit name ((n - 1) * 13 + i))) ent

def shortEntry (k : Kind) (sn : Str) (attr : U8) (first size : Nat) (stamp : U16 × U16) : Mem :=
  let ent := writeBytes (writeBytes zeros 0 (sn.take 11)) 11 [attr]
  let ent := write16 (write16 (write16 ent 14 stamp.1) 16 stamp.2) 18 stamp.2
  let ent := write16 (write16 ent 22 stamp.1) 24 stamp.2
  let ent := if k = .fat32 then write16 ent 20 (BitVec.ofNat 16 (first / 65536)) else ent
  write32 (write16 ent 26 (BitVec.ofNat 16 first)) 28 (BitVec.ofNat 32 size)

def writeLong (v : Vol) (b : Block) (i : Nat) (name : Str) (ck : U8) (total : Nat) : Nat → Bool × Vol
  | 0 => (true, v)
  | n + 1 =>
    match fatWriteDirentAt v b (i + (total - (n + 1))) (lfnEntry name ck total (n + 1)) with
    | (false, v) => (false, v)
    | (true, v) => writeLong v b i name ck total n

def writeDirEntries (v : Vol) (ref : Block × Nat) (name sn : Str) (lfn : Nat) (attr : U8) (first size : Nat)
    (stamp : U16 × U16) : Bool × Vol :=
  match writeLong v ref.1 ref.2 name (lfnChecksum (memOf sn)) lfn lfn with
  | (false, v) => (false, v)
  | (true, v) => fatWriteDirentAt v ref.1 (ref.2 + lfn) (shortEntry v.kind sn attr first size stamp)

/-- Is an entry shown under a name, as `make_alias` asks. -/
def probe (v : Vol) (f : Frame) (dir : Nat) : Nat → Str → Bool := fun n name =>
  (fatFindEntry v (f.probes n) dir name).isSome

def enterName (v : Vol) (dir : Nat) (leaf sn : Str) (lfn : Nat) (attr : U8) (first size : Nat)
    (stamp : U16 × U16) : Bool × Vol :=
  match fatFindFreeSlots v dir (1 + lfn) with
  | (none, v) => (false, dropChain v first)
  | (some ref, v) =>
    match writeDirEntries v ref leaf sn lfn attr first size stamp with
    | (false, v) => (false, dropChain v first)
    | (true, v) => (true, v)

/-- The path that a call works on; `none` when it is refused. The second check of the length in the source
always succeeds. -/
def newLeaf (s : Sys) (f : Frame) (name : Str) : Option (Nat × Str) :=
  if cstr name = [] ∨ (cstr name).length > 255 then none
  else
    match fatResolveLeaf s f (cstr name) with
    | none => none
    | some (dir, leaf) => if (fatFindEntry s.vol f.leaf dir leaf).isSome then none else some (dir, leaf)

def fatCreateFile (s : Sys) (f : Frame) (name : Str) (data : Mem) (size : U32) : Bool × Sys :=
  if (cstr name).getLast? = some Fs.slash then (false, s)
  else
    match newLeaf s f name with
    | none => (false, s)
    | some (dir, leaf) =>
      match prepareNames (probe s.vol f dir) leaf with
      | none => (false, s)
      | some (sn, lfn) =>
        match storeData s.vol data size.toNat with
        | (none, v) => (false, { s with vol := v })
        | (some first, v) =>
          let (ok, v) := enterName v dir leaf sn lfn attrArchive first size.toNat (f.clock 0)
          (ok, { s with vol := v })

def dotName : Str := padTo 11 [dot]
def dotDotName : Str := padTo 11 [dot, dot]

def dirCluster (k : Kind) (c parent : Nat) (f : Frame) : Mem :=
  copyIn (copyIn zeros 0 32 (shortEntry k dotName attrDirectory c 0 (f.clock 0))) 32 32
    (shortEntry k dotDotName attrDirectory parent 0 (f.clock 1))

def fatMkdir (s : Sys) (f : Frame) (name : Str) : Bool × Sys :=
  match newLeaf s f name with
  | none => (false, s)
  | some (parent, leaf) =>
    match fatAllocCluster s.vol with
    | (c, v) =>
      if c = 0 then (false, { s with vol := v })
      else
        match fatEntrySet v c (fatEocVal v.kind) with
        | none => (false, { s with vol := dropChain v c })
        | some v =>
          match fatWriteCluster v c (dirCluster v.kind c parent f) with
          | none => (false, { s with vol := dropChain v c })
          | some v =>
            match prepareNames (probe v f parent) leaf with
            | none => (false, { s with vol := v })
            | some (sn, lfn) =>
              let (ok, v) := enterName v parent leaf sn lfn attrDirectory c 0 (f.clock 2)
              (ok, { s with vol := v })

/-- `empty_check_cb` over a directory; one that cannot be read counts as empty. -/
def fatDirEmpty (v : Vol) (junk : Junk) (dir : Nat) : Bool := (dirents v junk dir).1.all fun e => isDotName e.name

def eraseBack (blk : Mem) : Nat → Mem
  | 0 => blk
  | i + 1 =>
    if slotAt blk i 11 &&& attrLfn = attrLfn ∧ slotAt blk i 0 ≠ deletedEntry then
      eraseBack (writeBytes blk (32 * i) [deletedEntry]) i
    else blk

def eraseEntry (v : Vol) (e : Dirent) : Bool × Vol :=
  if 32 * e.slot + 32 > blockBytes v e.block then (false, v)
  else
    match fatReadBlock v e.block with
    | none => (false, v)
    | some blk =>
      (true, fatWriteBlock v e.block (writeBytes (eraseBack blk e.slot) (32 * e.slot) [deletedEntry]))

def fatDeleteFile (s : Sys) (f : Frame) (name : Str) : Bool × Sys :=
  match fatResolveLeaf s f (cstr name) with
  | none => (false, s)
  | some (dir, leaf) =>
    match fatFindEntry s.vol f.leaf dir leaf with
    | none => (false, s)
    | some e =>
      if e.isDir ∧ fatDirEmpty s.vol f.inside e.firstCluster = false then (false, s)
      else
        let (ok, v) := eraseEntry (dropChain s.vol e.firstCluster) e
        (ok, { s with vol := v })

/-- Its own lookups are those of `f`; `fat_delete_file` is called with a stack of its own. -/
def fatRmdir (s : Sys) (f g : Frame) (name : Str) : Bool × Sys :=
  if cstr name = [] ∨ isDotName (cstr name) then (false, s)
  else
    match fatResolveLeaf s f (cstr name) with
    | none => (false, s)
    | some (dir, leaf) =>
      if isDotName leaf then (false, s)
      else
        match fatFindEntry s.vol f.leaf dir leaf with
        | none => (false, s)
        | some e => if e.isDir = false ∨ e.firstCluster = 0 then (false, s) else fatDeleteFile s g name

def fatChangeDir (s : Sys) (f : Frame) (name : Str) : Bool × Sys :=
  match Fs.fatChangeDir (findIn s.vol f) s.cwd (cstr name) with
  | (ok, cwd) => (ok, { s with cwd := cwd })

end Ezos.Fat
