import Ezos.Types
import Ezos.Lib.Memory

/-!
# A mounted FAT volume (`kernel/fat.c`)

The FAT is the table of its entries, and the root directory area and the clusters are blocks of bytes; the
write-through sector cache is not seen from here. Cluster numbers are natural numbers. A block that the
device cannot read is in `unreadable`.
-/

namespace Ezos.Fat

open Lib.Memory

set_option autoImplicit false

inductive Kind
  | fat12 | fat16 | fat32
deriving DecidableEq, Repr

structure Info where
  bytesPerSector : Nat
  sectorsPerCluster : Nat
  clusterCount : Nat
  rootDirSectors : Nat
  rootCluster : Nat
deriving DecidableEq, Repr

inductive Block
  | root (i : Nat)
  | cluster (c : Nat)
deriving DecidableEq, Repr

/-- `fat2` is the second FAT, which no code here reads or writes; `hint` is `alloc_hint`. -/
structure Vol where
  kind : Kind
  info : Info
  fat : Nat → Nat
  fat2 : Nat → Nat
  root : Nat → Mem
  data : Nat → Mem
  unreadable : Block → Bool
  hint : Nat

def Vol.limit (v : Vol) : Nat := v.info.clusterCount + 2

def Vol.clusterSize (v : Vol) : Nat := v.info.bytesPerSector * v.info.sectorsPerCluster

def noEntry : Nat := 0xFFFFFFFF

def fatEntryGet (v : Vol) (n : Nat) : Nat := if n < 2 ∨ n ≥ v.limit then noEntry else v.fat n

def Kind.size : Kind → Nat
  | .fat12 => 2 ^ 12
  | .fat16 => 2 ^ 16
  | .fat32 => 2 ^ 28

def fatEntrySet (v : Vol) (n val : Nat) : Option Vol :=
  if n < 2 ∨ n ≥ v.limit then none
  else some { v with fat := fun i => if i = n then val % v.kind.size else v.fat i }

def fatIsEoc (k : Kind) (x : Nat) : Bool :=
  match k with
  | .fat12 => decide (x ≥ 0xFF8)
  | .fat16 => decide (x ≥ 0xFFF8)
  | .fat32 => decide (x ≥ 0x0FFFFFF8)

def fatIsBad (k : Kind) (x : Nat) : Bool :=
  match k with
  | .fat12 => x == 0xFF7
  | .fat16 => x == 0xFFF7
  | .fat32 => x == 0x0FFFFFF7

def fatEocVal : Kind → Nat
  | .fat12 => 0xFFF
  | .fat16 => 0xFFFF
  | .fat32 => 0x0FFFFFFF

/-- The scan of `fat_alloc_cluster` over `n` more clusters; 0 when there is none. -/
def allocScan (v : Vol) : Nat → Nat × Vol
  | 0 => (0, v)
  | n + 1 =>
    let c := if v.hint ≥ v.limit then 2 else v.hint
    if fatEntryGet v c = 0 then (c, { v with hint := if c + 1 ≥ v.limit then 2 else c + 1 })
    else allocScan { v with hint := c + 1 } n

def fatAllocCluster (v : Vol) : Nat × Vol :=
  let v := if v.hint < 2 ∨ v.hint ≥ v.limit then { v with hint := 2 } else v
  allocScan v v.info.clusterCount

/-- The loop of `fat_free_chain` at `cur`; `n` is how many more steps it may take. -/
def freeLoop (v : Vol) (first cur : Nat) : Nat → Option Vol
  | 0 => some v
  | n + 1 =>
    if cur < 2 ∨ cur ≥ v.limit then some v
    else
      let next := fatEntryGet v cur
      match fatEntrySet v cur 0 with
      | none => none
      | some v =>
        let v := if first < v.hint then { v with hint := first } else v
        if fatIsEoc v.kind next ∨ next < 2 ∨ fatIsBad v.kind next then some v
        else freeLoop v first next n

def fatFreeChain (v : Vol) (first : Nat) : Option Vol :=
  if first < 2 then some v else freeLoop v first first v.limit

def rootDirClusterValue (v : Vol) : Nat := if v.kind = .fat32 then v.info.rootCluster else 0

def blockBytes (v : Vol) : Block → Nat
  | .root _ => v.info.bytesPerSector
  | .cluster _ => v.clusterSize

def blockAt (v : Vol) : Block → Mem
  | .root i => v.root i
  | .cluster c => v.data c

def fatReadBlock (v : Vol) (b : Block) : Option Mem := if v.unreadable b then none else some (blockAt v b)

def fatWriteBlock (v : Vol) (b : Block) (buf : Mem) : Vol :=
  match b with
  | .root i => { v with root := fun j => if j = i then buf else v.root j }
  | .cluster c => { v with data := fun d => if d = c then buf else v.data d }

def fatDirBlock (v : Vol) (dir : Nat) : Option Block :=
  if dir = 0 ∧ v.kind ≠ .fat32 then
    if v.info.rootDirSectors = 0 then none else some (.root 0)
  else if dir < 2 ∨ dir ≥ v.limit then none
  else some (.cluster dir)

def fatDirMaxBlocks (v : Vol) (dir : Nat) : Nat :=
  if dir = 0 ∧ v.kind ≠ .fat32 then
    if v.info.rootDirSectors = 0 then 1 else v.info.rootDirSectors
  else if v.info.clusterCount = 0 then 1
  else v.limit

def fatDirStep (v : Vol) : Block → Option Block
  | .root i => if i + 1 ≥ v.info.rootDirSectors then none else some (.root (i + 1))
  | .cluster c =>
    let nxt := fatEntryGet v c
    if nxt < 2 ∨ nxt ≥ v.limit ∨ fatIsEoc v.kind nxt ∨ fatIsBad v.kind nxt then none
    else some (.cluster nxt)

structure DirWalk where
  fast : Block
  slow : Block
  steps : Nat
  max : Nat

def fatDirWalkStart (v : Vol) (dir : Nat) : Option DirWalk :=
  match fatDirBlock v dir with
  | none => none
  | some b => some { fast := b, slow := b, steps := 0, max := fatDirMaxBlocks v dir }

def sameCluster : Block → Block → Bool
  | .cluster c, .cluster d => c == d
  | _, _ => false

def fatDirWalkNext (v : Vol) (w : DirWalk) : Option DirWalk :=
  match fatDirStep v w.fast with
  | none => none
  | some fast =>
    let w := { w with fast := fast, steps := w.steps + 1 }
    if w.steps ≥ w.max then none
    else if w.steps % 2 = 0 then
      match fatDirStep v w.slow with
      | none => none
      | some slow => if sameCluster w.fast slow then none else some { w with slow := slow }
    else some w

def walkBlocks (v : Vol) (w : DirWalk) : Nat → List Block
  | 0 => [w.fast]
  | n + 1 =>
    match fatDirWalkNext v w with
    | none => [w.fast]
    | some w' => w.fast :: walkBlocks v w' n

def dirBlocks (v : Vol) (dir : Nat) : List Block :=
  match fatDirWalkStart v dir with
  | none => []
  | some w => walkBlocks v w w.max

end Ezos.Fat
