import Ezos.Fat.Volume

/-!
# Directory entries and long names (`kernel/fat.c`)

A directory is read slot by slot, 32 bytes each. The slots of a long name come before their short entry, the
last part of the name first. `lfn_chars` lies on the stack of `fat_dir_foreach` and nothing is written to it
before the first long name: what it starts with is the argument `junk`. The callbacks leave the volume and
the name being collected alone, so an enumeration is the list of the entries it would pass to them.
-/

namespace Ezos.Fat

open Lib.Memory

set_option autoImplicit false

abbrev Str := List U8

abbrev Junk := Nat → U16

def attrVolumeId : U8 := 0x08
def attrDirectory : U8 := 0x10
def attrArchive : U8 := 0x20
def attrLfn : U8 := 0x0F
def deletedEntry : U8 := 0xE5

def slotAt (blk : Mem) (i : Nat) : Mem := fun k => blk (32 * i + k)

/-- `lfn_state_t`; `expect` is `none` for -1. -/
structure Lfn where
  chars : Nat → U16
  len : Nat
  cksum : U8
  expect : Option Nat
  blocks : Nat

def lfnReset (st : Lfn) : Lfn := { st with len := 0, expect := none, blocks := 0 }

def lfnOffTab : List Nat := [1, 3, 5, 7, 9, 14, 16, 18, 20, 22, 24, 28, 30]

def lfnChar (e : Mem) (i : Nat) : U16 := read16 e (lfnOffTab.getD i 0)

def storeChars (e : Mem) (base : Nat) (chars : Nat → U16) : Nat → U16 := fun pos =>
  if base ≤ pos ∧ pos < base + 13 ∧ pos < 255 ∧ lfnChar e (pos - base) ≠ 0x0000 ∧
      lfnChar e (pos - base) ≠ 0xFFFF then lfnChar e (pos - base)
  else chars pos

def lfnPush (st : Lfn) (e : Mem) : Lfn :=
  let seq := (e 0 &&& 0x1F).toNat
  if seq < 1 ∨ seq > 20 then lfnReset st
  else if st.expect ≠ none ∧ st.expect ≠ some (seq + 1) then lfnReset st
  else
    { st with
      expect := some seq
      blocks := if st.blocks < 24 then st.blocks + 1 else st.blocks
      chars := storeChars e ((seq - 1) * 13) st.chars
      len := if seq * 13 > st.len then min (seq * 13) 255 else st.len }

def lfnChecksum (sn : Mem) : U8 :=
  (List.range 11).foldl (fun sum i => ((sum &&& 1) <<< 7) + (sum >>> 1) + sn i) 0

def space : U8 := 0x20

def trimLen (sn : Mem) (off : Nat) : Nat → Nat
  | 0 => 0
  | n + 1 => if sn (off + n) = space then trimLen sn off n else n + 1

def lowerIf (flag : Bool) (c : U8) : U8 := if flag ∧ 0x41 ≤ c ∧ c ≤ 0x5A then c + 0x20 else c

def shortnameToStr (e : Mem) : Str :=
  let nt := e 12
  let base := (List.range (trimLen e 0 8)).map fun i =>
    lowerIf (nt &&& 0x08 ≠ 0) (if e i = 0x05 then 0xE5 else e i)
  let ext := (List.range (trimLen e 8 3)).map fun i => lowerIf (nt &&& 0x10 ≠ 0) (e (8 + i))
  (if ext = [] then base else base ++ 0x2E :: ext).takeWhile (· ≠ 0)

def shownChar (ch : U16) : U8 := if 32 ≤ ch ∧ ch < 127 then ch.setWidth 8 else 0x5F

def lfnName (chars : Nat → U16) (i : Nat) : Nat → Str
  | 0 => []
  | n + 1 => if chars i = 0x0000 then [] else shownChar (chars i) :: lfnName chars (i + 1) n

/-- `fat_dirent_t`; `slot` is the index of the short entry in its block. -/
structure Dirent where
  name : Str
  firstCluster : Nat
  size : Nat
  isDir : Bool
  attr : U8
  block : Block
  slot : Nat
  lfnCount : Nat

def entryCluster (k : Kind) (e : Mem) : Nat :=
  (read16 e 26).toNat + 65536 * (if k = .fat32 then (read16 e 20).toNat else 0)

def lfnFor (st : Lfn) (e : Mem) : Option Str :=
  if st.len > 0 ∧ st.expect = some 1 ∧ st.cksum = lfnChecksum e then
    match lfnName st.chars 0 (min st.len 255) with
    | [] => none
    | c :: name => some (c :: name)
  else none

def direntFromShort (k : Kind) (e : Mem) (st : Lfn) (b : Block) (slot : Nat) : Option Dirent :=
  if e 11 &&& attrVolumeId ≠ 0 then none
  else
    some
      { name := (lfnFor st e).getD (shortnameToStr e)
        firstCluster := entryCluster k e
        size := (read32 e 28).toNat
        isDir := e 11 &&& attrDirectory ≠ 0
        attr := e 11
        block := b
        slot := slot
        lfnCount := if (lfnFor st e).isSome then st.blocks else 0 }

/-- `n` slots of a block from slot `i` on: the entries, whether the end mark was met, and the state of the
long name. -/
def scanSlots (k : Kind) (b : Block) (blk : Mem) (i : Nat) (st : Lfn) : Nat → List Dirent × Bool × Lfn
  | 0 => ([], false, st)
  | n + 1 =>
    let e := slotAt blk i
    if e 0 = 0x00 then ([], true, st)
    else if e 0 = deletedEntry then scanSlots k b blk (i + 1) (lfnReset st) n
    else if e 11 &&& attrLfn = attrLfn then scanSlots k b blk (i + 1) (lfnPush { st with cksum := e 13 } e) n
    else
      match direntFromShort k e st b i with
      | none => scanSlots k b blk (i + 1) (lfnReset st) n
      | some de =>
        let (des, stop, st) := scanSlots k b blk (i + 1) (lfnReset st) n
        (de :: des, stop, st)

def slotsOf (v : Vol) (b : Block) : Nat := blockBytes v b / 32

def scanBlocks (v : Vol) (st : Lfn) : List Block → List Dirent × Bool
  | [] => ([], false)
  | b :: bs =>
    match fatReadBlock v b with
    | none => ([], true)
    | some blk =>
      match scanSlots v.kind b blk 0 (lfnReset st) (slotsOf v b) with
      | (des, true, _) => (des, false)
      | (des, false, st) =>
        let (rest, failed) := scanBlocks v st bs
        (des ++ rest, failed)

def freshLfn (junk : Junk) : Lfn := { chars := junk, len := 0, cksum := 0, expect := none, blocks := 0 }

/-- What `fat_dir_foreach` passes to its callback, and whether it then ends with -1. -/
def dirents (v : Vol) (junk : Junk) (dir : Nat) : List Dirent × Bool :=
  scanBlocks v (freshLfn junk) (dirBlocks v dir)

def untilStop {σ : Type} (cb : σ → Dirent → σ × Bool) (s : σ) : List Dirent → σ × Bool
  | [] => (s, false)
  | e :: es =>
    match cb s e with
    | (s, true) => (s, true)
    | (s, false) => untilStop cb s es

def fatDirForeach {σ : Type} (v : Vol) (junk : Junk) (dir : Nat) (cb : σ → Dirent → σ × Bool) (s : σ) :
    σ × Bool :=
  let (des, failed) := dirents v junk dir
  match untilStop cb s des with
  | (s, true) => (s, true)
  | (s, false) => (s, !failed)

def upChar (c : U8) : U8 := if 0x61 ≤ c ∧ c ≤ 0x7A then c - 0x20 else c

def nameEq (a b : Str) : Bool := a.map upChar == b.map upChar

def fatFindEntry (v : Vol) (junk : Junk) (dir : Nat) (name : Str) : Option Dirent :=
  (dirents v junk dir).1.find? fun e => nameEq e.name name

def isDotName (name : Str) : Bool := name == [0x2E] || name == [0x2E, 0x2E]

end Ezos.Fat

/-!
# Short names (`kernel/fat.c`)

A name that fits the 8.3 form gets it; any other gets the first alias `BASE~n.EXT` under which the
directory shows no entry. The directory is asked through `found`.
-/

namespace Ezos.Fat

open Lib.Memory

def dot : U8 := 0x2E
def tilde : U8 := 0x7E

def memOf (l : Str) : Mem := fun i => l.getD i 0

def sfnCharOk (c : U8) : Bool :=
  decide (0x41 ≤ c ∧ c ≤ 0x5A) || decide (0x30 ≤ c ∧ c ≤ 0x39) ||
    [0x21, 0x23, 0x24, 0x25, 0x26, 0x27, 0x28, 0x29, 0x2D, 0x40, 0x5E, 0x5F, 0x60, 0x7B, 0x7D, 0x7E].contains c

def sn11ToStr (sn : Mem) : Str :=
  let base := (List.range (trimLen sn 0 8)).map sn
  let ext := (List.range (trimLen sn 8 3)).map fun i => sn (8 + i)
  if ext = [] then base else base ++ dot :: ext

def padTo (n : Nat) (l : Str) : Str := l ++ List.replicate (n - l.length) space

def baseOf (name : Str) : Str := name.takeWhile (· ≠ dot)
def extOf (name : Str) : Str := (name.dropWhile (· ≠ dot)).drop 1

def tryMakeSfn (name : Str) : Option Str :=
  if name.count dot ≥ 2 then none
  else if (baseOf name).length < 1 ∨ (baseOf name).length > 8 then none
  else if (extOf name).length > 3 then none
  else
    let base := (baseOf name).map upChar
    let ext := (extOf name).map upChar
    if base.all sfnCharOk && ext.all sfnCharOk then some (padTo 8 base ++ padTo 3 ext) else none

def aliasBase (name : Str) : Str :=
  match (((baseOf name).map upChar).filter sfnCharOk).take 8 with
  | [] => [0x5F]
  | c :: cs => c :: cs

def aliasExt (name : Str) : Str := (((extOf name).map upChar).filter sfnCharOk).take 3

def decimal (n : Nat) : Str := (Nat.toDigits 10 n).map fun c => BitVec.ofNat 8 c.toNat

def aliasKeep (bl sl : Nat) : Nat := max 1 (min (8 - 1 - sl) bl)

def aliasOf (name : Str) (n : Nat) : Str :=
  let base := aliasBase name
  padTo 8 (base.take (aliasKeep base.length (decimal n).length) ++ tilde :: decimal n) ++
    padTo 3 (aliasExt name)

/-- The loop of `make_alias` from number `n` on, over `k` numbers. -/
def aliasFrom (found : Nat → Str → Bool) (name : Str) (n : Nat) : Nat → Option Str
  | 0 => none
  | k + 1 =>
    if found n (sn11ToStr (memOf (aliasOf name n))) then aliasFrom found name (n + 1) k
    else some (aliasOf name n)

def aliasMax : Nat := 999999

def makeAlias (found : Nat → Str → Bool) (name : Str) : Option Str := aliasFrom found name 1 aliasMax

def plainName (name : Str) : Option Str :=
  match tryMakeSfn name with
  | none => none
  | some sn => if nameEq (sn11ToStr (memOf sn)) name then some sn else none

def lfnEntries (name : Str) : Nat := (name.length + 12) / 13

def lfnUnit (name : Str) (idx : Nat) : U16 :=
  if idx < name.length then (name.getD idx 0).setWidth 16 else if idx = name.length then 0x0000 else 0xFFFF

def prepareNames (found : Nat → Str → Bool) (name : Str) : Option (Str × Nat) :=
  match plainName name with
  | some sn => some (sn, 0)
  | none =>
    match makeAlias found name with
    | none => none
    | some sn => some (sn, lfnEntries name)

def slotsFor (name : Str) : Nat := 1 + if (plainName name).isSome then 0 else lfnEntries name

theorem slotsFor_of_prepareNames {found : Nat → Str → Bool} {name sn : Str} {n : Nat}
    (h : prepareNames found name = some (sn, n)) : slotsFor name = 1 + n := by
  unfold prepareNames at h
  unfold slotsFor
  cases hp : plainName name with
  | some sn' =>
    rw [hp] at h
    obtain ⟨-, rfl⟩ := Prod.mk.inj (Option.some.inj h)
    rfl
  | none =>
    rw [hp] at h
    dsimp only at h
    split at h
    · contradiction
    · obtain ⟨-, rfl⟩ := Prod.mk.inj (Option.some.inj h)
      rfl

end Ezos.Fat
