import Ezos.Fat.Dirents
import Ezos.Exfat.Fsck
import Ezos.Lib.Unfold
import Ezos.Lib.Ring
import Mathlib.Data.Set.Finite.Basic
import Mathlib.Data.Fintype.Basic
import Mathlib.Data.Nat.Find

/-!
# `fat_fsck`

The checker marks every cluster that the directory tree reaches and compares the marks with the FAT. The
tree is walked breadth first through a ring buffer of 1024 directories. The head and tail indices are
numbers without a bound; in the source they are `int`.
-/

namespace Ezos.Fat

open Lib.Memory Lib.ByteBitmap Exfat

set_option autoImplicit false

def fatFsckMaxDirs : Nat := 1024

/-- `fat_fsck_ctx_t`; the queue has room for `fatFsckMaxDirs` directories. -/
structure FsckCtx where
  report : FsckReport
  bm : Mem
  queue : Nat → Nat
  head : Nat
  tail : Nat
  overflow : Bool

def recordBad (r : FsckReport) (c : Nat) : FsckReport := fsckRecordBad r (BitVec.ofNat 32 c)

def badChain (x : FsckCtx) (c : Nat) : FsckCtx :=
  { x with report := recordBad { x.report with badChain := x.report.badChain + 1 } c }

def markCluster (x : FsckCtx) (c : Nat) : FsckCtx :=
  if getBit x.bm (c - 2) then
    { x with report := recordBad { x.report with crosslink := x.report.crosslink + 1 } c }
  else { x with bm := setBit x.bm (c - 2) }

def countLoop (x : FsckCtx) (c : Nat) : FsckCtx :=
  { x with report := recordBad { x.report with loop := x.report.loop + 1 } c }

def countTruncated (x : FsckCtx) (need steps : Nat) : FsckCtx :=
  if need ≠ 0 ∧ steps < need then { x with report := { x.report with truncated := x.report.truncated + 1 } }
  else x

/-- The loop of `fat_fsck_chain` at cluster `c` after `steps` clusters; the last argument is how many more
there may be until the chain counts as a loop. -/
def fsckChain (v : Vol) (x : FsckCtx) (c need steps : Nat) : Nat → FsckCtx
  | 0 => if c < 2 ∨ c ≥ v.limit then badChain x c else countLoop (markCluster x c) c
  | left + 1 =>
    if c < 2 ∨ c ≥ v.limit then badChain x c
    else
      let x := markCluster x c
      let nxt := fatEntryGet v c
      if fatIsEoc v.kind nxt then countTruncated x need (steps + 1)
      else if fatIsBad v.kind nxt then countTruncated (badChain x c) need (steps + 1)
      else if nxt < 2 ∨ nxt ≥ v.limit then badChain x c
      else fsckChain v x nxt need (steps + 1) left

def fatFsckChain (v : Vol) (x : FsckCtx) (first need : Nat) : FsckCtx :=
  if first < 2 then x else fsckChain v x first need 0 v.info.clusterCount

def fsckNeed (v : Vol) (e : Dirent) : Nat :=
  if e.isDir = false ∧ e.size > 0 ∧ v.clusterSize > 0 then
    (e.size + v.clusterSize - 1) % 2 ^ 32 / v.clusterSize
  else 0

def fatFsckDirentCb (v : Vol) (x : FsckCtx) (e : Dirent) : FsckCtx × Bool :=
  if isDotName e.name then (x, false)
  else
    let x := fatFsckChain v x e.firstCluster (fsckNeed v e)
    if e.isDir ∧ e.firstCluster ≥ 2 then
      if x.tail - x.head ≥ fatFsckMaxDirs then ({ x with overflow := true }, true)
      else
        ({ x with queue := Lib.Ring.put x.queue (x.tail % fatFsckMaxDirs) e.firstCluster,
                  tail := x.tail + 1 }, false)
    else (x, false)

/-- The traversal, `fuel` directories of it; the outer `none` means that it is not done, and the second
component is false when it was given up. -/
def fsckBfs (v : Vol) (junk : Nat → Junk) (x : FsckCtx) : Nat → Option (FsckCtx × Bool)
  | 0 => none
  | fuel + 1 =>
    if x.head < x.tail then
      let d := x.queue (x.head % fatFsckMaxDirs)
      match fatDirForeach v (junk d) d (fatFsckDirentCb v) { x with head := x.head + 1 } with
      | (x, ok) => if ok = false ∨ x.overflow then some (x, false) else fsckBfs v junk x fuel
    else some (x, true)

def fsckCompare (v : Vol) (bm : Mem) (r : FsckReport) (c : Nat) : Nat → FsckReport
  | 0 => r
  | n + 1 =>
    let r :=
      match decide (fatEntryGet v c ≠ 0), getBit bm (c - 2) with
      | true, false => recordBad { r with orphan := r.orphan + 1 } c
      | false, true => recordBad { r with freeButUsed := r.freeButUsed + 1 } c
      | _, _ => r
    fsckCompare v bm r (c + 1) n

structure FsckBuffers where
  bm : Option Mem
  queue : Option (Nat → Nat)

def bmBytes (v : Vol) : Nat := (v.info.clusterCount + 7) / 8

def fsckStart (v : Vol) (r : FsckReport) (bm : Mem) (queue : Nat → Nat) : FsckCtx :=
  let x : FsckCtx :=
    { report := r, bm := fill bm 0 (bmBytes v) 0, queue := queue, head := 0, tail := 0, overflow := false }
  let root := rootDirClusterValue v
  let x := if root ≥ 2 then fatFsckChain v x root 0 else x
  { x with queue := Lib.Ring.put x.queue x.tail root, tail := x.tail + 1 }

/-- `fat_fsck` on a mounted volume; `junk` is what `lfn_chars` starts with for each directory. The traversal
has served `fuel` directories when the result is `none`. -/
def fatFsck (v : Vol) (junk : Nat → Junk) (r : FsckReport) (m : FsckBuffers) (fuel : Nat) :
    Option (Int × FsckReport) :=
  let r := { r with clustersTotal := BitVec.ofNat 32 v.info.clusterCount }
  if v.info.clusterCount = 0 then some (-1, r)
  else
    match m.bm, m.queue with
    | some bm, some queue =>
      match fsckBfs v junk (fsckStart v r bm queue) fuel with
      | none => none
      | some (x, false) => some (-3, x.report)
      | some (x, true) => some (0, fsckCompare v x.bm x.report 2 v.info.clusterCount)
    | _, _ => some (-2, r)

end Ezos.Fat

/-!
## Does `fat_fsck` come to an end?

No directory is ever recognised as seen before: the traversal is that of `Lib.Unfold` on the graph that the
subdirectory entries make.
-/

namespace Ezos.Fat

open Lib.Memory Lib.ByteBitmap Exfat Lib.Unfold

variable {v : Vol} {junk : Nat → Junk} {x : FsckCtx} {e : Dirent} {es : List Dirent} {d c : Nat}

def isSub (e : Dirent) : Bool := !isDotName e.name && e.isDir && decide (e.firstCluster ≥ 2)

def subClusters (es : List Dirent) : List Nat := (es.filter isSub).map fun e => e.firstCluster

def subdirs (v : Vol) (junk : Nat → Junk) (d : Nat) : List Nat := subClusters (dirents v (junk d) d).1

/-- What serving `d` puts in the queue. A directory that cannot be read ends the scan, as does one with
more subdirectories than the queue has room for. -/
def fsckKids (v : Vol) (junk : Nat → Junk) (d : Nat) : List Nat :=
  if (dirents v (junk d) d).2 then List.replicate (fatFsckMaxDirs + 1) d else subdirs v junk d

def FsckCtx.waiting (x : FsckCtx) : List Nat := Lib.Ring.contents x.queue fatFsckMaxDirs x.head x.tail

structure SameQueue (x y : FsckCtx) : Prop where
  queue : y.queue = x.queue
  head : y.head = x.head
  tail : y.tail = x.tail
  overflow : y.overflow = x.overflow

theorem SameQueue.refl (x : FsckCtx) : SameQueue x x := ⟨rfl, rfl, rfl, rfl⟩

theorem SameQueue.trans {y z : FsckCtx} (h : SameQueue x y) (h' : SameQueue y z) : SameQueue x z :=
  ⟨h'.queue.trans h.queue, h'.head.trans h.head, h'.tail.trans h.tail, h'.overflow.trans h.overflow⟩

theorem badChain_queue : SameQueue x (badChain x c) := ⟨rfl, rfl, rfl, rfl⟩

theorem countLoop_queue : SameQueue x (countLoop x c) := ⟨rfl, rfl, rfl, rfl⟩

theorem markCluster_queue : SameQueue x (markCluster x c) := by
  unfold markCluster
  split <;> exact ⟨rfl, rfl, rfl, rfl⟩

theorem countTruncated_queue {need steps : Nat} : SameQueue x (countTruncated x need steps) := by
  unfold countTruncated
  split
  · exact ⟨rfl, rfl, rfl, rfl⟩
  · exact .refl x

theorem fsckChain_queue {need steps left : Nat} : SameQueue x (fsckChain v x c need steps left) := by
  induction left generalizing x c steps with
  | zero =>
    unfold fsckChain
    split
    · exact badChain_queue
    · exact markCluster_queue.trans countLoop_queue
  | succ left ih =>
    unfold fsckChain
    split
    · exact badChain_queue
    · dsimp only
      have hmark : SameQueue x (markCluster x c) := markCluster_queue
      split
      · exact hmark.trans countTruncated_queue
      · split
        · exact hmark.trans (badChain_queue.trans countTruncated_queue)
        · split
          · exact hmark.trans badChain_queue
          · exact hmark.trans ih

theorem fatFsckChain_queue {need : Nat} : SameQueue x (fatFsckChain v x c need) := by
  unfold fatFsckChain
  split
  · exact .refl x
  · exact fsckChain_queue

structure Serving (x : FsckCtx) : Prop where
  order : x.head ≤ x.tail
  room : x.tail - x.head ≤ fatFsckMaxDirs
  overflow : x.overflow = false

theorem length_waiting : x.waiting.length = x.tail - x.head := Lib.Ring.length_contents

theorem SameQueue.waiting {y : FsckCtx} (h : SameQueue x y) : y.waiting = x.waiting := by
  unfold FsckCtx.waiting
  rw [h.queue, h.head, h.tail]

theorem SameQueue.serving {y : FsckCtx} (h : SameQueue x y) (hx : Serving x) : Serving y :=
  ⟨by rw [h.head, h.tail]; exact hx.order, by rw [h.head, h.tail]; exact hx.room,
    h.overflow.trans hx.overflow⟩

theorem direntCb_cases (h : Serving x) :
    (isSub e = false ∧ ∃ y, fatFsckDirentCb v x e = (y, false) ∧ Serving y ∧ y.waiting = x.waiting) ∨
    (isSub e = true ∧ x.waiting.length < fatFsckMaxDirs ∧ ∃ y, fatFsckDirentCb v x e = (y, false) ∧
      Serving y ∧ y.waiting = x.waiting ++ [e.firstCluster]) ∨
    (isSub e = true ∧ fatFsckMaxDirs ≤ x.waiting.length ∧ ∃ y, fatFsckDirentCb v x e = (y, true) ∧
      y.overflow = true) := by
  unfold fatFsckDirentCb isSub
  by_cases hdot : isDotName e.name = true
  · rw [if_pos hdot, hdot]
    exact Or.inl ⟨rfl, x, rfl, h, rfl⟩
  rw [if_neg hdot, (Bool.not_eq_true _).mp hdot]
  have hsame : SameQueue x (fatFsckChain v x e.firstCluster (fsckNeed v e)) := fatFsckChain_queue
  dsimp only
  generalize fatFsckChain v x e.firstCluster (fsckNeed v e) = z at hsame
  have hz := hsame.serving h
  have hlen : x.waiting.length = z.tail - z.head := by rw [← hsame.waiting, length_waiting]
  by_cases hsub : e.isDir = true ∧ e.firstCluster ≥ 2
  · rw [if_pos hsub, hsub.1, decide_eq_true hsub.2, hlen]
    refine Or.inr ?_
    by_cases hfull : z.tail - z.head ≥ fatFsckMaxDirs
    · rw [if_pos hfull]
      exact Or.inr ⟨rfl, hfull, _, rfl, rfl⟩
    · rw [if_neg hfull]
      refine Or.inl ⟨rfl, by omega, _, rfl, ⟨?_, ?_, hz.overflow⟩, ?_⟩
      · exact Nat.le_succ_of_le hz.order
      · have horder := hz.order
        have hhead : z.tail + 1 - z.head ≤ fatFsckMaxDirs := by omega
        exact hhead
      · rw [← hsame.waiting]
        exact Lib.Ring.contents_push hz.order (Nat.lt_of_not_le hfull)
  · rw [if_neg hsub]
    refine Or.inl ⟨?_, z, rfl, hz, hsame.waiting⟩
    by_contra hno
    rw [Bool.not_eq_false, Bool.and_eq_true, Bool.and_eq_true, decide_eq_true_eq] at hno
    exact hsub ⟨hno.1.2, hno.2⟩

theorem untilStop_entries (h : Serving x) :
    (x.waiting.length + (subClusters es).length ≤ fatFsckMaxDirs ∧
      ∃ y, untilStop (fatFsckDirentCb v) x es = (y, false) ∧ Serving y ∧
        y.waiting = x.waiting ++ subClusters es) ∨
    (fatFsckMaxDirs < x.waiting.length + (subClusters es).length ∧
      ∃ y, untilStop (fatFsckDirentCb v) x es = (y, true) ∧ y.overflow = true) := by
  induction es generalizing x with
  | nil =>
    refine Or.inl ⟨?_, x, rfl, h, (List.append_nil _).symm⟩
    rw [length_waiting]
    exact h.room
  | cons e es ih =>
    unfold untilStop
    rcases @direntCb_cases v x e h with ⟨hsub, y, hy, hserve, hwait⟩ | ⟨hsub, hroom, y, hy, hserve,
      hwait⟩ | ⟨hsub, hfull, y, hy, hover⟩
    · have hclusters : subClusters (e :: es) = subClusters es := by
        rw [subClusters, List.filter_cons_of_neg (by rw [hsub]; exact Bool.false_ne_true)]
        rfl
      rw [hy, hclusters, ← hwait]
      exact ih hserve
    · have hclusters : subClusters (e :: es) = e.firstCluster :: subClusters es := by
        rw [subClusters, List.filter_cons_of_pos hsub]
        rfl
      rw [hy, hclusters]
      have hnext := ih hserve
      rw [hwait, List.length_append, List.length_singleton, List.append_assoc] at hnext
      rw [List.length_cons]
      rcases hnext with ⟨hle, z, hz⟩ | ⟨hlt, z, hz⟩
      · exact Or.inl ⟨by omega, z, hz⟩
      · exact Or.inr ⟨by omega, z, hz⟩
    · have hclusters : subClusters (e :: es) = e.firstCluster :: subClusters es := by
        rw [subClusters, List.filter_cons_of_pos hsub]
        rfl
      rw [hy, hclusters, List.length_cons]
      exact Or.inr ⟨by omega, y, rfl, hover⟩

/-! ## The traversal -/

theorem fatDirForeach_cases (h : Serving x) :
    (x.waiting.length + (fsckKids v junk d).length ≤ fatFsckMaxDirs ∧
      ∃ y, fatDirForeach v (junk d) d (fatFsckDirentCb v) x = (y, true) ∧ Serving y ∧
        y.waiting = x.waiting ++ fsckKids v junk d) ∨
    (fatFsckMaxDirs < x.waiting.length + (fsckKids v junk d).length ∧
      ∃ y ok, fatDirForeach v (junk d) d (fatFsckDirentCb v) x = (y, ok) ∧
        (ok = false ∨ y.overflow = true)) := by
  unfold fatDirForeach fsckKids subdirs
  rcases dirents v (junk d) d with ⟨es, failed⟩
  dsimp only
  rcases @untilStop_entries v x es h with ⟨hfit, y, hy, hys, hwait⟩ | ⟨hover, y, hy, hyo⟩
  · rw [hy]
    cases failed with
    | true =>
      -- the directory is unreadable
      rw [if_pos rfl, List.length_replicate]
      exact Or.inr ⟨by omega, y, false, rfl, Or.inl rfl⟩
    | false => exact Or.inl ⟨hfit, y, rfl, hys, hwait⟩
  · rw [hy]
    refine Or.inr ⟨?_, y, true, rfl, Or.inr hyo⟩
    cases failed with
    | true =>
      rw [if_pos rfl, List.length_replicate]
      omega
    | false => exact hover

theorem fsckBfs_succ {y : FsckCtx} {ok : Bool} {fuel : Nat} (hlt : x.head < x.tail)
    (hd : x.queue (x.head % fatFsckMaxDirs) = d)
    (hrun : fatDirForeach v (junk d) d (fatFsckDirentCb v) { x with head := x.head + 1 } = (y, ok)) :
    fsckBfs v junk x (fuel + 1) =
      if ok = false ∨ y.overflow = true then some (y, false) else fsckBfs v junk y fuel := by
  rw [fsckBfs, if_pos hlt]
  simp only [hd, hrun]

theorem fsckBfs_eq_none_iff (h : Serving x) {fuel : Nat} :
    fsckBfs v junk x fuel = none ↔ serve (fsckKids v junk) fatFsckMaxDirs fuel x.waiting = none := by
  induction fuel generalizing x with
  | zero => exact iff_of_true rfl rfl
  | succ fuel ih =>
    by_cases hlt : x.head < x.tail
    · have hcons : x.waiting = x.queue (x.head % fatFsckMaxDirs) ::
          FsckCtx.waiting { x with head := x.head + 1 } := Lib.Ring.contents_eq_cons hlt
      have hroom := h.room
      have hserve : Serving { x with head := x.head + 1 } :=
        ⟨hlt, Nat.le_trans (Nat.sub_le_sub_left (Nat.le_succ _) _) hroom, h.overflow⟩
      rw [hcons, serve]
      rcases @fatDirForeach_cases v junk _ _ hserve with ⟨hfit, y, hy, hys, hwait⟩ |
        ⟨hover, y, ok, hy, hbad⟩
      · rw [fsckBfs_succ hlt rfl hy, if_neg (by simp [hys.overflow]), if_neg (Nat.not_lt.mpr hfit), ← hwait]
        exact ih hys
      · rw [fsckBfs_succ hlt rfl hy, if_pos hbad, if_pos hover]
        exact iff_of_false (fun hno => by contradiction) (fun hno => by contradiction)
    · have hnil : x.waiting = [] := Lib.Ring.contents_eq_nil (Nat.le_of_not_lt hlt)
      rw [fsckBfs, if_neg hlt, hnil, serve]
      exact iff_of_false (fun hno => by contradiction) (fun hno => by contradiction)

theorem entryCluster_lt (k : Kind) (e : Mem) : entryCluster k e < 2 ^ 32 := by
  have hlo := (read16 e 26).isLt
  have hhi := (read16 e 20).isLt
  unfold entryCluster
  split <;> omega

theorem firstCluster_lt_of_short {k : Kind} {s : Mem} {st : Lfn} {b : Block} {i : Nat}
    (h : direntFromShort k s st b i = some e) : e.firstCluster < 2 ^ 32 := by
  unfold direntFromShort at h
  by_cases hvol : s 11 &&& attrVolumeId ≠ 0
  · rw [if_pos hvol] at h
    contradiction
  · rw [if_neg hvol, Option.some.injEq] at h
    rw [← h]
    exact entryCluster_lt k s

theorem firstCluster_lt_of_slots {k : Kind} {b : Block} {blk : Mem} {i n : Nat} {st : Lfn}
    (h : e ∈ (scanSlots k b blk i st n).1) : e.firstCluster < 2 ^ 32 := by
  induction n generalizing i st with
  | zero => exact absurd h List.not_mem_nil
  | succ n ih =>
    unfold scanSlots at h
    dsimp only at h
    split at h
    · exact absurd h List.not_mem_nil
    · split at h
      · exact ih h
      · split at h
        · exact ih h
        · split at h
          · exact ih h
          · rename_i de hde
            rcases List.mem_cons.mp h with rfl | h
            · exact firstCluster_lt_of_short hde
            · exact ih h

theorem firstCluster_lt_of_blocks {bs : List Block} {st : Lfn} (h : e ∈ (scanBlocks v st bs).1) :
    e.firstCluster < 2 ^ 32 := by
  induction bs generalizing st with
  | nil => exact absurd h List.not_mem_nil
  | cons b bs ih =>
    unfold scanBlocks at h
    split at h
    · exact absurd h List.not_mem_nil
    · rename_i blk _
      have hmem := @firstCluster_lt_of_slots e v.kind b blk 0 (slotsOf v b) (lfnReset st)
      split at h
      · rename_i hscan
        rw [hscan] at hmem
        exact hmem h
      · rename_i hscan
        rw [hscan] at hmem
        rcases List.mem_append.mp h with h | h
        · exact hmem h
        · exact ih h

theorem mem_subdirs_lt (h : c ∈ subdirs v junk d) : c < 2 ^ 32 := by
  obtain ⟨e, he, rfl⟩ := List.mem_map.mp h
  exact firstCluster_lt_of_blocks (List.mem_filter.mp he).1

theorem reachable_finite : Finite { c // Relation.ReflTransGen (Edge (fsckKids v junk)) d c } := by
  have hbound : ∀ c, Relation.ReflTransGen (Edge (fsckKids v junk)) d c → c ∈ { i | i < d + 2 ^ 32 } := by
    intro c hc
    suffices h : c = d ∨ c < 2 ^ 32 by
      have hlt : c < d + 2 ^ 32 := by
        rcases h with rfl | h <;> omega
      exact hlt
    induction hc with
    | refl => exact Or.inl rfl
    | tail _ hedge ih =>
      unfold Edge fsckKids at hedge
      split at hedge
      · rw [List.eq_of_mem_replicate hedge]
        exact ih
      · exact Or.inr (mem_subdirs_lt hedge)
  exact ((Set.finite_lt_nat (d + 2 ^ 32)).subset hbound).to_subtype

theorem fsckStart_serving {r : FsckReport} {bm : Mem} {queue : Nat → Nat} :
    Serving (fsckStart v r bm queue) ∧ (fsckStart v r bm queue).waiting = [rootDirClusterValue v] := by
  have hstart : ∃ y : FsckCtx, y.head = 0 ∧ y.tail = 0 ∧ y.overflow = false ∧ fsckStart v r bm queue =
      { y with queue := Lib.Ring.put y.queue y.tail (rootDirClusterValue v), tail := y.tail + 1 } := by
    unfold fsckStart
    dsimp only
    by_cases hroot : rootDirClusterValue v ≥ 2
    · rw [if_pos hroot]
      exact ⟨_, fatFsckChain_queue.head, fatFsckChain_queue.tail, fatFsckChain_queue.overflow, rfl⟩
    · rw [if_neg hroot]
      exact ⟨_, rfl, rfl, rfl, rfl⟩
  obtain ⟨y, hhead, htail, hover, heq⟩ := hstart
  rw [heq]
  constructor
  · refine ⟨?_, ?_, hover⟩
    · rw [hhead]
      exact Nat.zero_le _
    · rw [hhead, htail]
      exact Nat.le_of_ble_eq_true rfl
  · have hpush := @Lib.Ring.contents_push Nat y.queue fatFsckMaxDirs 0 0 (rootDirClusterValue v)
      (Nat.le_refl 0) (by decide)
    rw [Lib.Ring.contents_eq_nil (Nat.le_refl 0)] at hpush
    unfold FsckCtx.waiting
    rw [hhead, htail]
    exact hpush

theorem fatFsck_eq_none_iff {r : FsckReport} {m : FsckBuffers} {fuel : Nat} :
    fatFsck v junk r m fuel = none ↔
      (v.info.clusterCount ≠ 0 ∧ m.bm ≠ none ∧ m.queue ≠ none) ∧
        serve (fsckKids v junk) fatFsckMaxDirs fuel [rootDirClusterValue v] = none := by
  unfold fatFsck
  dsimp only
  by_cases hzero : v.info.clusterCount = 0
  · simp [hzero]
  rw [if_neg hzero]
  cases hbm : m.bm with
  | none => simp
  | some bm =>
    cases hqueue : m.queue with
    | none => simp
    | some queue =>
      obtain ⟨hserving, hwait⟩ :=
        @fsckStart_serving v { r with clustersTotal := BitVec.ofNat 32 v.info.clusterCount } bm queue
      rw [← hwait, ← fsckBfs_eq_none_iff hserving]
      dsimp only
      rcases fsckBfs v junk _ fuel with _ | ⟨y, _ | _⟩ <;> simp [hzero]

/-- The check comes to an end if and only if it never gets to the traversal, or no directory below the root
contains itself, or the queue overflows (or a directory is unreadable) before that goes on for ever. -/
theorem fatFsck_ends_iff (v : Vol) (junk : Nat → Junk) (r : FsckReport) (m : FsckBuffers) :
    (∃ fuel, fatFsck v junk r m fuel ≠ none) ↔
      v.info.clusterCount = 0 ∨ m.bm = none ∨ m.queue = none ∨
        ¬ CycleBelow (fsckKids v junk) (rootDirClusterValue v) ∨
        Overflows (fsckKids v junk) fatFsckMaxDirs (rootDirClusterValue v) := by
  have hfinite := @reachable_finite v junk (rootDirClusterValue v)
  have hnever := @never_iff_cycle Nat (fsckKids v junk) fatFsckMaxDirs (rootDirClusterValue v) hfinite
  have hall : (∀ fuel, fatFsck v junk r m fuel = none) ↔
      (v.info.clusterCount ≠ 0 ∧ m.bm ≠ none ∧ m.queue ≠ none) ∧
        Never (fsckKids v junk) fatFsckMaxDirs [rootDirClusterValue v] := by
    constructor
    · exact fun h => ⟨(fatFsck_eq_none_iff.mp (h 0)).1, fun fuel => (fatFsck_eq_none_iff.mp (h fuel)).2⟩
    · exact fun h fuel => fatFsck_eq_none_iff.mpr ⟨h.1, h.2 fuel⟩
  rw [hnever] at hall
  have hends : (∃ fuel, fatFsck v junk r m fuel ≠ none) ↔ ¬ ∀ fuel, fatFsck v junk r m fuel = none :=
    not_forall.symm
  rw [hends, hall]
  simp only [not_and_or, not_not, ne_eq, or_assoc]

def selfEntry : Mem := fun k =>
  if k = 0 then 0x44 else if k < 11 then space else if k = 11 then attrDirectory else if k = 26 then 2 else 0

def selfVol : Vol where
  kind := .fat16
  info := { bytesPerSector := 512, sectorsPerCluster := 1, clusterCount := 5000, rootDirSectors := 1,
            rootCluster := 0 }
  fat n := if n = 2 then 0xFFFF else 0
  fat2 n := if n = 2 then 0xFFFF else 0
  root _ := selfEntry
  data _ := selfEntry
  unreadable _ := false
  hint := 2

def noReport : FsckReport :=
  { clustersTotal := 0, badChain := 0, loop := 0, truncated := 0, crosslink := 0, orphan := 0,
    freeButUsed := 0, badEntry := 0, firstBad := [] }

theorem selfVol_kids_root : fsckKids selfVol (fun _ _ => 0) 0 = [2] := by decide

theorem selfVol_kids_dir : fsckKids selfVol (fun _ _ => 0) 2 = [2] := by decide

theorem selfVol_serve (fuel : Nat) :
    serve (fsckKids selfVol fun _ _ => 0) fatFsckMaxDirs fuel [2] = none := by
  induction fuel with
  | zero => rfl
  | succ fuel ih =>
    rw [serve, selfVol_kids_dir, if_neg (by decide)]
    exact ih

theorem fatFsck_selfVol : ¬ ∃ fuel, fatFsck selfVol (fun _ _ => 0) noReport
    { bm := some zeros, queue := some fun _ => 0 } fuel ≠ none := by
  rintro ⟨fuel, hend⟩
  apply hend
  rw [fatFsck_eq_none_iff]
  refine ⟨⟨by decide, by simp, by simp⟩, ?_⟩
  have hroot : rootDirClusterValue selfVol = 0 := rfl
  rw [hroot]
  cases fuel with
  | zero => rfl
  | succ fuel =>
    rw [serve, selfVol_kids_root, if_neg (by decide)]
    exact selfVol_serve fuel

end Ezos.Fat
