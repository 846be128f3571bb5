import Ezos.Fat.TreeStore
import Ezos.Fat.Write

/-!
# Reading files and listing directories (`kernel/fat.c`)

The answer -1 of a function that fills a buffer comes with what had been copied by then.
-/

namespace Ezos.Fat

open Lib.Memory Lib.Chains

set_option autoImplicit false

def fatReadCluster (v : Vol) (c : Nat) : Option Mem :=
  if c < 2 ∨ c ≥ v.limit then none else fatReadBlock v (.cluster c)

/-- The loop of `fat_read_file` with `read` bytes done; at most `n` more clusters. `none` is the answer -1. -/
def readLoop (v : Vol) (size max cur read : Nat) (buf : Mem) : Nat → Option Nat × Mem
  | 0 => (some read, buf)
  | n + 1 =>
    if read < size ∧ read < max ∧ 2 ≤ cur ∧ cur < v.limit then
      match fatReadCluster v cur with
      | none => (none, buf)
      | some blk =>
        let toCopy := min (min (size - read) v.clusterSize) (max - read)
        let buf := copyIn buf read toCopy blk
        let read := read + toCopy
        if read ≥ size ∨ read ≥ max then (some read, buf)
        else
          let next := fatEntryGet v cur
          if fatIsEoc v.kind next ∨ fatIsBad v.kind next then (some read, buf)
          else readLoop v size max next read buf n
    else (some read, buf)

def fatReadFile (s : Sys) (f : Frame) (name : Str) (buf : Mem) (max : U32) : Int × Mem :=
  match fatResolveLeaf s f (cstr name) with
  | none => (-1, buf)
  | some (dir, leaf) =>
    match fatFindEntry s.vol f.leaf dir leaf with
    | none => (-1, buf)
    | some de =>
      if de.isDir then (-1, buf)
      else if de.size = 0 ∨ de.firstCluster = 0 then (0, buf)
      else
        match readLoop s.vol de.size max.toNat de.firstCluster 0 buf s.vol.limit with
        | (none, buf) => (-1, buf)
        | (some read, buf) => ((BitVec.ofNat 32 read).toInt, buf)

def fatGetFileSize (s : Sys) (f : Frame) (name : Str) : Nat :=
  match fatResolveLeaf s f (cstr name) with
  | none => 0
  | some (dir, leaf) =>
    match fatFindEntry s.vol f.leaf dir leaf with
    | none => 0
    | some de => de.size

structure DirEntry where
  name : Str
  size : Nat
  isDir : Bool
deriving DecidableEq

def listCb (max : Int) (es : List DirEntry) (e : Dirent) : List DirEntry × Bool :=
  if isDotName e.name then (es, false)
  else if (es.length : Int) ≥ max then (es, true)
  else (es ++ [{ name := e.name.take 255, size := e.size, isDir := e.isDir }], false)

def fatReadDir (s : Sys) (f : Frame) (max : Int) : Option (List DirEntry) :=
  if s.cwd.ready = false then none
  else some (fatDirForeach s.vol f.inside s.cwd.cur.toNat (listCb max) []).1

def fatReadDirPath (s : Sys) (f : Frame) (path : Str) (max : Int) : Option (List DirEntry) :=
  if s.cwd.ready = false ∨ max ≤ 0 then none
  else
    match Fs.fatResolveDir (findIn s.vol f) s.cwd (cstr path) with
    | none => none
    | some d => some (fatDirForeach s.vol f.inside d.toNat (listCb max) []).1

variable {v : Vol} {data buf : Mem} {size max cur n k : Nat} {cs : List Nat} {e : Dirent} {des : List Dirent}
  {es : List DirEntry}

theorem copyIn_dataBlock {a t : Nat} (ha : a = k * v.clusterSize) (ht : t ≤ v.clusterSize) (hsize : a + t ≤ size) :
    copyIn buf a t (dataBlock v data size k) = fun x => if a ≤ x ∧ x < a + t then data x else buf x := by
  funext x
  unfold copyIn
  by_cases hx : a ≤ x ∧ x < a + t
  · have hplace : k * v.clusterSize + (x - a) = x := by omega
    rw [if_pos hx, if_pos hx, dataBlock, hplace, if_pos (by omega)]
  · rw [if_neg hx, if_neg hx]

theorem readLoop_chain (hf : ∀ b, v.unreadable b = false) (hs : Sized v) (hc : Chain v cur cs)
    (hfill : Filled v data size k cs) (hlo : k * v.clusterSize < size) (hhi : size ≤ (k + cs.length) * v.clusterSize)
    (hmax : size ≤ max) (hn : cs.length ≤ n) :
    readLoop v size max cur (k * v.clusterSize) buf n =
      (some size, fun x => if k * v.clusterSize ≤ x ∧ x < size then data x else buf x) := by
  induction cs generalizing cur k buf n with
  | nil => cases hc
  | cons a cs ih =>
    obtain rfl : a = cur := by
      obtain ⟨tail, heq⟩ := hc.eq_cons
      exact (List.cons.inj heq).1
    obtain ⟨n, rfl⟩ : ∃ m, n = m + 1 := ⟨n - 1, by rw [List.length_cons] at hn; omega⟩
    have hw := hc.within
    have hblk : fatReadCluster v a = some (dataBlock v data size k) := by
      unfold fatReadCluster fatReadBlock
      rw [if_neg hw.not_out, hf, if_neg Bool.false_ne_true]
      exact congrArg some (hfill 0 a rfl)
    have hstep : (k + 1) * v.clusterSize = k * v.clusterSize + v.clusterSize := Nat.succ_mul k _
    rw [readLoop, if_pos ⟨hlo, by omega, hw.1, hw.2⟩, hblk]
    dsimp only
    rw [copyIn_dataBlock rfl (by omega) (by omega)]
    by_cases hlast : size ≤ (k + 1) * v.clusterSize
    · have hcopy : min (min (size - k * v.clusterSize) v.clusterSize) (max - k * v.clusterSize) =
          size - k * v.clusterSize := by omega
      have hend : k * v.clusterSize + (size - k * v.clusterSize) = size := by omega
      rw [hcopy, hend, if_pos (Or.inl (Nat.le_refl size))]
    · have hcopy : min (min (size - k * v.clusterSize) v.clusterSize) (max - k * v.clusterSize) = v.clusterSize := by
        omega
      rw [hcopy, ← hstep, if_neg (by omega)]
      cases hc with
      | last _ _ =>
        rw [List.length_singleton] at hhi
        exact absurd hhi hlast
      | @link _ d _ _ hd htail =>
        have hdw := htail.within
        have hfill' : Filled v data size (k + 1) cs := fun i c hi => by
          have hplace : k + (i + 1) = k + 1 + i := by omega
          have hrest := hfill (i + 1) c hi
          rwa [hplace] at hrest
        have hgo : ¬ (fatIsEoc v.kind d = true ∨ fatIsBad v.kind d = true) := by
          rw [hdw.not_eoc hs, hdw.not_bad hs]
          exact not_or.mpr ⟨Bool.false_ne_true, Bool.false_ne_true⟩
        rw [fatEntryGet_within hw, hd, if_neg hgo, ih htail hfill' (by omega) ?_ (by rw [List.length_cons] at hn; omega)]
        · refine Prod.ext rfl (funext fun x => ?_)
          dsimp only
          by_cases hx : k * v.clusterSize ≤ x ∧ x < size
          · by_cases hlater : (k + 1) * v.clusterSize ≤ x
            · rw [if_pos ⟨hlater, hx.2⟩, if_pos hx]
            · rw [if_neg fun hno => hlater hno.1, if_pos ⟨hx.1, by omega⟩, if_pos hx]
          · rw [if_neg fun hno => hx ⟨by omega, hno.2⟩, if_neg fun hno => hx ⟨hno.1, by omega⟩, if_neg hx]
        · rw [List.length_cons] at hhi
          have hsum : k + 1 + cs.length = k + (cs.length + 1) := by omega
          rw [hsum]
          exact hhi

theorem mem_listCb {limit : Int} {x : DirEntry} (hx : x ∈ es) : x ∈ (listCb limit es e).1 := by
  unfold listCb
  split
  · exact hx
  · split
    · exact hx
    · exact List.mem_append_left _ hx

theorem mem_untilStop {limit : Int} {x : DirEntry} (hx : x ∈ es) : x ∈ (untilStop (listCb limit) es des).1 := by
  induction des generalizing es with
  | nil => exact hx
  | cons d des ih =>
    have hstep : x ∈ (listCb limit es d).1 := mem_listCb hx
    unfold untilStop
    rcases hcb : listCb limit es d with ⟨es', _ | _⟩
    · rw [hcb] at hstep
      exact ih hstep
    · rw [hcb] at hstep
      exact hstep

theorem untilStop_listCb {limit : Int} (hlimit : ((es.length + des.length : Nat) : Int) ≤ limit)
    (hdot : isDotName e.name = false) (hmem : e ∈ des) :
    { name := e.name.take 255, size := e.size, isDir := e.isDir } ∈ (untilStop (listCb limit) es des).1 := by
  induction des generalizing es with
  | nil => exact absurd hmem List.not_mem_nil
  | cons d des ih =>
    rw [List.length_cons] at hlimit
    unfold untilStop
    by_cases hd : isDotName d.name = true
    · have hcb : listCb limit es d = (es, false) := if_pos hd
      rw [hcb]
      rcases List.mem_cons.mp hmem with rfl | hmem
      · rw [hdot] at hd
        contradiction
      · exact ih (by omega) hmem
    · have hcb : listCb limit es d = (es ++ [{ name := d.name.take 255, size := d.size, isDir := d.isDir }], false) := by
        unfold listCb
        rw [if_neg hd, if_neg (by omega)]
      rw [hcb]
      rcases List.mem_cons.mp hmem with rfl | hmem
      · exact mem_untilStop (List.mem_append_right es (List.mem_singleton_self _))
      · exact ih (by rw [List.length_append, List.length_singleton]; omega) hmem

end Ezos.Fat
