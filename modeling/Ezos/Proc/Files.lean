import Ezos.Lib.Run
import Ezos.Mem.UserRange
import Ezos.Proc.Process

/-!
# File entries and their buffers (`kernel/fd.c`)

The half of `fd.c` that works on files, over the live blocks of the kernel heap. A call that would use
a byte outside the blocks, through a null pointer or behind an end, has no result here. Streams and
pipes are entries only; the pool of the pipes is in `Fd`.
-/

namespace Ezos.Files

open Lib

set_option autoImplicit false

abbrev Fd := Proc.Fd
abbrev TaskId := Proc.TaskId

def maxFdFile : Nat := 65536
def fdMaxName : Nat := 64

abbrev Block := Nat

abbrev Heap := Block → Option (List U8)

abbrev Offer := Option (Block × (Nat → U8))

inductive Ptr
  | null
  | block (b : Block)
  | pipe (p : Proc.PipeId)
deriving DecidableEq

def Heap.alloc (h : Heap) (b : Block) (junk : Nat → U8) (n : Nat) : Heap :=
  Function.update h b (some ((List.range n).map junk))

def Heap.release (h : Heap) : Ptr → Heap
  | .block b => Function.update h b none
  | _ => h

def Heap.read (h : Heap) (p : Ptr) (i n : Nat) : Option (List U8) :=
  if n = 0 then some []
  else
    match p with
    | .block b => (h b).bind fun bytes =>
      if i + n ≤ bytes.length then some ((bytes.drop i).take n) else none
    | _ => none

def patch (bytes : List U8) (i : Nat) (new : List U8) : List U8 :=
  bytes.take i ++ new ++ bytes.drop (i + new.length)

def Heap.write (h : Heap) (p : Ptr) (i : Nat) (new : List U8) : Option Heap :=
  if new = [] then some h
  else
    match p with
    | .block b => (h b).bind fun bytes =>
      if i + new.length ≤ bytes.length then some (Function.update h b (some (patch bytes i new))) else none
    | _ => none

structure Entry where
  type : Proc.FdType
  writable : Bool
  dirty : Bool
  append : Bool
  size : Nat
  offset : Nat
  data : Ptr
  name : List U8

abbrev Table := Fd → Entry

def Entry.stream (type : Proc.FdType) : Entry := ⟨type, false, false, false, 0, 0, .null, []⟩

def fdTableInit : Table := fun i => .stream
  (if i.val = 0 then .stdin else if i.val = 1 then .stdout else if i.val = 2 then .stderr else .free)

def freeFds (T : Table) : List Fd := Proc.userFds.filter fun i => decide ((T i).type = .free)

def oldBytes (h : Heap) (e : Entry) : Option (List U8) :=
  if e.data ≠ .null ∧ 0 < e.size then h.read e.data 0 e.size else some []

/-- `fd_grow`, for a `newsize` above the size. -/
def fdGrow (h : Heap) (e : Entry) (newsize : Nat) (mem : Offer) : Option (Bool × Heap × Entry) :=
  if maxFdFile < newsize then some (false, h, e)
  else
    match mem with
    | none => some (false, h, e)
    | some (b, junk) => do
      let h₁ := h.alloc b junk newsize
      let old ← oldBytes h₁ e
      let h₂ ← h₁.write (.block b) 0 old
      let h₃ ← h₂.write (.block b) e.size (List.replicate (newsize - e.size) 0)
      some (true, h₃.release e.data, { e with data := .block b, size := newsize })

def fileRead (h : Heap) (e : Entry) (n : Nat) : Option (Int × List U8 × Entry) :=
  if e.size ≤ e.offset then some (0, [], e)
  else
    let avail := e.size - e.offset
    let k := if n < avail then n else avail
    (h.read e.data e.offset k).map fun bytes => (k, bytes, { e with offset := e.offset + k })

/-- `if (e->offset + n > e->size)` of `fd_write`. -/
def ensure (h : Heap) (e : Entry) (stop : Nat) (mem : Offer) : Option (Bool × Heap × Entry) :=
  if e.size < stop then fdGrow h e stop mem else some (true, h, e)

def Entry.aimed (e : Entry) : Entry := if e.append then { e with offset := e.size } else e

/-- The copy loop of `fd_write` and what follows it. -/
def store (h : Heap) (e : Entry) (data : List U8) : Option (Int × Heap × Entry) :=
  (h.write e.data e.offset data).map fun h =>
    (data.length, h, { e with offset := (e.offset + data.length) % 2 ^ 32, dirty := true })

/-- The end of `fd_write`, for a file. The sums are 32 bits wide. -/
def fileWrite (h : Heap) (e : Entry) (data : List U8) (mem : Offer) : Option (Int × Heap × Entry) :=
  if !e.writable then some (-1, h, e)
  else if data = [] then some (0, h, e)
  else
    (ensure h e.aimed ((e.aimed.offset + data.length) % 2 ^ 32) mem).bind fun
      | (true, h, e) => store h e data
      | (false, h, e) => some (-1, h, e)

/-- The end of `fd_lseek`, in signed 32-bit arithmetic. -/
def fileLseek (e : Entry) (offset : U32) (whence : Int) : Int × Entry :=
  let base : Option Nat :=
    if whence = 0 then some 0 else if whence = 1 then some e.offset else if whence = 2 then some e.size else none
  match base with
  | none => (-1, e)
  | some base =>
    let newoff : U32 := BitVec.ofNat 32 base + offset
    if newoff.toInt < 0 then (-1, e)
    else if maxFdFile < newoff.toNat then (-1, e)
    else (newoff.toInt, { e with offset := newoff.toNat })

/-! ## Calls -/

inductive Answer
  | elsewhere
  | returns (r : Int) (bytes : List U8)
deriving DecidableEq

def fdRead (h : Heap) (T : Table) (fd : Int) (n : Nat) : Option (Answer × Table) :=
  match Proc.fdOf fd with
  | none => some (.returns (-1) [], T)
  | some f =>
    match (T f).type with
    | .stdin | .pipe => some (.elsewhere, T)
    | .file => (fileRead h (T f) n).map fun r => (.returns r.1 r.2.1, Function.update T f r.2.2)
    | _ => some (.returns (-1) [], T)

def fdWrite (h : Heap) (T : Table) (fd : Int) (data : List U8) (mem : Offer) :
    Option (Answer × Heap × Table) :=
  match Proc.fdOf fd with
  | none => some (.returns (-1) [], h, T)
  | some f =>
    match (T f).type with
    | .stdout | .stderr | .pipe => some (.elsewhere, h, T)
    | .file => (fileWrite h (T f) data mem).map fun r =>
      (.returns r.1 [], r.2.1, Function.update T f r.2.2)
    | _ => some (.returns (-1) [], h, T)

def fdLseek (T : Table) (fd : Int) (offset : U32) (whence : Int) : Answer × Table :=
  match Proc.fdOf fd with
  | none => (.returns (-1) [], T)
  | some f =>
    if (T f).type = .file then
      let r := fileLseek (T f) offset whence
      (.returns r.1 [], Function.update T f r.2)
    else (.returns (-1) [], T)

def oAccmode : U32 := 3
def oRdonly : U32 := 0
def oWronly : U32 := 1
def oRdwr : U32 := 2
def oCreat : U32 := 0x40
def oExcl : U32 := 0x80
def oTrunc : U32 := 0x200
def oAppend : U32 := 0x400

/-- What `fs_get_file_size` and `fs_read_file` return for a name. -/
structure Stored where
  size : Nat
  bytes : List U8

/-- The checks in front of the slot search of `fd_open`: the bytes to read in, or none for `-1`. -/
def openSize (name : List U8) (flags : U32) (stored : Stored) : Option Nat :=
  let writing := flags &&& oAccmode ≠ oRdonly
  let present := 0 < stored.size
  if name = [] then none
  else if flags &&& oAccmode ≠ oRdonly ∧ flags &&& oAccmode ≠ oWronly ∧ flags &&& oAccmode ≠ oRdwr then none
  else if flags &&& ~~~(oAccmode ||| oCreat ||| oExcl ||| oTrunc ||| oAppend) ≠ 0 then none
  else if fdMaxName ≤ name.length then none
  else if ¬present ∧ flags &&& oCreat = 0 then none
  else if ¬present ∧ ¬writing then none
  else if present ∧ flags &&& oCreat ≠ 0 ∧ flags &&& oExcl ≠ 0 then none
  else if maxFdFile < stored.size then none
  else if flags &&& oTrunc ≠ 0 ∧ writing then some 0
  else some stored.size

def openEntry (name : List U8) (flags : U32) (size : Nat) (data : Ptr) : Entry where
  type := .file
  writable := decide (flags &&& oAccmode ≠ oRdonly)
  append := decide (flags &&& oAppend ≠ 0)
  dirty := false
  size := size
  offset := 0
  data := data
  name := name

def fdOpen (h : Heap) (T : Table) (name : List U8) (flags : U32) (stored : Stored) (mem : Offer) :
    Int × Heap × Table :=
  match openSize name flags stored, freeFds T with
  | some size, f :: _ =>
    if size = 0 then (f.val, h, Function.update T f (openEntry name flags 0 .null))
    else
      match mem with
      | none => (-1, h, T)
      | some (b, _) =>
        if stored.bytes.length ≠ size then (-1, h, T)
        else (f.val, Function.update h b (some stored.bytes),
          Function.update T f (openEntry name flags size (.block b)))
  | _, _ => (-1, h, T)

def Entry.closed (e : Entry) : Entry :=
  { e with type := .free, writable := false, dirty := false, size := 0, offset := 0, data := .null, name := [] }

/-- The bytes that `fd_close` hands to `fs_create_file`; without a buffer they are those of `""`. -/
def storedBytes (h : Heap) (e : Entry) : Option (List U8) :=
  if e.data = .null then (if e.size ≤ 1 then some (List.replicate e.size 0) else none)
  else h.read e.data 0 e.size

/-- `fd_close`; `rc` is the result of `fs_create_file`. -/
def fdClose (h : Heap) (T : Table) (fd rc : Int) : Option (Int × Heap × Table) :=
  match Proc.fdOf fd with
  | none => some (-1, h, T)
  | some f =>
    match (T f).type with
    | .pipe => some (0, h, Function.update T f (T f).closed)
    | .file =>
      if (T f).dirty ∧ (T f).name ≠ [] then
        (storedBytes h (T f)).map fun _ =>
          (rc, h.release (T f).data, Function.update T f (T f).closed)
      else some (0, h.release (T f).data, Function.update T f (T f).closed)
    | _ => some (-1, h, T)

def Entry.pipeEnd (e : Entry) (p : Proc.PipeId) (w : Bool) : Entry :=
  { e with type := .pipe, writable := w, dirty := false, size := 0, offset := 0, data := .pipe p, name := [] }

/-- `fd_pipe`, with the pipe that the pool gives. -/
def fdPipe (T : Table) (p : Option Proc.PipeId) : Int × Table :=
  match p, freeFds T with
  | some p, r :: w :: _ =>
    (0, Function.update (Function.update T r ((T r).pipeEnd p false)) w ((T w).pipeEnd p true))
  | _, _ => (-1, T)

/-- The body of the loop of `fd_table_dup`. -/
def dupEntry (h : Heap) (e : Entry) (mem : Offer) : Option (Heap × Entry) :=
  if e.type = .file then
    if e.data ≠ .null ∧ 0 < e.size then
      match mem with
      | none => some (h, { e with data := .null })
      | some (b, junk) => do
        let h₁ := h.alloc b junk e.size
        let bytes ← h₁.read e.data 0 e.size
        let h₂ ← h₁.write (.block b) 0 bytes
        some (h₂, { e with data := .block b })
    else some (h, { e with data := .null })
  else some (h, e)

def dupAll (h : Heap) (src dst : Table) (mem : Fd → Offer) : List Fd → Option (Heap × Table)
  | [] => some (h, dst)
  | f :: fs =>
    if (src f).type = .free then dupAll h src dst mem fs
    else (dupEntry h (src f) (mem f)).bind fun r => dupAll r.1 src (Function.update dst f r.2) mem fs

def fdTableDup (h : Heap) (src : Table) (mem : Fd → Offer) : Option (Heap × Table) :=
  dupAll h src fdTableInit mem (List.finRange Proc.maxOpenFds)

structure State where
  heap : Heap
  tables : TaskId → Table

def boot : State := ⟨fun _ => none, fun _ => fdTableInit⟩

def State.put (s : State) (h : Heap) (t : TaskId) (T : Table) : State :=
  ⟨h, Function.update s.tables t T⟩

inductive Call
  | read (n : Nat)
  | write (data : List U8) (mem : Offer)
  | lseek (offset : U32) (whence : Int)

def State.call (s : State) (t : TaskId) (fd : Int) : Call → Option (Answer × State)
  | .read n => (fdRead s.heap (s.tables t) fd n).map fun r => (r.1, s.put s.heap t r.2)
  | .write data mem => (fdWrite s.heap (s.tables t) fd data mem).map fun r => (r.1, s.put r.2.1 t r.2.2)
  | .lseek offset whence =>
    let r := fdLseek (s.tables t) fd offset whence
    some (r.1, s.put s.heap t r.2)

inductive Op
  | call (t : TaskId) (fd : Int) (c : Call)
  | open (t : TaskId) (name : List U8) (flags : U32) (stored : Stored) (mem : Offer)
  | close (t : TaskId) (fd rc : Int)
  | pipe (t : TaskId) (p : Option Proc.PipeId)
  | init (t : TaskId)
  | fork (t c : TaskId) (mem : Fd → Offer)

def State.run (s : State) : Op → Option State
  | .call t fd c => (s.call t fd c).map Prod.snd
  | .open t name flags stored mem =>
    let r := fdOpen s.heap (s.tables t) name flags stored mem
    some (s.put r.2.1 t r.2.2)
  | .close t fd rc => (fdClose s.heap (s.tables t) fd rc).map fun r => s.put r.2.1 t r.2.2
  | .pipe t p => some (s.put s.heap t (fdPipe (s.tables t) p).2)
  | .init t => some (s.put s.heap t fdTableInit)
  | .fork t c mem => (fdTableDup s.heap (s.tables t) mem).map fun r => s.put r.1 c r.2

def Fresh (h : Heap) (mem : Offer) : Prop := ∀ b junk, mem = some (b, junk) → h b = none

/-- The lengths that `user_range_ok` lets through: user pages start at 4 MB. -/
def Admits (n : Nat) : Prop := n + 0x400000 ≤ 2 ^ 32

instance (n : Nat) : Decidable (Admits n) := inferInstanceAs (Decidable (_ ≤ _))

def Call.Allowed (h : Heap) : Call → Prop
  | .read n => Admits n
  | .write data mem => Admits data.length ∧ Fresh h mem
  | .lseek _ _ => True

def Allowed (s : State) : Op → Prop
  | .call _ _ c => c.Allowed s.heap
  | .open _ _ _ _ mem => Fresh s.heap mem
  | .fork t c mem => t ≠ c ∧ (∀ i, Fresh s.heap (mem i)) ∧
      ∀ i j b junk junk', mem i = some (b, junk) → mem j = some (b, junk') → i = j
  | _ => True

def Step (s : State) (o : Op) (s' : State) : Prop := Allowed s o ∧ s.run o = some s'

variable {h h' : Heap} {e e' : Entry} {b b' : Block} {bytes new : List U8} {i n : Nat} {mem : Offer}
  {junk : Nat → U8}

structure Entry.Ok (h : Heap) (e : Entry) : Prop where
  size : e.size ≤ maxFdFile
  offset : e.offset ≤ maxFdFile
  data : e.data = .null ∧ e.size = 0 ∨ ∃ b bytes, e.data = .block b ∧ h b = some bytes ∧ bytes.length = e.size

def content (h : Heap) (e : Entry) : List U8 :=
  match e.data with
  | .block b => (h b).getD []
  | _ => []

theorem Entry.Ok.content_length (he : e.Ok h) : (content h e).length = e.size := by
  rcases he.data with ⟨hd, hs⟩ | ⟨b, bytes, hd, hb, hl⟩
  · rw [content, hd, hs]
    rfl
  · simp only [content, hd, hb, Option.getD_some, hl]

theorem Entry.Ok.read (he : e.Ok h) (hn : i + n ≤ e.size) :
    h.read e.data i n = some (((content h e).drop i).take n) := by
  rcases he.data with ⟨hd, hs⟩ | ⟨b, bytes, hd, hb, hl⟩
  · obtain rfl : n = 0 := by omega
    rw [List.take_zero]
    exact if_pos rfl
  · simp only [content, hd, hb, Option.getD_some]
    unfold Heap.read
    split
    · rename_i h0
      rw [h0, List.take_zero]
    · simp only [hb, Option.bind_some]
      rw [if_pos (by omega)]

theorem patch_length (hi : i + new.length ≤ bytes.length) : (patch bytes i new).length = bytes.length := by
  simp only [patch, List.length_append, List.length_take, List.length_drop]
  omega

theorem write_block (i : Nat) (new : List U8) (hb : h b = some bytes) (hi : i + new.length ≤ bytes.length) :
    h.write (.block b) i new = some (Function.update h b (some (patch bytes i new))) := by
  unfold Heap.write
  split
  · rename_i h0
    have hp : patch bytes i new = bytes := by
      rw [h0, patch, List.append_nil, List.length_nil, Nat.add_zero, List.take_append_drop]
    rw [hp, ← hb, Function.update_eq_self]
  · simp only [hb, Option.bind_some]
    rw [if_pos hi]

theorem Entry.Ok.congr (he : e.Ok h) (hd : ∀ b, e.data = .block b → h' b = h b) : e.Ok h' := by
  refine ⟨he.size, he.offset, he.data.imp_right ?_⟩
  rintro ⟨b, bytes, hb, hh, hl⟩
  exact ⟨b, bytes, hb, (hd b hb).trans hh, hl⟩

theorem content_congr (hd : ∀ b, e.data = .block b → h' b = h b) : content h' e = content h e := by
  unfold content
  split
  · rename_i b hb
    rw [hd b hb]
  · rfl

theorem Entry.Ok.ne_fresh (he : e.Ok h) (hb : h b = none) : e.data ≠ .block b := by
  intro hd
  rcases he.data with ⟨hn, -⟩ | ⟨b', bytes, hb', hh, -⟩
  · rw [hd] at hn
    cases hn
  · obtain rfl := Ptr.block.inj (hd.symm.trans hb')
    rw [hb] at hh
    cases hh

theorem patch_fill (hb : bytes.length = n) (hle : new.length ≤ n) :
    patch (patch bytes 0 new) new.length (List.replicate (n - new.length) 0) =
      new ++ List.replicate (n - new.length) 0 := by
  subst hb
  have hall : bytes.length - (new.length + (bytes.length - new.length)) = 0 := by omega
  simp [patch, List.drop_eq_nil_of_le]

def grown (h : Heap) (e : Entry) (b : Block) (newsize : Nat) : Heap × Entry :=
  (Heap.release (Function.update h b (some (content h e ++ List.replicate (newsize - e.size) 0))) e.data,
    { e with data := .block b, size := newsize })

theorem fdGrow_refuses (hbad : maxFdFile < n ∨ mem = none) : fdGrow h e n mem = some (false, h, e) := by
  unfold fdGrow
  split
  · rfl
  · rename_i hmax
    rw [hbad.resolve_left hmax]

theorem fdGrow_block (he : e.Ok h) (hlt : e.size < n) (hmax : ¬maxFdFile < n) (hb : h b = none) :
    fdGrow h e n (some (b, junk)) = some (true, grown h e b n) := by
  have hkeep : ∀ c, e.data = .block c → h.alloc b junk n c = h c := by
    intro c hc
    refine Function.update_of_ne ?_ _ _
    rintro rfl
    exact he.ne_fresh hb hc
  have hold : oldBytes (h.alloc b junk n) e = some (content h e) := by
    unfold oldBytes
    split
    · rw [(he.congr hkeep).read (by omega), content_congr hkeep, List.drop_zero,
        List.take_of_length_le (by rw [he.content_length])]
    · rename_i hempty
      have hs : e.size = 0 := by
        rcases he.data with ⟨-, hs⟩ | ⟨c, bytes, hd, -, -⟩
        · exact hs
        · rw [hd] at hempty
          simp at hempty
          exact hempty
      rw [List.length_eq_zero_iff.mp (he.content_length.trans hs)]
  have hlen : (content h e).length ≤ n := by
    rw [he.content_length]
    omega
  have hnew : ((List.range n).map junk).length = n := by simp
  have hfresh : h.alloc b junk n b = some ((List.range n).map junk) := Function.update_self b _ h
  have hw₁ := write_block 0 (content h e) hfresh (by rw [hnew]; omega)
  have hlen₁ : (patch ((List.range n).map junk) 0 (content h e)).length = n := by
    rw [patch_length (by rw [hnew]; omega), hnew]
  have hw₂ := write_block e.size (List.replicate (n - e.size) 0)
    (h := Function.update (h.alloc b junk n) b (some (patch ((List.range n).map junk) 0 (content h e))))
    (Function.update_self b _ _) (by rw [hlen₁, List.length_replicate]; omega)
  have hfill := patch_fill hnew hlen
  rw [he.content_length] at hfill
  rw [fdGrow, if_neg hmax]
  simp only [hold, Option.bind_eq_bind, Option.bind_some, hw₁, hw₂, grown]
  rw [hfill, Heap.alloc, Function.update_idem, Function.update_idem]

theorem release_other {p : Ptr} (hb : p ≠ .block b) : h.release p b = h b := by
  cases p with
  | block c =>
    refine Function.update_of_ne ?_ _ _
    rintro rfl
    exact hb rfl
  | _ => rfl

structure Kept (h : Heap) (e : Entry) (mem : Offer) (h' : Heap) (e' : Entry) : Prop where
  ok : e'.Ok h'
  type : e'.type = e.type
  data : e'.data = e.data ∨ ∃ b junk, mem = some (b, junk) ∧ e'.data = .block b
  others : ∀ b, e.data ≠ .block b → (∀ junk, mem ≠ some (b, junk)) → h' b = h b

theorem Entry.Ok.kept (he : e'.Ok h) (ht : e'.type = e.type) (hd : e'.data = e.data) : Kept h e mem h e' :=
  ⟨he, ht, .inl hd, fun _ _ _ => rfl⟩

theorem grown_kept (junk : Nat → U8) (he : e.Ok h) (hn : n ≤ maxFdFile) (hlt : e.size < n) (hb : h b = none) :
    Kept h e (some (b, junk)) (grown h e b n).1 (grown h e b n).2 ∧
      content (grown h e b n).1 (grown h e b n).2 = content h e ++ List.replicate (n - e.size) 0 := by
  have hself : (grown h e b n).1 b = some (content h e ++ List.replicate (n - e.size) 0) :=
    (release_other (he.ne_fresh hb)).trans (Function.update_self _ _ _)
  have hcontent : content (grown h e b n).1 (grown h e b n).2 =
      content h e ++ List.replicate (n - e.size) 0 := by
    have hd : (grown h e b n).2.data = .block b := rfl
    simp only [content, hd, hself, Option.getD_some]
  refine ⟨⟨⟨hn, he.offset, .inr ⟨b, _, rfl, hself, ?_⟩⟩, rfl, .inr ⟨b, junk, rfl, rfl⟩, ?_⟩, hcontent⟩
  · rw [List.length_append, he.content_length, List.length_replicate]
    exact Nat.add_sub_cancel' (Nat.le_of_lt hlt)
  · intro c hc hne
    refine (release_other hc).trans (Function.update_of_ne ?_ _ _)
    rintro rfl
    exact hne junk rfl

/-! ### Writing -/

@[simp] theorem aimed_size : e.aimed.size = e.size := by
  unfold Entry.aimed
  split <;> rfl

@[simp] theorem aimed_data : e.aimed.data = e.data := by
  unfold Entry.aimed
  split <;> rfl

@[simp] theorem aimed_type : e.aimed.type = e.type := by
  unfold Entry.aimed
  split <;> rfl

@[simp] theorem aimed_append : e.aimed.append = e.append := by
  unfold Entry.aimed
  split <;> rfl

@[simp] theorem aimed_writable : e.aimed.writable = e.writable := by
  unfold Entry.aimed
  split <;> rfl

theorem aimed_offset : e.aimed.offset = if e.append then e.size else e.offset := by
  unfold Entry.aimed
  split <;> rfl

theorem Entry.Ok.aimed (he : e.Ok h) : e.aimed.Ok h := by
  unfold Entry.aimed
  split
  · exact ⟨he.size, he.size, he.data⟩
  · exact he

@[simp] theorem content_aimed : content h e.aimed = content h e := by
  rw [content, content, aimed_data]

def Entry.refuses (e : Entry) (n : Nat) (mem : Offer) : Prop :=
  e.size < e.offset + n ∧ (maxFdFile < e.offset + n ∨ mem = none)

instance (e : Entry) (n : Nat) (mem : Offer) : Decidable (e.refuses n mem) :=
  have : Decidable (mem = none) := decidable_of_iff _ Option.isNone_iff_eq_none
  inferInstanceAs (Decidable (_ ∧ (_ ∨ _)))

theorem store_kept (mem : Offer) (new : List U8) (he : e.Ok h) (hi : e.offset + new.length ≤ e.size) :
    ∃ h' e', store h e new = some ((new.length : Int), h', e') ∧ Kept h e mem h' e' ∧
      e'.offset = e.offset + new.length ∧ e'.append = e.append ∧ e'.writable = e.writable ∧
      content h' e' = patch (content h e) e.offset new := by
  have hwrap : (e.offset + new.length) % 2 ^ 32 = e.offset + new.length := by
    have hsize := he.size
    unfold maxFdFile at hsize
    exact Nat.mod_eq_of_lt (by omega)
  rcases he.data with ⟨hd, hs⟩ | ⟨b, bytes, hd, hb, hl⟩
  · have hnil : new = [] := List.length_eq_zero_iff.mp (by omega)
    subst hnil
    refine ⟨h, { e with dirty := true }, ?_, Entry.Ok.kept ⟨he.size, he.offset, he.data⟩ rfl rfl, rfl, rfl,
      rfl, ?_⟩
    · simp only [store, Heap.write, if_true, Option.map_some, hwrap]
      rfl
    · rw [patch, List.append_nil, List.length_nil, Nat.add_zero, List.take_append_drop]
      rfl
  · have hw := write_block e.offset new hb (by omega)
    refine ⟨Function.update h b (some (patch bytes e.offset new)),
      { e with offset := e.offset + new.length, dirty := true }, ?_, ⟨⟨he.size, ?_, ?_⟩, rfl,
      .inl rfl, ?_⟩, rfl, rfl, rfl, ?_⟩
    · rw [store, hd, hw, hwrap]
      rfl
    · exact Nat.le_trans hi he.size
    · exact .inr ⟨b, _, hd, Function.update_self _ _ _, (patch_length (by omega)).trans hl⟩
    · intro c hc _
      refine Function.update_of_ne ?_ _ _
      rintro rfl
      exact hc hd
    · simp only [content, hd, hb, Function.update_self, Option.getD_some]

theorem Kept.trans {e'' : Entry} {h'' : Heap} (hk : Kept h e mem h' e') (hk' : Kept h' e' mem h'' e'') :
    Kept h e mem h'' e'' := by
  refine ⟨hk'.ok, hk'.type.trans hk.type, ?_, fun b hb hm => ?_⟩
  · rcases hk'.data with hd | hd
    · rcases hk.data with hd' | ⟨b, junk, hm, hd'⟩
      · exact .inl (hd.trans hd')
      · exact .inr ⟨b, junk, hm, hd.trans hd'⟩
    · exact .inr hd
  · refine (hk'.others b ?_ hm).trans (hk.others b hb hm)
    rcases hk.data with hd | ⟨c, junk, hm', hd⟩
    · rwa [hd]
    · rw [hd]
      intro he
      obtain rfl := Ptr.block.inj he
      exact hm junk hm'

theorem Kept.of_aimed (hk : Kept h e.aimed mem h' e') : Kept h e mem h' e' :=
  ⟨hk.ok, hk.type.trans aimed_type, by simpa using hk.data, by simpa using hk.others⟩

/-- A write to a file that may be written: it is refused behind a move of the offset, or it overlays the
bytes, with zeros in a hole. -/
theorem fileWrite_cases (he : e.Ok h) (hadm : Admits new.length) (hfresh : Fresh h mem)
    (hw : e.writable = true) (hne : new ≠ []) :
    (e.aimed.refuses new.length mem → fileWrite h e new mem = some (-1, h, e.aimed)) ∧
    (¬e.aimed.refuses new.length mem → ∃ h' e', fileWrite h e new mem = some ((new.length : Int), h', e') ∧
      Kept h e mem h' e' ∧ e'.offset = e.aimed.offset + new.length ∧ e'.append = e.append ∧
      e'.writable = e.writable ∧ content h' e' =
        patch (content h e ++ List.replicate (e.aimed.offset + new.length - e.size) 0) e.aimed.offset new) := by
  have ha := he.aimed
  have hwrap : (e.aimed.offset + new.length) % 2 ^ 32 = e.aimed.offset + new.length := by
    have hoff := ha.offset
    unfold maxFdFile at hoff
    unfold Admits at hadm
    exact Nat.mod_eq_of_lt (by omega)
  have hrun : fileWrite h e new mem =
      (ensure h e.aimed (e.aimed.offset + new.length) mem).bind fun
        | (true, h, e) => store h e new
        | (false, h, e) => some (-1, h, e) := by
    rw [fileWrite, if_neg (by rw [hw]; exact Bool.false_ne_true), if_neg hne, hwrap]
  by_cases hgrow : e.aimed.size < e.aimed.offset + new.length
  · constructor
    · rintro ⟨-, hbad⟩
      rw [hrun, ensure, if_pos hgrow, fdGrow_refuses hbad]
      rfl
    · intro hok
      cases mem with
      | none => exact absurd ⟨hgrow, .inr rfl⟩ hok
      | some m =>
        obtain ⟨b, junk⟩ := m
        have hmax : ¬maxFdFile < e.aimed.offset + new.length := fun hm => hok ⟨hgrow, .inl hm⟩
        obtain ⟨hk, hc⟩ := grown_kept junk ha (Nat.le_of_not_lt hmax) hgrow (hfresh b junk rfl)
        obtain ⟨h', e', hst, hk', hoff, happ, hwr, hcont⟩ :=
          store_kept (some (b, junk)) new hk.ok (Nat.le_refl _)
        refine ⟨h', e', ?_, (hk.trans hk').of_aimed, hoff, happ.trans aimed_append, hwr.trans aimed_writable,
          ?_⟩
        · rw [hrun, ensure, if_pos hgrow, fdGrow_block ha hgrow hmax (hfresh b junk rfl)]
          exact hst
        · rw [hcont, hc, content_aimed, aimed_size]
          rfl
  · have hens : ensure h e.aimed (e.aimed.offset + new.length) mem = some (true, h, e.aimed) := if_neg hgrow
    refine ⟨fun hbad => absurd hbad.1 hgrow, fun _ => ?_⟩
    obtain ⟨h', e', hst, hk', hoff, happ, hwr, hcont⟩ :=
      store_kept mem new ha (Nat.le_of_not_lt hgrow)
    refine ⟨h', e', ?_, hk'.of_aimed, hoff, happ.trans aimed_append, hwr.trans aimed_writable, ?_⟩
    · rw [hrun, hens]
      exact hst
    · have hz : e.aimed.offset + new.length - e.size = 0 := by
        rw [aimed_size] at hgrow
        omega
      rw [hz, List.replicate_zero, List.append_nil, hcont, content_aimed]

theorem fileWrite_kept (he : e.Ok h) (hadm : Admits new.length) (hfresh : Fresh h mem) :
    ∃ r h' e', fileWrite h e new mem = some (r, h', e') ∧ Kept h e mem h' e' := by
  by_cases hw : e.writable = true
  · by_cases hne : new = []
    · refine ⟨0, h, e, ?_, he.kept rfl rfl⟩
      rw [fileWrite, hw, if_neg (by simp), if_pos hne]
    · obtain ⟨hbad, hgood⟩ := fileWrite_cases he hadm hfresh hw hne
      by_cases hr : e.aimed.refuses new.length mem
      · exact ⟨_, _, _, hbad hr, he.aimed.kept aimed_type aimed_data⟩
      · obtain ⟨h', e', hrun, hk, -⟩ := hgood hr
        exact ⟨_, _, _, hrun, hk⟩
  · refine ⟨-1, h, e, ?_, he.kept rfl rfl⟩
    rw [fileWrite, if_pos (by simp [hw])]

theorem fileRead_eq (he : e.Ok h) : fileRead h e n = some
    (((((content h e).drop e.offset).take n).length : Int), ((content h e).drop e.offset).take n,
      { e with offset := e.offset + (((content h e).drop e.offset).take n).length }) := by
  have hlen := he.content_length
  unfold fileRead
  split
  · rename_i heof
    have hnil : (content h e).drop e.offset = [] := List.drop_eq_nil_of_le (by omega)
    rw [hnil, List.take_nil]
    rfl
  · have hk : (if n < e.size - e.offset then n else e.size - e.offset) = min n (e.size - e.offset) := by
      split <;> omega
    have htake : ((content h e).drop e.offset).take (min n (e.size - e.offset)) =
        ((content h e).drop e.offset).take n := by
      rw [← hlen, ← List.length_drop, ← List.take_eq_take_min]
    simp only [hk]
    rw [he.read (by omega), htake, Option.map_some]
    simp only [List.length_take, List.length_drop, hlen]

theorem fileRead_kept (he : e.Ok h) : ∃ r bytes e', fileRead h e n = some (r, bytes, e') ∧
    Kept h e none h e' := by
  refine ⟨_, _, _, fileRead_eq he, Entry.Ok.kept ⟨he.size, ?_, he.data⟩ rfl rfl⟩
  have hlen := he.content_length
  have hsize := he.size
  have hoff := he.offset
  simp only [List.length_take, List.length_drop]
  omega

theorem fileLseek_kept (he : e.Ok h) (offset : U32) (whence : Int) :
    Kept h e none h (fileLseek e offset whence).2 := by
  have hsame : Kept h e none h e := he.kept rfl rfl
  unfold fileLseek
  dsimp only
  split
  · exact hsame
  · split
    · exact hsame
    · split
      · exact hsame
      · rename_i hmax
        exact Entry.Ok.kept ⟨he.size, Nat.le_of_not_lt hmax, he.data⟩ rfl rfl

theorem storedBytes_some (he : e.Ok h) : ∃ bytes, storedBytes h e = some bytes := by
  unfold storedBytes
  split
  · rename_i hd
    have hs : e.size ≤ 1 := by
      rcases he.data with ⟨-, hs⟩ | ⟨b, bytes, hb, -, -⟩
      · omega
      · rw [hd] at hb
        cases hb
    exact ⟨_, if_pos hs⟩
  · exact ⟨_, he.read (by omega)⟩

/-! ## All entries -/

variable {s s' : State} {t c : TaskId} {f : Fd} {T : Table} {fd : Int} {o : Op}

structure Good (s : State) : Prop where
  files : ∀ t i, (s.tables t i).type = .file → (s.tables t i).Ok s.heap
  others : ∀ t i b, (s.tables t i).type ≠ .file → (s.tables t i).data ≠ .block b
  unshared : ∀ t i t' i' b, (s.tables t i).data = .block b → (s.tables t' i').data = .block b →
    t = t' ∧ i = i'

theorem Good.file_of_block (hg : Good s) {i : Fd} (hd : (s.tables t i).data = .block b) :
    (s.tables t i).type = .file := by
  by_contra hne
  exact hg.others t i b hne hd

theorem Good.live (hg : Good s) {i : Fd} (hd : (s.tables t i).data = .block b) : s.heap b ≠ none := by
  rcases (hg.files t i (hg.file_of_block hd)).data with ⟨hn, -⟩ | ⟨b', bytes, hb, hh, -⟩
  · rw [hd] at hn
    cases hn
  · obtain rfl := Ptr.block.inj (hd.symm.trans hb)
    rw [hh]
    exact Option.some_ne_none bytes

theorem put_same (s : State) (t : TaskId) : s.put s.heap t (s.tables t) = s := by
  simp only [State.put, Function.update_eq_self]

theorem put_tables_self (h : Heap) : (s.put h t T).tables t = T := Function.update_self _ _ _

theorem put_tables_ne {t' : TaskId} (h : Heap) (hne : t' ≠ t) : (s.put h t T).tables t' = s.tables t' :=
  Function.update_of_ne hne _ _

theorem put_entry (h : Heap) (t' : TaskId) (i : Fd) :
    (s.put h t (Function.update (s.tables t) f e')).tables t' i =
      if t' = t ∧ i = f then e' else s.tables t' i := by
  by_cases ht : t' = t
  · subst ht
    rw [put_tables_self]
    by_cases hi : i = f
    · subst hi
      rw [Function.update_self, if_pos ⟨rfl, rfl⟩]
    · rw [Function.update_of_ne hi, if_neg fun hc => hi hc.2]
  · rw [put_tables_ne _ ht, if_neg fun hc => ht hc.1]

theorem Good.replace (hg : Good s) (hfresh : Fresh s.heap mem)
    (hheap : ∀ b, (s.tables t f).data ≠ .block b → (∀ junk, mem ≠ some (b, junk)) → h' b = s.heap b)
    (hok : e'.type = .file → e'.Ok h') (hother : ∀ b, e'.type ≠ .file → e'.data ≠ .block b)
    (hdata : ∀ b, e'.data = .block b → (s.tables t f).data = .block b ∨ ∃ junk, mem = some (b, junk)) :
    Good (s.put h' t (Function.update (s.tables t) f e')) := by
  -- the blocks of the other entries
  have hkeep : ∀ t' i b, ¬(t' = t ∧ i = f) → (s.tables t' i).data = .block b → h' b = s.heap b := by
    intro t' i b hne hd
    refine hheap b (fun hd' => hne (hg.unshared t' i t f b hd hd')) fun junk hm => ?_
    exact hg.live hd (hfresh b junk hm)
  have hnew : ∀ t' i b, ¬(t' = t ∧ i = f) → (s.tables t' i).data = .block b → e'.data ≠ .block b := by
    intro t' i b hne hd he
    rcases hdata b he with hold | ⟨junk, hm⟩
    · exact hne (hg.unshared t' i t f b hd hold)
    · exact hg.live hd (hfresh b junk hm)
  constructor
  · intro t' i
    rw [put_entry]
    split
    · exact hok
    · rename_i hne
      exact fun hf => (hg.files t' i hf).congr fun b hd => hkeep t' i b hne hd
  · intro t' i b
    rw [put_entry]
    split
    · exact hother b
    · exact hg.others t' i b
  · intro t₁ i₁ t₂ i₂ b
    rw [put_entry, put_entry]
    split
    · rename_i h₁
      split
      · rename_i h₂
        exact fun _ _ => ⟨h₁.1.trans h₂.1.symm, h₁.2.trans h₂.2.symm⟩
      · rename_i h₂
        exact fun hd₁ hd₂ => absurd hd₁ (hnew t₂ i₂ b h₂ hd₂)
    · rename_i h₁
      split
      · exact fun hd₁ hd₂ => absurd hd₂ (hnew t₁ i₁ b h₁ hd₁)
      · exact hg.unshared t₁ i₁ t₂ i₂ b

theorem Good.kept (hg : Good s) (hfresh : Fresh s.heap mem) (hf : (s.tables t f).type = .file)
    (hk : Kept s.heap (s.tables t f) mem h' e') : Good (s.put h' t (Function.update (s.tables t) f e')) := by
  refine hg.replace hfresh hk.others (fun _ => hk.ok) (fun b hne => absurd (hk.type.trans hf) hne) fun b hb => ?_
  rcases hk.data with hd | ⟨c, junk, hm, hd⟩
  · exact .inl (hd.symm.trans hb)
  · obtain rfl := Ptr.block.inj (hd.symm.trans hb)
    exact .inr ⟨junk, hm⟩

theorem Good.drop (hg : Good s)
    (hT : ∀ i, T i = s.tables t i ∨ (T i).type ≠ .file ∧ ∀ b, (T i).data ≠ .block b) :
    Good (s.put s.heap t T) := by
  have hcases : ∀ t' i, (s.put s.heap t T).tables t' i = s.tables t' i ∨
      ((s.put s.heap t T).tables t' i).type ≠ .file ∧
        ∀ b, ((s.put s.heap t T).tables t' i).data ≠ .block b := by
    intro t' i
    by_cases ht : t' = t
    · subst ht
      rw [put_tables_self]
      exact hT i
    · rw [put_tables_ne _ ht]
      exact .inl rfl
  constructor
  · intro t' i hf
    rcases hcases t' i with he | ⟨hne, -⟩
    · rw [he] at hf ⊢
      exact hg.files t' i hf
    · exact absurd hf hne
  · intro t' i b hne
    rcases hcases t' i with he | ⟨-, hnb⟩
    · rw [he] at hne ⊢
      exact hg.others t' i b hne
    · exact hnb b
  · intro t₁ i₁ t₂ i₂ b hd₁ hd₂
    rcases hcases t₁ i₁ with he₁ | ⟨-, hnb⟩
    · rcases hcases t₂ i₂ with he₂ | ⟨-, hnb⟩
      · rw [he₁] at hd₁
        rw [he₂] at hd₂
        exact hg.unshared t₁ i₁ t₂ i₂ b hd₁ hd₂
      · exact absurd hd₂ (hnb b)
    · exact absurd hd₁ (hnb b)

theorem fresh_none : Fresh h none := fun _ _ hm => by cases hm

theorem Good.call (hg : Good s) (t : TaskId) (fd : Int) {k : Call} (ha : k.Allowed s.heap) :
    ∃ a s', s.call t fd k = some (a, s') ∧ Good s' := by
  have hsame : ∀ a : Answer, ∃ a' s', some (a, s.put s.heap t (s.tables t)) = some (a', s') ∧ Good s' :=
    fun a => ⟨a, s, by rw [put_same], hg⟩
  cases k with
  | read n =>
    simp only [State.call, fdRead]
    split
    · exact hsame _
    · rename_i f _
      split
      · exact hsame _
      · exact hsame _
      · rename_i hf
        obtain ⟨r, bytes, e', hrun, hk⟩ := fileRead_kept (n := n) (hg.files t f hf)
        rw [hrun]
        exact ⟨_, _, rfl, hg.kept fresh_none hf hk⟩
      · exact hsame _
  | write data mem =>
    simp only [State.call, fdWrite]
    split
    · exact hsame _
    · rename_i f _
      split
      · exact hsame _
      · exact hsame _
      · exact hsame _
      · rename_i hf
        obtain ⟨r, h', e', hrun, hk⟩ := fileWrite_kept (hg.files t f hf) ha.1 ha.2
        rw [hrun]
        exact ⟨_, _, rfl, hg.kept ha.2 hf hk⟩
      · exact hsame _
  | lseek offset whence =>
    simp only [State.call, fdLseek]
    split
    · exact hsame _
    · rename_i f _
      split
      · rename_i hf
        exact ⟨_, _, rfl, hg.kept fresh_none hf (fileLseek_kept (hg.files t f hf) offset whence)⟩
      · exact hsame _

theorem openSize_le {name : List U8} {flags : U32} {stored : Stored}
    (hs : openSize name flags stored = some n) : n ≤ maxFdFile := by
  unfold openSize at hs
  dsimp only at hs
  repeat' split at hs
  all_goals cases hs
  · exact Nat.zero_le _
  · omega

theorem freeFds_free (hf : f ∈ freeFds T) : (T f).type = .free := of_decide_eq_true (List.mem_filter.mp hf).2

theorem Good.open (hg : Good s) {name : List U8} {flags : U32} {stored : Stored}
    (hfresh : Fresh s.heap mem) :
    Good (s.put (fdOpen s.heap (s.tables t) name flags stored mem).2.1 t
      (fdOpen s.heap (s.tables t) name flags stored mem).2.2) := by
  have hsame : Good (s.put s.heap t (s.tables t)) := (put_same s t).symm ▸ hg
  unfold fdOpen
  split
  · rename_i size f rest hs hfree
    have hf : (s.tables t f).type = .free := freeFds_free (hfree ▸ List.mem_cons_self)
    split
    · refine hg.replace fresh_none (fun _ _ _ => rfl) (fun _ => ?_) (fun b hne => absurd rfl hne) ?_
      · exact ⟨Nat.zero_le _, Nat.zero_le _, .inl ⟨rfl, rfl⟩⟩
      · intro b hb
        cases hb
    · split
      · exact hsame
      · rename_i b junk
        split
        · exact hsame
        · rename_i hlen
          refine hg.replace hfresh (fun c _ hc => ?_) (fun _ => ?_) (fun b hne => absurd rfl hne) ?_
          · refine Function.update_of_ne ?_ _ _
            rintro rfl
            exact hc junk rfl
          · refine ⟨openSize_le hs, Nat.zero_le _, .inr ⟨b, stored.bytes, rfl, ?_, ?_⟩⟩
            · exact Function.update_self _ _ _
            · exact not_not.mp hlen
          · intro c hc
            obtain rfl := Ptr.block.inj hc
            exact .inr ⟨junk, rfl⟩
  · exact hsame

theorem Good.close (hg : Good s) (t : TaskId) (fd : Int) (rc : Int) :
    ∃ r h' T', fdClose s.heap (s.tables t) fd rc = some (r, h', T') ∧ Good (s.put h' t T') := by
  have hsame : Good (s.put s.heap t (s.tables t)) := (put_same s t).symm ▸ hg
  have hgone : ∀ f, Good (s.put (s.heap.release (s.tables t f).data) t
      (Function.update (s.tables t) f (s.tables t f).closed)) := by
    intro f
    refine hg.replace fresh_none (fun b hb _ => release_other hb) (fun hf => by cases hf) ?_ ?_
    · exact fun b _ hb => by cases hb
    · exact fun b hb => by cases hb
  unfold fdClose
  split
  · exact ⟨_, _, _, rfl, hsame⟩
  · rename_i f _
    split
    · rename_i hp
      refine ⟨_, _, _, rfl, hg.drop fun i => ?_⟩
      by_cases hi : i = f
      · subst hi
        rw [Function.update_self]
        exact .inr ⟨Proc.FdType.noConfusion, fun b => Ptr.noConfusion⟩
      · exact .inl (Function.update_of_ne hi _ _)
    · rename_i hf
      split
      · obtain ⟨bytes, hb⟩ := storedBytes_some (hg.files t f hf)
        rw [hb]
        exact ⟨_, _, _, rfl, hgone f⟩
      · exact ⟨_, _, _, rfl, hgone f⟩
    · exact ⟨_, _, _, rfl, hsame⟩

theorem Good.pipe (hg : Good s) (p : Option Proc.PipeId) :
    Good (s.put s.heap t (fdPipe (s.tables t) p).2) := by
  refine hg.drop fun i => ?_
  unfold fdPipe
  split
  · rename_i p r w rest _
    by_cases hw : i = w
    · subst hw
      simp only [Function.update_self]
      exact .inr ⟨Proc.FdType.noConfusion, fun b => Ptr.noConfusion⟩
    · simp only [Function.update_of_ne hw]
      by_cases hr : i = r
      · subst hr
        rw [Function.update_self]
        exact .inr ⟨Proc.FdType.noConfusion, fun b => Ptr.noConfusion⟩
      · exact .inl (Function.update_of_ne hr _ _)
  · exact .inl rfl

theorem init_entry (i : Fd) : (fdTableInit i).type ≠ .file ∧ ∀ b, (fdTableInit i).data ≠ .block b := by
  refine ⟨?_, fun b => Ptr.noConfusion⟩
  simp only [fdTableInit, Entry.stream]
  repeat' split
  all_goals exact Proc.FdType.noConfusion

/-! ## `fd_table_dup` -/

variable {src dst : Table} {mems : Fd → Offer} {L : List Fd}

/-- What `fd_table_dup` makes of an entry. -/
def copyOf (e : Entry) (mem : Offer) : Entry :=
  if e.type = .file then
    match mem with
    | some (b, _) => if 0 < e.size then { e with data := .block b } else { e with data := .null }
    | none => { e with data := .null }
  else e

theorem copyOf_fields (e : Entry) (mem : Offer) : ∃ p, copyOf e mem = { e with data := p } := by
  unfold copyOf
  split
  · split
    · split
      · exact ⟨_, rfl⟩
      · exact ⟨_, rfl⟩
    · exact ⟨_, rfl⟩
  · exact ⟨e.data, rfl⟩

theorem copyOf_type : (copyOf e mem).type = e.type := by
  obtain ⟨p, hp⟩ := copyOf_fields e mem
  rw [hp]

theorem copyOf_size : (copyOf e mem).size = e.size := by
  obtain ⟨p, hp⟩ := copyOf_fields e mem
  rw [hp]

theorem copyOf_offset : (copyOf e mem).offset = e.offset := by
  obtain ⟨p, hp⟩ := copyOf_fields e mem
  rw [hp]

theorem dupEntry_other (hf : e.type ≠ .file) : dupEntry h e mem = some (h, copyOf e mem) := by
  exact (if_neg hf).trans (congrArg (fun e => some (h, e)) (if_neg hf).symm)

theorem dupEntry_null (hf : e.type = .file) (hbad : e.size = 0 ∨ mem = none) :
    dupEntry h e mem = some (h, copyOf e mem) := by
  have hcopy : copyOf e mem = { e with data := .null } := by
    refine (if_pos hf).trans ?_
    cases mem with
    | none => rfl
    | some m =>
      have hs : ¬0 < e.size := by
        have hs := hbad.resolve_right (Option.some_ne_none m)
        omega
      exact if_neg hs
  rw [hcopy]
  refine (if_pos hf).trans ?_
  split
  · rename_i hc
    rw [hbad.resolve_left (Nat.pos_iff_ne_zero.mp hc.2)]
  · rfl

theorem dupEntry_block (hf : e.type = .file) (he : e.Ok h) (hs : 0 < e.size) (hb : h b = none) :
    dupEntry h e (some (b, junk)) =
      some (Function.update h b (some (content h e)), copyOf e (some (b, junk))) := by
  have hkeep : ∀ c, e.data = .block c → h.alloc b junk e.size c = h c := by
    intro c hc
    refine Function.update_of_ne ?_ _ _
    rintro rfl
    exact he.ne_fresh hb hc
  have hdata : e.data ≠ .null := by
    rcases he.data with ⟨-, h0⟩ | ⟨c, bytes, hd, -, -⟩
    · omega
    · rw [hd]
      exact Ptr.noConfusion
  have hread : (h.alloc b junk e.size).read e.data 0 e.size = some (content h e) := by
    rw [(he.congr hkeep).read (by omega), content_congr hkeep, List.drop_zero,
      List.take_of_length_le (by rw [he.content_length])]
  have hnew : ((List.range e.size).map junk).length = e.size := by simp
  have hfresh : h.alloc b junk e.size b = some ((List.range e.size).map junk) := Function.update_self b _ h
  have hw := write_block 0 (content h e) hfresh (by rw [hnew, he.content_length]; omega)
  have hall : patch ((List.range e.size).map junk) 0 (content h e) = content h e := by
    rw [patch, List.take_zero, List.nil_append, List.drop_eq_nil_of_le, List.append_nil]
    rw [hnew, he.content_length]
    omega
  have hcopy : copyOf e (some (b, junk)) = { e with data := .block b } := (if_pos hf).trans (if_pos hs)
  refine (if_pos hf).trans ((if_pos ⟨hdata, hs⟩).trans ?_)
  simp only [hread, Option.bind_eq_bind, Option.bind_some, hw, hcopy]
  rw [hall, Heap.alloc, Function.update_idem]

structure Copied (h : Heap) (src dst : Table) (mems : Fd → Offer) (L : List Fd) (h' : Heap) (T : Table) :
    Prop where
  copy : ∀ f ∈ L, (src f).type ≠ .free → T f = copyOf (src f) (mems f)
  free : ∀ f, f ∉ L ∨ (src f).type = .free → T f = dst f
  others : ∀ b, (∀ f ∈ L, ∀ junk, mems f ≠ some (b, junk)) → h' b = h b
  filled : ∀ f ∈ L, (src f).type = .file → 0 < (src f).size → ∀ b junk, mems f = some (b, junk) →
    h' b = some (content h (src f))

theorem Copied.cons {T : Table} {h₁ : Heap} (hnd : (f :: L).Nodup) (hft : (src f).type ≠ .free)
    (hsame : ∀ b, (∀ junk, mems f ≠ some (b, junk)) → h₁ b = h b)
    (hfill : (src f).type = .file → 0 < (src f).size → ∀ b junk, mems f = some (b, junk) →
      h₁ b = some (content h (src f)))
    (hinj : ∀ i j b junk junk', mems i = some (b, junk) → mems j = some (b, junk') → i = j)
    (hsrc : ∀ g b, (src g).data = .block b → h₁ b = h b)
    (hc : Copied h₁ src (Function.update dst f (copyOf (src f) (mems f))) mems L h' T) :
    Copied h src dst mems (f :: L) h' T := by
  obtain ⟨hfL, -⟩ := List.nodup_cons.mp hnd
  constructor
  · intro g hg hgt
    rcases List.mem_cons.mp hg with rfl | hg
    · exact (hc.free g (.inl hfL)).trans (Function.update_self _ _ _)
    · exact hc.copy g hg hgt
  · intro g hg
    have hgf : g ≠ f := by
      rintro rfl
      rcases hg with hg | hg
      · exact hg List.mem_cons_self
      · exact hft hg
    refine (hc.free g (hg.imp_left List.not_mem_of_not_mem_cons)).trans ?_
    exact Function.update_of_ne hgf _ _
  · intro b hb
    rw [hc.others b fun g hg => hb g (List.mem_cons_of_mem f hg)]
    exact hsame b (hb f List.mem_cons_self)
  · intro g hg hgt hgs b junk hm
    rcases List.mem_cons.mp hg with rfl | hg
    · rw [hc.others b fun g' hg' junk' hm' => hfL (hinj g g' b junk junk' hm hm' ▸ hg')]
      exact hfill hgt hgs b junk hm
    · rw [hc.filled g hg hgt hgs b junk hm, content_congr (hsrc g)]

theorem dupAll_copied (hnd : L.Nodup) (hsrc : ∀ g, (src g).type = .file → (src g).Ok h)
    (hblk : ∀ g b, (src g).data = .block b → h b ≠ none) (hfresh : ∀ g ∈ L, Fresh h (mems g))
    (hinj : ∀ i j b junk junk', mems i = some (b, junk) → mems j = some (b, junk') → i = j) :
    ∃ h' T, dupAll h src dst mems L = some (h', T) ∧ Copied h src dst mems L h' T := by
  induction L generalizing h dst with
  | nil => exact ⟨h, dst, rfl, fun f hf => absurd hf List.not_mem_nil, fun _ _ => rfl, fun _ _ => rfl,
      fun f hf => absurd hf List.not_mem_nil⟩
  | cons f L ih =>
    obtain ⟨hfL, hndL⟩ := List.nodup_cons.mp hnd
    by_cases hft : (src f).type = .free
    · obtain ⟨h', T, hrun, hc⟩ := ih hndL hsrc hblk fun g hg => hfresh g (List.mem_cons_of_mem f hg)
      refine ⟨h', T, by rw [dupAll, if_pos hft, hrun], ?_, ?_, ?_, ?_⟩
      · intro g hg hgt
        rcases List.mem_cons.mp hg with rfl | hg
        · exact absurd hft hgt
        · exact hc.copy g hg hgt
      · intro g hg
        exact hc.free g (hg.imp_left List.not_mem_of_not_mem_cons)
      · exact fun b hb => hc.others b fun g hg => hb g (List.mem_cons_of_mem f hg)
      · intro g hg hgt
        rcases List.mem_cons.mp hg with rfl | hg
        · rw [hft] at hgt
          cases hgt
        · exact hc.filled g hg hgt
    · -- the heap behind this entry
      obtain ⟨h₁, hdup, hsame, hfill⟩ : ∃ h₁, dupEntry h (src f) (mems f) = some (h₁, copyOf (src f) (mems f)) ∧
          (∀ b, (∀ junk, mems f ≠ some (b, junk)) → h₁ b = h b) ∧
          ((src f).type = .file → 0 < (src f).size → ∀ b junk, mems f = some (b, junk) →
            h₁ b = some (content h (src f))) := by
        by_cases hff : (src f).type = .file
        · by_cases hbad : (src f).size = 0 ∨ mems f = none
          · refine ⟨h, dupEntry_null hff hbad, fun _ _ => rfl, fun _ hs b junk hm => ?_⟩
            rcases hbad with h0 | hn
            · omega
            · rw [hm] at hn
              cases hn
          · obtain ⟨hs, hm⟩ := not_or.mp hbad
            obtain ⟨⟨b, junk⟩, hm⟩ := Option.ne_none_iff_exists'.mp hm
            have hb : h b = none := hfresh f List.mem_cons_self b junk hm
            refine ⟨_, by rw [hm, dupEntry_block hff (hsrc f hff) (Nat.pos_of_ne_zero hs) hb], ?_, ?_⟩
            · intro c hc
              refine Function.update_of_ne ?_ _ _
              rintro rfl
              exact hc junk hm
            · intro _ _ c junk' hm'
              obtain ⟨rfl, -⟩ := Prod.mk.inj (Option.some.inj (hm.symm.trans hm'))
              exact Function.update_self _ _ _
        · exact ⟨h, dupEntry_other hff, fun _ _ => rfl, fun hff' => absurd hff' hff⟩
      have hkeep : ∀ g b, (src g).data = .block b → h₁ b = h b := by
        intro g b hd
        refine hsame b fun junk hm => hblk g b hd ?_
        exact hfresh f List.mem_cons_self b junk hm
      obtain ⟨h', T, hrun, hc⟩ := ih hndL
        (fun g hg => (hsrc g hg).congr (hkeep g)) (fun g b hd => by rw [hkeep g b hd]; exact hblk g b hd)
        (by
          intro g hg b junk hm
          rw [hsame b, hfresh g (List.mem_cons_of_mem f hg) b junk hm]
          intro junk' hm'
          exact hfL (hinj g f b junk junk' hm hm' ▸ hg))
      refine ⟨h', T, ?_, hc.cons hnd hft hsame hfill hinj hkeep⟩
      rw [dupAll, if_neg hft, hdup]
      exact hrun

theorem Good.fork_copied (hg : Good s) (hfresh : ∀ i, Fresh s.heap (mems i))
    (hinj : ∀ i j b junk junk', mems i = some (b, junk) → mems j = some (b, junk') → i = j) :
    ∃ h' T, fdTableDup s.heap (s.tables t) mems = some (h', T) ∧
      Copied s.heap (s.tables t) fdTableInit mems (List.finRange Proc.maxOpenFds) h' T :=
  dupAll_copied (List.nodup_finRange _) (hg.files t) (fun _ _ hd => hg.live hd) (fun g _ => hfresh g) hinj

theorem Copied.data {T : Table} (hc : Copied s.heap (s.tables t) fdTableInit mems
    (List.finRange Proc.maxOpenFds) h' T) (hg : Good s) {i : Fd} (hd : (T i).data = .block b) :
    ∃ junk, mems i = some (b, junk) := by
  by_cases hft : (s.tables t i).type = .free
  · rw [hc.free i (.inr hft)] at hd
    exact absurd hd ((init_entry i).2 b)
  · rw [hc.copy i (List.mem_finRange i) hft] at hd
    unfold copyOf at hd
    split at hd
    · split at hd
      · split at hd
        · rename_i c junk hm _
          obtain rfl := Ptr.block.inj hd
          exact ⟨junk, hm⟩
        · cases hd
      · cases hd
    · rename_i hff
      exact absurd hd (hg.others t i b hff)

/-! ## Runs -/

def Buffers (s : State) : Prop :=
  ∀ t i, (s.tables t i).type = .file → 0 < (s.tables t i).size →
    ∃ b bytes, (s.tables t i).data = .block b ∧ s.heap b = some bytes ∧ (s.tables t i).size ≤ bytes.length ∧
      ∀ t' i', (s.tables t' i').data = .block b → t' = t ∧ i' = i

def Clean (s : State) : Op → Prop
  | .fork t _ mems => ∀ i, (s.tables t i).type = .file → 0 < (s.tables t i).size → mems i ≠ none
  | _ => True

def CleanStep (s : State) (o : Op) (s' : State) : Prop := Step s o s' ∧ Clean s o

theorem Good.buffers (hg : Good s) : Buffers s := by
  intro t i hf hs
  rcases (hg.files t i hf).data with ⟨-, h0⟩ | ⟨b, bytes, hd, hb, hl⟩
  · omega
  · exact ⟨b, bytes, hd, hb, Nat.le_of_eq hl.symm, fun t' i' hd' => hg.unshared t' i' t i b hd' hd⟩

theorem Good.fork (hg : Good s) (htc : t ≠ c) (hfresh : ∀ i, Fresh s.heap (mems i))
    (hinj : ∀ i j b junk junk', mems i = some (b, junk) → mems j = some (b, junk') → i = j) {T : Table}
    (hc : Copied s.heap (s.tables t) fdTableInit mems (List.finRange Proc.maxOpenFds) h' T)
    (hclean : Clean s (.fork t c mems)) : Good (s.put h' c T) := by
  have hold : ∀ t' i b, (s.tables t' i).data = .block b → h' b = s.heap b := by
    intro t' i b hd
    refine hc.others b fun g _ junk hm => hg.live hd ?_
    exact hfresh g b junk hm
  have hnew : ∀ t' i j b, (s.tables t' i).data = .block b → (T j).data ≠ .block b := by
    intro t' i j b hd hd'
    obtain ⟨junk, hm⟩ := hc.data hg hd'
    exact hg.live hd (hfresh j b junk hm)
  have hcopy : ∀ i, (T i).type = .file → (s.tables t i).type = .file ∧ T i = copyOf (s.tables t i) (mems i) := by
    intro i hf
    by_cases hft : (s.tables t i).type = .free
    · rw [hc.free i (.inr hft)] at hf
      exact absurd hf (init_entry i).1
    · have he := hc.copy i (List.mem_finRange i) hft
      rw [he, copyOf_type] at hf
      exact ⟨hf, he⟩
  constructor
  · intro t' i
    by_cases ht : t' = c
    · subst ht
      rw [put_tables_self]
      intro hf
      obtain ⟨hff, he⟩ := hcopy i hf
      have hok := hg.files t i hff
      rw [he]
      refine ⟨copyOf_size.symm ▸ hok.size, copyOf_offset.symm ▸ hok.offset, ?_⟩
      rw [copyOf_size]
      rcases Nat.eq_zero_or_pos (s.tables t i).size with h0 | hs
      · refine .inl ⟨?_, h0⟩
        unfold copyOf
        rw [if_pos hff, h0]
        split <;> rfl
      · obtain ⟨⟨b, junk⟩, hm⟩ := Option.ne_none_iff_exists'.mp (hclean i hff hs)
        refine .inr ⟨b, _, ?_, hc.filled i (List.mem_finRange i) hff hs b junk hm, hok.content_length⟩
        unfold copyOf
        rw [if_pos hff, hm]
        simp only [if_pos hs]
    · rw [put_tables_ne _ ht]
      exact fun hf => (hg.files t' i hf).congr (hold t' i)
  · intro t' i b
    by_cases ht : t' = c
    · subst ht
      rw [put_tables_self]
      intro hne hd
      obtain ⟨junk, hm⟩ := hc.data hg hd
      by_cases hft : (s.tables t i).type = .free
      · rw [hc.free i (.inr hft)] at hd
        exact (init_entry i).2 b hd
      · rw [hc.copy i (List.mem_finRange i) hft] at hne hd
        rw [copyOf_type] at hne
        unfold copyOf at hd
        rw [if_neg hne] at hd
        exact hg.others t i b hne hd
    · rw [put_tables_ne _ ht]
      exact hg.others t' i b
  · intro t₁ i₁ t₂ i₂ b
    by_cases h₁ : t₁ = c
    · subst h₁
      rw [put_tables_self]
      by_cases h₂ : t₂ = t₁
      · subst h₂
        rw [put_tables_self]
        intro hd₁ hd₂
        obtain ⟨junk₁, hm₁⟩ := hc.data hg hd₁
        obtain ⟨junk₂, hm₂⟩ := hc.data hg hd₂
        exact ⟨rfl, hinj i₁ i₂ b junk₁ junk₂ hm₁ hm₂⟩
      · rw [put_tables_ne _ h₂]
        exact fun hd₁ hd₂ => absurd hd₁ (hnew t₂ i₂ i₁ b hd₂)
    · rw [put_tables_ne _ h₁]
      by_cases h₂ : t₂ = c
      · subst h₂
        rw [put_tables_self]
        exact fun hd₁ hd₂ => absurd hd₂ (hnew t₁ i₁ i₂ b hd₁)
      · rw [put_tables_ne _ h₂]
        exact hg.unshared t₁ i₁ t₂ i₂ b

theorem not_buffers_of_fork {T : Table}
    (hc : Copied s.heap (s.tables t) fdTableInit mems (List.finRange Proc.maxOpenFds) h' T)
    (hbad : ¬Clean s (.fork t c mems)) : ¬Buffers (s.put h' c T) := by
  intro hbuf
  refine hbad fun i hf hs hm => ?_
  have he : (s.put h' c T).tables c i = copyOf (s.tables t i) none := by
    rw [put_tables_self, hc.copy i (List.mem_finRange i) (by rw [hf]; exact Proc.FdType.noConfusion), hm]
  obtain ⟨b, bytes, hd, -⟩ := hbuf c i (by rw [he, copyOf_type, hf]) (by rw [he, copyOf_size]; exact hs)
  rw [he] at hd
  unfold copyOf at hd
  rw [if_pos hf] at hd
  cases hd

theorem Good.step (hg : Good s) (ha : Allowed s o) :
    ∃ s', s.run o = some s' ∧ (Clean s o → Good s') ∧ (Buffers s' → Clean s o) := by
  cases o with
  | call t fd k =>
    obtain ⟨a, s', hrun, hg'⟩ := hg.call t fd ha
    refine ⟨s', ?_, fun _ => hg', fun _ => trivial⟩
    simp only [State.run, hrun, Option.map_some]
  | «open» t name flags stored mem => exact ⟨_, rfl, fun _ => hg.open ha, fun _ => trivial⟩
  | close t fd rc =>
    obtain ⟨r, h', T', hrun, hg'⟩ := hg.close t fd rc
    refine ⟨_, ?_, fun _ => hg', fun _ => trivial⟩
    simp only [State.run, hrun, Option.map_some]
  | pipe t p => exact ⟨_, rfl, fun _ => hg.pipe p, fun _ => trivial⟩
  | init t => exact ⟨_, rfl, fun _ => hg.drop fun i => .inr (init_entry i), fun _ => trivial⟩
  | fork t c mems =>
    obtain ⟨h', T, hrun, hc⟩ := hg.fork_copied (t := t) ha.2.1 ha.2.2
    refine ⟨s.put h' c T, ?_, hg.fork ha.1 ha.2.1 ha.2.2 hc, fun hb => ?_⟩
    · simp only [State.run, hrun, Option.map_some]
    · by_contra hbad
      exact not_buffers_of_fork hc hbad hb

theorem good_boot : Good boot :=
  ⟨fun _ i hf => absurd hf (init_entry i).1, fun _ i b _ => (init_entry i).2 b,
    fun _ i _ _ b hd => absurd hd ((init_entry i).2 b)⟩

theorem CleanStep.good (hg : Good s) (h : CleanStep s o s') : Good s' := by
  obtain ⟨s'', hrun, hgood, -⟩ := hg.step h.1.1
  obtain rfl := Option.some.inj (hrun.symm.trans h.1.2)
  exact hgood h.2

theorem good_of_run {ops : List Op} (h : Run CleanStep boot ops s) : Good s :=
  Run.invariant (I := Good) CleanStep.good h good_boot

/-- While no `fork` is short of memory every file keeps its buffer and no call leaves the buffers; and
whatever the next step is, it keeps the buffers just if it is no such `fork`. -/
theorem run_buffers {ops : List Op} (h : Run CleanStep boot ops s) :
    Buffers s ∧ ∀ o, Allowed s o → ∃ s', s.run o = some s' ∧ (Buffers s' ↔ Clean s o) := by
  have hg := good_of_run h
  refine ⟨hg.buffers, fun o ha => ?_⟩
  obtain ⟨s', hrun, hgood, hclean⟩ := hg.step ha
  exact ⟨s', hrun, hclean, fun hc => (hgood hc).buffers⟩

def parent : TaskId := ⟨0, by decide⟩
def child : TaskId := ⟨1, by decide⟩

def openTwo : Op := .open parent [97] oRdwr ⟨2, [1, 2]⟩ (some (0, fun _ => 0))

def opened : State := (boot.run openTwo).getD boot

theorem opened_step : CleanStep boot openTwo opened := ⟨⟨fun _ _ _ => rfl, rfl⟩, trivial⟩

def spare (i : Fd) : Offer := if i.val = 3 then some (1, fun _ => 7) else none

theorem spare_some {i : Fd} (hm : spare i = some (b, junk)) : i.val = 3 ∧ b = 1 := by
  unfold spare at hm
  split at hm
  · cases hm
    exact ⟨by assumption, rfl⟩
  · cases hm

theorem run_buffers_opened :
    Buffers opened ∧ ∃ s', opened.run (.fork parent child spare) = some s' ∧ Buffers s' := by
  obtain ⟨hb, hnext⟩ := run_buffers (.cons opened_step (.nil _))
  have hallowed : Allowed opened (.fork parent child spare) := by
    refine ⟨by decide, fun i b junk hm => ?_, fun i j b junk junk' hi hj => ?_⟩
    · obtain ⟨-, rfl⟩ := spare_some hm
      rfl
    · exact Fin.ext ((spare_some hi).1.trans (spare_some hj).1.symm)
  obtain ⟨s', hrun, hiff⟩ := hnext _ hallowed
  refine ⟨hb, s', hrun, hiff.mpr fun i hf _ => ?_⟩
  have hi : ∀ i, (opened.tables parent i).type = .file → i.val = 3 := by decide
  rw [spare, if_pos (hi i hf)]
  exact Option.some_ne_none _

def starved : State := (opened.run (.fork parent child fun _ => none)).getD boot

/-- Without memory the child has a file of size 2 and no buffer, and its first read goes through the null
pointer. -/
theorem starved_read : Step opened (.fork parent child fun _ => none) starved ∧ ¬Buffers starved ∧
    starved.run (.call child 3 (.read 1)) = none := by
  have hnull : starved.run (.call child 3 (.read 1)) = none :=
    Option.isNone_iff_eq_none.mp (by decide)
  have hsome : (opened.run (.fork parent child fun _ => none)).isSome = true := by decide
  refine ⟨⟨⟨by decide, fun _ => fresh_none, fun i j b junk junk' hi => by cases hi⟩, ?_⟩, fun hb => ?_, hnull⟩
  · obtain ⟨s', hs'⟩ := Option.isSome_iff_exists.mp hsome
    rw [starved, hs', Option.getD_some]
  · obtain ⟨b, bytes, hd, -⟩ := hb child ⟨3, by decide⟩ (by decide) (by decide)
    have hnone : (starved.tables child ⟨3, by decide⟩).data = .null := by decide
    rw [hnone] at hd
    cases hd

end Ezos.Files
