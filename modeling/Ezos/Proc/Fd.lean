import Ezos.Lib.Ring
import Ezos.Lib.Tally
import Ezos.Types

/-!
# File descriptors and pipes (`kernel/fd.c`)

The pipe half of `fd.c`. A critical section (`cli` to `sti`) is one function here. A file entry only
occupies its slot: what `fd_open`, `fd_read` and `fd_write` do to a file touches no pipe.
-/

namespace Ezos.Proc

open Lib Lib.Tally

set_option autoImplicit false

def pipeMax : Nat := 16
def pipeBuf : Nat := 4096
def maxOpenFds : Nat := 16

abbrev PipeId := Fin pipeMax
abbrev Fd := Fin maxOpenFds

inductive FdType | free | stdin | stdout | stderr | file | pipe
deriving DecidableEq, Repr

/-- `data` of a pipe entry points to its `pipe_t`. -/
structure Entry where
  type : FdType
  writable : Bool
  data : Option PipeId
deriving DecidableEq, Repr

abbrev Table := Fd → Entry

structure Pipe where
  used : Bool
  refR : Nat
  refW : Nat
  head : Nat
  tail : Nat
  count : Nat
  buf : Nat → U8

abbrev Pipes := PipeId → Pipe

def Entry.free : Entry := ⟨.free, false, none⟩
def Entry.pipeEnd (p : PipeId) (w : Bool) : Entry := ⟨.pipe, w, some p⟩

def bssPipe : Pipe := ⟨false, 0, 0, 0, 0, 0, fun _ => 0⟩

def pipeFree (q : Pipe) : Pipe :=
  { q with buf := fun _ => 0, head := 0, tail := 0, count := 0, refR := 0, refW := 0, used := false }

/-- `mem` tells whether `kmalloc(PIPE_BUF)` succeeds. -/
def pipeAlloc (ps : Pipes) (mem : Bool) : Option (PipeId × Pipes) :=
  match (List.finRange pipeMax).find? (fun i => !(ps i).used) with
  | none => none
  | some i => if mem then some (i, Function.update ps i { bssPipe with used := true }) else none

def fdTableInit : Table := fun i =>
  if i.val = 0 then ⟨.stdin, false, none⟩
  else if i.val = 1 then ⟨.stdout, false, none⟩
  else if i.val = 2 then ⟨.stderr, false, none⟩
  else .free

def fdOf (fd : Int) : Option Fd :=
  if h : 0 ≤ fd ∧ fd.toNat < maxOpenFds then some ⟨fd.toNat, h.2⟩ else none

def userFds : List Fd := (List.finRange maxOpenFds).filter fun i => decide (3 ≤ i.val)

def freeFds (T : Table) : List Fd := userFds.filter fun i => decide ((T i).type = .free)

def fdPipe (ps : Pipes) (T : Table) (mem : Bool) : Option (Fd × Fd × PipeId) × Pipes × Table :=
  match pipeAlloc ps mem with
  | none => (none, ps, T)
  | some (p, ps') =>
    match freeFds T with
    | r :: w :: _ =>
      (some (r, w, p),
        Function.update ps' p
          { ps' p with used := true, refR := 1, refW := 1, head := 0, tail := 0, count := 0 },
        Function.update (Function.update T r (.pipeEnd p false)) w (.pipeEnd p true))
    | _ => (none, Function.update ps' p (pipeFree (ps' p)), T)

def fdOpen (T : Table) (ok writing : Bool) : Table :=
  match ok, freeFds T with
  | true, f :: _ => Function.update T f ⟨.file, writing, none⟩
  | _, _ => T

def Pipe.ref (w : Bool) (q : Pipe) : Nat := if w then q.refW else q.refR

def Pipe.drop (w : Bool) (q : Pipe) : Pipe :=
  if w then { q with refW := if 0 < q.refW then q.refW - 1 else q.refW }
  else { q with refR := if 0 < q.refR then q.refR - 1 else q.refR }

def Pipe.bump (w : Bool) (q : Pipe) : Pipe :=
  if w then { q with refW := if q.refW < 0xFFFF then q.refW + 1 else q.refW }
  else { q with refR := if q.refR < 0xFFFF then q.refR + 1 else q.refR }

/-- The critical section of `fd_close` at a pipe end. -/
def pipeClose (ps : Pipes) (e : Entry) : Pipes :=
  match e.data with
  | none => ps
  | some p =>
    let q := (ps p).drop e.writable
    Function.update ps p (if q.refR = 0 ∧ q.refW = 0 then pipeFree q else q)

/-- `fd_close` of a descriptor in range; `rc` is what writing a dirty file back returned. -/
def closeEntry (ps : Pipes) (T : Table) (f : Fd) (rc : Int) : Int × Pipes × Table :=
  match (T f).type with
  | .pipe => (0, pipeClose ps (T f), Function.update T f .free)
  | .file => (rc, ps, Function.update T f .free)
  | _ => (-1, ps, T)

def fdClose (ps : Pipes) (T : Table) (fd rc : Int) : Int × Pipes × Table :=
  match fdOf fd with
  | none => (-1, ps, T)
  | some f => closeEntry ps T f rc

/-- The closing loop of `process_exit` and `task_reap_zombies`, over the descriptors `fs`. -/
def closeAll (ps : Pipes) (T : Table) : List Fd → Pipes × Table
  | [] => (ps, T)
  | f :: fs => closeAll (closeEntry ps T f 0).2.1 (closeEntry ps T f 0).2.2 fs

/-- What `fd_table_dup` does for one entry. -/
def dupEntry (ps : Pipes) (e : Entry) : Pipes :=
  match e.type, e.data with
  | .pipe, some p => Function.update ps p ((ps p).bump e.writable)
  | _, _ => ps

def dupAll (ps : Pipes) (T : Table) : List Fd → Pipes
  | [] => ps
  | f :: fs => dupAll (dupEntry ps (T f)) T fs

def fdTableDup (ps : Pipes) (src : Table) : Pipes × Table :=
  (dupAll ps src (List.finRange maxOpenFds),
    fun i => if (src i).type = .free then fdTableInit i else src i)

/-- What happens before the loop of `fd_read` and `fd_write`: the call returns, or goes on with a
pipe, or belongs to a file or a stream. -/
inductive Enter
  | returns (r : Int)
  | loops (p : PipeId)
  | other
deriving DecidableEq

def fdReadEnter (T : Table) (fd : Int) (n : Nat) : Enter :=
  match fdOf fd with
  | none => .returns (-1)
  | some f =>
    match (T f).type with
    | .stdin | .file => .other
    | .pipe =>
      match (T f).data with
      | none => .returns (-1)
      | some p => if (T f).writable then .returns (-1) else if n = 0 then .returns 0 else .loops p
    | _ => .returns (-1)

def fdWriteEnter (T : Table) (fd : Int) (n : Nat) : Enter :=
  match fdOf fd with
  | none => .returns (-1)
  | some f =>
    match (T f).type with
    | .stdout | .stderr | .file => .other
    | .pipe =>
      match (T f).data with
      | none => .returns (-1)
      | some p => if !(T f).writable then .returns (-1) else if n = 0 then .returns 0 else .loops p
    | _ => .returns (-1)

inductive Turn
  | returns (r : Int) (bytes : List U8)
  | sleeps
deriving DecidableEq

/-- `buf[i] = p->buf[(p->tail + i) % PIPE_BUF]` for `i < k`. -/
def copyOut (buf : Nat → U8) (tail k : Nat) : List U8 :=
  (List.range k).map fun i => buf ((tail + i) % pipeBuf)

/-- `p->buf[(p->head + i) % PIPE_BUF] = buf[i]` for each byte. -/
def copyIn (buf : Nat → U8) (head : Nat) : List U8 → Nat → U8
  | [] => buf
  | b :: bs => copyIn (Ring.put buf (head % pipeBuf) b) (head + 1) bs

def pipeRead (q : Pipe) (n : Nat) : Turn × Pipe :=
  if 0 < q.count then
    let k := if n < q.count then n else q.count
    (.returns k (copyOut q.buf q.tail k),
      { q with tail := (q.tail + k) % pipeBuf, count := q.count - k })
  else if q.refW = 0 then (.returns 0 [], q)
  else (.sleeps, q)

def pipeWrite (q : Pipe) (data : List U8) : Turn × Pipe :=
  if q.refR = 0 then (.returns (-1) [], q)
  else if q.count < pipeBuf then
    let room := pipeBuf - q.count
    let k := if data.length < room then data.length else room
    (.returns k (data.take k),
      { q with
        buf := copyIn q.buf q.head (data.take k)
        head := (q.head + k) % pipeBuf
        count := q.count + k })
  else (.sleeps, q)

end Ezos.Proc
