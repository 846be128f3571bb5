import Ezos.Mem.Pmm
import Ezos.Mem.PagingCalls

/-!
# ELF32 loader (`kernel/elf.c`)

The loader works on the page allocator and the page tables together. The file is a buffer
of its own: a kernel heap block, which no user mapping covers. Writes through a user
address go where the tables send them; `none` is a page fault of the kernel.
-/

namespace Ezos.Elf

open Lib.Memory Paging Pmm

set_option autoImplicit false

def userImageBase : U32 := 0x00400000
def userImageEnd : U32 := 0x00800000
def elfMaxSeg : U32 := 8
def ehdrSize : U32 := 52
def phdrSize : U32 := 32
def ptLoad : U32 := 1
def pfW : U32 := 0x2

structure Machine where
  pmm : Pmm.State
  pg : Paging.State

structure Phdr where
  pType : U32
  pOffset : U32
  pVaddr : U32
  pFilesz : U32
  pMemsz : U32
  pFlags : U32

structure ElfSeg where
  va : U32
  pages : U32
  phys : U32

structure ElfImage where
  entry : U32
  brk : U32
  seg : List ElfSeg

def eType (buf : Mem) : U16 := read16 buf 16
def eMachine (buf : Mem) : U16 := read16 buf 18
def eEntry (buf : Mem) : U32 := read32 buf 24
def ePhoff (buf : Mem) : U32 := read32 buf 28
def ePhentsize (buf : Mem) : U16 := read16 buf 42
def ePhnum (buf : Mem) : U16 := read16 buf 44

def phdrAt (buf : Mem) (a : Nat) : Phdr :=
  { pType := read32 buf a
    pOffset := read32 buf (a + 4)
    pVaddr := read32 buf (a + 8)
    pFilesz := read32 buf (a + 16)
    pMemsz := read32 buf (a + 20)
    pFlags := read32 buf (a + 24) }

def phdrs (buf : Mem) : List Phdr :=
  (List.range (ePhnum buf).toNat).map fun i => phdrAt buf ((ePhoff buf).toNat + 32 * i)

def alignUp (v a : U32) : U32 := (v + a - 1) &&& ~~~(a - 1)

def rangeIn (start len lo hi : U32) : Bool :=
  if len = 0 then start ≥ lo && start < hi
  else if start < lo then false
  else if hi ≤ start then false
  else if hi - start < len then false
  else true

/-- The loop of `elf_validate` over the program headers, then its last check. -/
def validatePhdrs (size : U32) : List Phdr → U32 → Option String
  | [], nload => if nload = 0 then some "no PT_LOAD segments" else none
  | ph :: phs, nload =>
    if ph.pType ≠ ptLoad then validatePhdrs size phs nload
    else if ph.pMemsz = 0 then validatePhdrs size phs (nload + 1)
    else if ph.pFilesz > ph.pMemsz then some "p_filesz > p_memsz"
    else if rangeIn ph.pVaddr ph.pMemsz userImageBase userImageEnd = false then
      some "segment outside user image area"
    -- a pure .bss segment reads no byte of the file, so its offset is not checked
    else if ph.pFilesz ≠ 0 ∧ rangeIn ph.pOffset ph.pFilesz 0 size = false then
      some "segment file range outside file"
    else if nload + 1 > elfMaxSeg then some "too many PT_LOAD segments"
    else validatePhdrs size phs (nload + 1)

def elfValidate (buf : Option Mem) (size : U32) : Option String :=
  match buf with
  | none => some "null buffer"
  | some buf =>
    if size < ehdrSize then some "file smaller than ELF header"
    else if ¬ (buf 0 = 0x7F ∧ buf 1 = 0x45 ∧ buf 2 = 0x4C ∧ buf 3 = 0x46) then some "bad ELF magic"
    else if buf 4 ≠ 1 then some "not ELFCLASS32"
    else if buf 5 ≠ 1 then some "not little-endian"
    else if buf 6 ≠ 1 then some "bad ELF version"
    else if eType buf ≠ 2 then some "not ET_EXEC (static executable required)"
    else if eMachine buf ≠ 3 then some "not EM_386 (i386)"
    else if rangeIn (eEntry buf) 1 userImageBase userImageEnd = false then
      some "entry point outside user image area"
    else if ePhentsize buf ≠ 32 then some "bad e_phentsize"
    else if ePhnum buf = 0 then some "no program headers"
    else if (ePhnum buf).setWidth 32 > elfMaxSeg then some "too many program headers"
    else if rangeIn (ePhoff buf) ((ePhnum buf).setWidth 32 * phdrSize) 0 size = false then
      some "program header table outside file"
    else validatePhdrs size (phdrs buf) 0

def unwindPages (m : Machine) (va : U32) : Nat → Machine
  | 0 => m
  | n + 1 =>
    let pmm := match pagingQuery m.pg va with
      | some (phys, _) => (pmmFreePage m.pmm phys).2
      | none => m.pmm
    unwindPages { pmm := pmm, pg := pagingUnmap m.pg va } (va + Pmm.pageSize) n

def unwind (m : Machine) (seg : List ElfSeg) : Machine :=
  seg.foldl (fun m g => unwindPages m g.va g.pages.toNat) m

def mapPages (s : Paging.State) (va phys flags : U32) (k : Nat) : Nat → Bool × Paging.State
  | 0 => (true, s)
  | n + 1 =>
    match pagingMap s (va + BitVec.ofNat 32 k * Pmm.pageSize)
        (phys + BitVec.ofNat 32 k * Pmm.pageSize) flags with
    | (false, s) => (false, s)
    | (true, s) => mapPages s va phys flags (k + 1) n

def protectPages (s : Paging.State) (va phys : U32) (k : Nat) : Nat → Paging.State
  | 0 => s
  | n + 1 =>
    protectPages (pagingMap s (va + BitVec.ofNat 32 k * Pmm.pageSize)
      (phys + BitVec.ofNat 32 k * Pmm.pageSize) pteUs).2 va phys (k + 1) n

/-- `memset(va, 0, n * 4096)` through the page tables. -/
def zeroPages (s : Paging.State) (va : U32) (k : Nat) : Nat → Option Paging.State
  | 0 => some s
  | n + 1 =>
    match pagingQuery s (va + BitVec.ofNat 32 k * Pmm.pageSize) with
    | none => none
    | some (frame, _) =>
      zeroPages { s with mem := fill s.mem frame.toNat 4096 0 } va (k + 1) n

/-- `memcpy(va, src, n)` through the page tables, from byte `i` on. -/
def copyBytes (s : Paging.State) (va : U32) (src : Nat → Byte) (i : Nat) : Nat → Option Paging.State
  | 0 => some s
  | n + 1 =>
    match pagingQuery s (va + BitVec.ofNat 32 i) with
    | none => none
    | some (frame, _) =>
      let a := frame.toNat + (va + BitVec.ofNat 32 i).toNat % 4096
      copyBytes { s with mem := fill s.mem a 1 (src i) } va src (i + 1) n

inductive Outcome where
  | loaded (img : ElfImage) (m : Machine)
  | failed (why : String) (img : Option ElfImage) (m : Machine)
  | fault

def vaStart (ph : Phdr) : U32 := ph.pVaddr &&& ~~~(Pmm.pageSize - 1)
def vaEnd (ph : Phdr) : U32 := alignUp (ph.pVaddr + ph.pMemsz) Pmm.pageSize
def segPages (ph : Phdr) : U32 := (vaEnd ph - vaStart ph) / Pmm.pageSize

def fail (why : String) (img : ElfImage) (m : Machine) : Outcome :=
  .failed why (some { img with seg := [] }) (unwind m img.seg)

def nextBrk (brk : U32) (ph : Phdr) : U32 :=
  let segEnd := ph.pVaddr + ph.pMemsz
  if segEnd > brk then alignUp segEnd Pmm.pageSize else brk

def copyFile (buf : Mem) (ph : Phdr) (s : Paging.State) : Option Paging.State :=
  if ph.pFilesz ≠ 0 then
    copyBytes s ph.pVaddr (fun i => buf (ph.pOffset.toNat + i)) 0 ph.pFilesz.toNat
  else some s

/-- A segment without `PF_W` becomes read-only. -/
def protect (ph : Phdr) (phys : U32) (s : Paging.State) : Paging.State :=
  if ph.pFlags &&& pfW = 0 then protectPages s (vaStart ph) phys 0 (segPages ph).toNat else s

def fillSegment (buf : Mem) (ph : Phdr) (phys : U32) (s : Paging.State) : Option Paging.State :=
  ((zeroPages s (vaStart ph) 0 (segPages ph).toNat).bind (copyFile buf ph)).map (protect ph phys)

/-- The loop of `elf_load` over the program headers. -/
def loadPhdrs (buf : Mem) : List Phdr → ElfImage → Machine → Outcome
  | [], img, m => .loaded { img with entry := eEntry buf } m
  | ph :: phs, img, m =>
    if ph.pType ≠ ptLoad ∨ ph.pMemsz = 0 then loadPhdrs buf phs img m
    else if img.seg.length ≥ elfMaxSeg.toNat then fail "segment table overflow" img m
    else
      match pmmAllocPages m.pmm (segPages ph) with
      | (phys, pmm) =>
        if phys = 0 then fail "out of physical pages" img { m with pmm := pmm }
        else
          match mapPages m.pg (vaStart ph) phys pagingUsrFlags 0 (segPages ph).toNat with
          | (false, pg) =>
            fail "paging_map failed" img { pmm := (pmmFreePages pmm phys (segPages ph)).2, pg := pg }
          | (true, pg) =>
            match fillSegment buf ph phys pg with
            | none => .fault
            | some pg =>
              loadPhdrs buf phs
                { img with
                  brk := nextBrk img.brk ph
                  seg := img.seg ++ [⟨vaStart ph, segPages ph, phys⟩] }
                { pmm := pmm, pg := pg }

def bytes (buf : Option Mem) : Mem := buf.getD fun _ => 0

def elfLoad (buf : Option Mem) (size : U32) (img : Option ElfImage) (m : Machine) : Outcome :=
  match img with
  | none => .failed "null image" none m
  | some _ =>
    let img : ElfImage := { entry := 0, brk := 0, seg := [] }
    match elfValidate buf size with
    | some why => .failed why (some img) m
    | none => loadPhdrs (bytes buf) (phdrs (bytes buf)) img m

end Ezos.Elf
