import Ezos.Types
import Ezos.Lib.Memory
import Mathlib.Algebra.GroupWithZero.Nat
import Mathlib.Data.List.Chain

/-!
# Kernel heap (`kernel/kmalloc.c`)

Blocks live in byte-addressed memory: the size word with the allocation flag at offset 0,
the free-list link or the requested size at offset 4, the header magic at offset 8, the
tail canary behind the user bytes. Pointers are 32-bit words, 0 is null. The two walks over
the free list and the walk over the pool take a fuel argument; `none` would mean that the
loop of the source does not end.
-/

namespace Ezos.Kmalloc

open Lib.Memory

set_option autoImplicit false

def kmPoolSize : U32 := 384 * 1024
def kmAlign : U32 := 16
def kmHdr : U32 := 16
def kmTail : U32 := 4
def kmMinSplit : U32 := 32
def kmMagic : U32 := 0x4B4D4150
def kmTailMagic : U32 := 0x5A5A5A5A
def kmAllocated : U32 := 1

/-- Where the linker put `km_pool` (in `.bss.hi`): 16-aligned, not at 0, and with room for a
header behind it below 4 GB. -/
structure Pool where
  addr : U32
  aligned : addr.toNat % 16 = 0
  pos : 0 < addr.toNat
  fits : addr.toNat + 393216 + 16 < 2 ^ 32

instance : Inhabited Pool :=
  ⟨{ addr := 0x1E00000, aligned := by decide, pos := by decide, fits := by decide }⟩

structure State where
  mem : Mem
  head : U32
  used : U32

def rd (m : Mem) (a : U32) : U32 := read32 m a.toNat
def wr (m : Mem) (a v : U32) : Mem := write32 m a.toNat v

def blkSize (m : Mem) (b : U32) : U32 := rd m b &&& ~~~kmAllocated
def blkIsFree (m : Mem) (b : U32) : Bool := rd m b &&& kmAllocated = 0
def blkNext (m : Mem) (b : U32) : U32 := rd m (b + 4)
def roundUp (v a : U32) : U32 := (v + a - 1) &&& ~~~(a - 1)
def kmMagicOf (b : U32) : U32 := b + 8
def kmReqOf (b : U32) : U32 := b + 4
def kmTailOf (user req : U32) : U32 := user + roundUp req 4

def kmArm (m : Mem) (b req total : U32) : Mem :=
  let m := wr m (kmReqOf b) req
  let m := wr m (kmMagicOf b) kmMagic
  let m := wr m (kmTailOf (b + kmHdr) req) kmTailMagic
  wr m b (total ||| kmAllocated)

def kmallocInit (pool : Pool) (m : Mem) : State :=
  { mem := wr (wr m pool.addr kmPoolSize) (pool.addr + 4) 0, head := pool.addr, used := 0 }

/-- `if (prev) prev->next = v; else km_head = v;` -/
def link (s : State) (prev v : U32) : State :=
  if prev = 0 then { s with head := v } else { s with mem := wr s.mem (prev + 4) v }

def kmFuel : Nat := 24577

def findFit (m : Mem) (need : U32) : Nat → U32 → U32 → Option (Option (U32 × U32))
  | 0, _, _ => none
  | fuel + 1, prev, b =>
    if b = 0 then some none
    else if blkIsFree m b = false then findFit m need fuel b (blkNext m b)
    else if blkSize m b < need then findFit m need fuel b (blkNext m b)
    else some (some (prev, b))

def takeBlock (s : State) (prev b size need : U32) : U32 × State :=
  let bs := blkSize s.mem b
  if bs - need ≥ kmMinSplit then
    let rest := b + need
    let m := wr s.mem rest (bs - need)
    let m := wr m (rest + 4) (blkNext m b)
    let m := kmArm m b size need
    let s := link { s with mem := m } prev rest
    (b + kmHdr, { s with used := s.used + need })
  else
    let nx := blkNext s.mem b
    let s := link { s with mem := kmArm s.mem b size bs } prev nx
    (b + kmHdr, { s with used := s.used + bs })

def kmalloc (s : State) (size : U32) : Option (U32 × State) :=
  if size = 0 then some (0, s)
  else if size > kmPoolSize then some (0, s)
  else
    let need := roundUp (size + kmHdr + kmTail) kmAlign
    match findFit s.mem need kmFuel 0 s.head with
    | none => none
    | some none => some (0, s)
    | some (some (prev, b)) => some (takeBlock s prev b size need)

inductive Freed where
  | ok (s : State)
  | panic (context : String)
  | diverges

/-- Address-ordered insertion point: `(prev, cur)`. -/
def findSlot (m : Mem) (b : U32) : Nat → U32 → U32 → Option (U32 × U32)
  | 0, _, _ => none
  | fuel + 1, prev, cur =>
    if cur ≠ 0 ∧ cur < b then findSlot m b fuel cur (blkNext m cur) else some (prev, cur)

def kfreeCheck (pool : Pool) (m : Mem) (b : U32) : Option String :=
  let bs := blkSize m b
  let req := rd m (kmReqOf b)
  let tail := kmTailOf (b + kmHdr) req
  if b < pool.addr ∨ b ≥ pool.addr + kmPoolSize then some "kfree: pointer outside heap"
  else if blkIsFree m b then some "kfree: double free"
  else if rd m (kmMagicOf b) ≠ kmMagic then some "kfree: heap corruption (header smashed)"
  else if bs < kmHdr ∨ bs > kmPoolSize ∨ b + bs > pool.addr + kmPoolSize then
    some "kfree: corrupt block size"
  else if req = 0 ∨ req > kmPoolSize then some "kfree: corrupt request size"
  else if tail + kmTail > b + bs then some "kfree: canary outside block"
  else if rd m tail ≠ kmTailMagic then some "kfree: heap overflow (tail canary smashed)"
  else none

/-- `a->size = blk_size(a) + blk_size(c); a->next = c->next;` for the block `c` behind `a`. -/
def mergeBlocks (m : Mem) (a c : U32) : Mem :=
  let m := wr m a (blkSize m a + blkSize m c)
  wr m (a + 4) (blkNext m c)

def insertBlock (s : State) (prev cur b : U32) : State :=
  let bs := blkSize s.mem b
  let m := wr s.mem b bs
  let s := link { s with mem := wr m (b + 4) cur } prev b
  let fwd := prev ≠ 0 ∧ prev + blkSize s.mem prev = b
  let m := if fwd then mergeBlocks s.mem prev b else s.mem
  let a := if fwd then prev else b
  let m := if blkNext m a ≠ 0 ∧ a + blkSize m a = blkNext m a then
    mergeBlocks m a (blkNext m a) else m
  { s with mem := m }

def kfree (pool : Pool) (s : State) (ptr : U32) : Freed :=
  if ptr = 0 then .ok s
  else
    let b := ptr - kmHdr
    match kfreeCheck pool s.mem b with
    | some context => .panic context
    | none =>
      match findSlot s.mem b kmFuel 0 s.head with
      | none => .diverges
      | some (prev, cur) => .ok (insertBlock { s with used := s.used - blkSize s.mem b } prev cur b)

def blockDamaged (m : Mem) (p : U32) : Bool :=
  let req := rd m (kmReqOf p)
  let tail := kmTailOf (p + kmHdr) req
  !blkIsFree m p &&
    (rd m (kmMagicOf p) ≠ kmMagic || (req = 0 || req > kmPoolSize) ||
      tail + kmTail > p + blkSize m p || rd m tail ≠ kmTailMagic)

/-- The walk of `kmalloc_audit`, with the count of damaged blocks so far. -/
def auditFrom (pool : Pool) (m : Mem) : Nat → U32 → U32 → Option U32
  | 0, _, _ => none
  | fuel + 1, p, bad =>
    if p + kmHdr ≤ pool.addr + kmPoolSize then
      let bs := blkSize m p
      if bs < kmHdr ∨ bs > kmPoolSize ∨ p + bs > pool.addr + kmPoolSize then some (bad + 1)
      else auditFrom pool m fuel (p + bs) (if blockDamaged m p then bad + 1 else bad)
    else some bad

def kmallocAudit (pool : Pool) (s : State) : Option U32 := auditFrom pool s.mem kmFuel pool.addr 0

end Ezos.Kmalloc

/-!
# The heap as a list of blocks

The abstract heap is the list of blocks in address order. `Tiles` says that memory holds
their headers, `Seg` follows the link words; the free list of a heap is `Seg` along
`freeAddrs`. Both survive any change of memory that avoids the words they read.
-/

namespace Ezos.Kmalloc

open Lib.Memory

structure Blk where
  size : Nat
  req : Option Nat

def round4 (n : Nat) : Nat := (n + 3) / 4 * 4

theorem le_round4 (n : Nat) : n ≤ round4 n := by
  unfold round4
  omega

structure Blk.Ok (b : Blk) : Prop where
  dvd : b.size % 16 = 0
  ge : 32 ≤ b.size
  room : ∀ r, b.req = some r → 0 < r ∧ 16 + round4 r + 4 ≤ b.size

def total (bs : List Blk) : Nat := (bs.map Blk.size).sum

def usedBytes (bs : List Blk) : Nat := total (bs.filter fun b => b.req.isSome)

def BlkAt (m : Mem) (a : Nat) (b : Blk) : Prop :=
  match b.req with
  | none => (read32 m a).toNat = b.size
  | some r => (read32 m a).toNat = b.size + 1 ∧ (read32 m (a + 4)).toNat = r ∧
      read32 m (a + 8) = kmMagic ∧ read32 m (a + 16 + round4 r) = kmTailMagic

def BlkMeta (a : Nat) (b : Blk) (x : Nat) : Prop :=
  (a ≤ x ∧ x < a + 4) ∨ ∃ r, b.req = some r ∧
    ((a + 4 ≤ x ∧ x < a + 12) ∨ (a + 16 + round4 r ≤ x ∧ x < a + 16 + round4 r + 4))

def Tiles (m : Mem) : Nat → List Blk → Prop
  | _, [] => True
  | a, b :: bs => BlkAt m a b ∧ b.Ok ∧ Tiles m (a + b.size) bs

def Meta : Nat → List Blk → Nat → Prop
  | _, [], _ => False
  | a, b :: bs, x => BlkMeta a b x ∨ Meta (a + b.size) bs x

def freeAddrs : Nat → List Blk → List Nat
  | _, [] => []
  | a, b :: bs => if b.req = none then a :: freeAddrs (a + b.size) bs else freeAddrs (a + b.size) bs

def allocs : Nat → List Blk → List (Nat × Nat)
  | _, [] => []
  | a, b :: bs =>
    match b.req with
    | none => allocs (a + b.size) bs
    | some r => (a + 16, r) :: allocs (a + b.size) bs

def nextOf (m : Mem) (a : Nat) : Nat := (read32 m (a + 4)).toNat

def Seg (m : Mem) : Nat → List Nat → Nat → Prop
  | h, [], t => h = t
  | h, x :: l, t => h = x ∧ Seg m (nextOf m x) l t

variable {m m' : Mem} {a x : Nat} {b : Blk} {bs xs ys : List Blk}

@[simp] theorem total_nil : total [] = 0 := rfl
@[simp] theorem total_cons : total (b :: bs) = b.size + total bs := by simp [total]
@[simp] theorem total_append : total (xs ++ ys) = total xs + total ys := by simp [total]

@[simp] theorem usedBytes_cons_free (n : Nat) : usedBytes (⟨n, none⟩ :: bs) = usedBytes bs := rfl
@[simp] theorem usedBytes_cons_alloc (n r : Nat) :
    usedBytes (⟨n, some r⟩ :: bs) = n + usedBytes bs := by simp [usedBytes]
@[simp] theorem usedBytes_append : usedBytes (xs ++ ys) = usedBytes xs + usedBytes ys := by
  simp [usedBytes]

theorem usedBytes_le (bs : List Blk) : usedBytes bs ≤ total bs := by
  induction bs with
  | nil => exact Nat.le_refl 0
  | cons b bs ih =>
    obtain ⟨n, req⟩ := b
    cases req with
    | none =>
      rw [usedBytes_cons_free, total_cons]
      omega
    | some r =>
      rw [usedBytes_cons_alloc, total_cons]
      exact Nat.add_le_add_left ih n

theorem tiles_append : Tiles m a (xs ++ ys) ↔ Tiles m a xs ∧ Tiles m (a + total xs) ys := by
  induction xs generalizing a with
  | nil => simp [Tiles]
  | cons b xs ih => simp [Tiles, ih, Nat.add_assoc, and_assoc]

theorem freeAddrs_append : freeAddrs a (xs ++ ys) = freeAddrs a xs ++ freeAddrs (a + total xs) ys := by
  induction xs generalizing a with
  | nil => simp [freeAddrs]
  | cons b xs ih =>
    simp only [List.cons_append, freeAddrs, ih, total_cons, Nat.add_assoc]
    split <;> rfl

theorem allocs_append : allocs a (xs ++ ys) = allocs a xs ++ allocs (a + total xs) ys := by
  induction xs generalizing a with
  | nil => simp [allocs]
  | cons b xs ih =>
    simp only [List.cons_append, allocs, ih, total_cons, Nat.add_assoc]
    split <;> rfl

theorem BlkAt.congr (h : BlkAt m a b) (hm : ∀ x, BlkMeta a b x → m' x = m x) : BlkAt m' a b := by
  obtain ⟨n, req⟩ := b
  have hsize : read32 m' a = read32 m a :=
    read32_congr fun x h1 h2 => hm x (Or.inl ⟨h1, h2⟩)
  cases req with
  | none => exact (congrArg _ hsize).trans h
  | some r =>
    obtain ⟨h1, h2, h3, h4⟩ := h
    refine ⟨(congrArg _ hsize).trans h1, ?_, ?_, ?_⟩
    · rw [read32_congr fun x hlo hhi => hm x (Or.inr ⟨r, rfl, Or.inl ⟨by omega, by omega⟩⟩)]
      exact h2
    · rw [read32_congr fun x hlo hhi => hm x (Or.inr ⟨r, rfl, Or.inl ⟨by omega, by omega⟩⟩)]
      exact h3
    · rw [read32_congr fun x hlo hhi => hm x (Or.inr ⟨r, rfl, Or.inr ⟨by omega, by omega⟩⟩)]
      exact h4

theorem Tiles.congr (h : Tiles m a bs) (hm : ∀ x, Meta a bs x → m' x = m x) : Tiles m' a bs := by
  induction bs generalizing a with
  | nil => trivial
  | cons b bs ih =>
    obtain ⟨hb, hok, hbs⟩ := h
    exact ⟨hb.congr fun x hx => hm x (Or.inl hx), hok, ih hbs fun x hx => hm x (Or.inr hx)⟩

theorem BlkMeta.bounds (hok : b.Ok) (h : BlkMeta a b x) : a ≤ x ∧ x < a + b.size := by
  have hge := hok.ge
  rcases h with h | ⟨r, hr, h⟩
  · omega
  · have hroom := (hok.room r hr).2
    omega

theorem Tiles.meta_bounds (h : Tiles m a bs) (hx : Meta a bs x) : a ≤ x ∧ x < a + total bs := by
  induction bs generalizing a with
  | nil => exact False.elim hx
  | cons b bs ih =>
    obtain ⟨_, hok, hbs⟩ := h
    rw [total_cons]
    rcases hx with hx | hx
    · have := hx.bounds hok
      omega
    · have := ih hbs hx
      omega

theorem Tiles.free_bounds (h : Tiles m a bs) {y : Nat} (hy : y ∈ freeAddrs a bs) :
    a ≤ y ∧ 32 ≤ (read32 m y).toNat ∧ y + (read32 m y).toNat ≤ a + total bs ∧
      (read32 m y).toNat % 16 = 0 := by
  induction bs generalizing a with
  | nil => simp [freeAddrs] at hy
  | cons b bs ih =>
    obtain ⟨hb, hok, hbs⟩ := h
    have hge := hok.ge
    have hrest : y ∈ freeAddrs (a + b.size) bs → a ≤ y ∧ 32 ≤ (read32 m y).toNat ∧
        y + (read32 m y).toNat ≤ a + total (b :: bs) ∧ (read32 m y).toNat % 16 = 0 := fun hy' => by
      have := ih hbs hy'
      rw [total_cons]
      exact ⟨by omega, this.2.1, by omega, this.2.2.2⟩
    rw [freeAddrs] at hy
    split at hy
    · rename_i hfree
      rcases List.mem_cons.mp hy with rfl | hy
      · have hsize : (read32 m y).toNat = b.size := by
          unfold BlkAt at hb
          rwa [hfree] at hb
        rw [hsize, total_cons]
        exact ⟨Nat.le_refl _, hge, by omega, hok.dvd⟩
      · exact hrest hy
    · exact hrest hy

theorem Tiles.link_not_meta (h : Tiles m a bs) {y : Nat} (hy : y ∈ freeAddrs a bs)
    (hlo : y + 4 ≤ x) (hhi : x < y + 8) : ¬ Meta a bs x := by
  induction bs generalizing a with
  | nil => exact fun hx => hx
  | cons b bs ih =>
    obtain ⟨hb, hok, hbs⟩ := h
    have hge := hok.ge
    intro hx
    rw [freeAddrs] at hy
    have hrest : y ∈ freeAddrs (a + b.size) bs → False := fun hy' => by
      rcases hx with hx | hx
      · have h1 := hx.bounds hok
        have h2 := hbs.free_bounds hy'
        omega
      · exact ih hbs hy' hx
    split at hy
    · rename_i hfree
      rcases List.mem_cons.mp hy with rfl | hy
      · rcases hx with (hx | ⟨r, hr, _⟩) | hx
        · omega
        · rw [hfree] at hr
          contradiction
        · have h1 := hbs.meta_bounds hx
          omega
      · exact hrest hy
    · exact hrest hy

theorem Tiles.frame {P : Nat → Prop} (h : Tiles m a bs) (hc : ChangesOnly P m m')
    (hP : ∀ x, P x → x < a ∨ a + total bs ≤ x ∨ ∃ y ∈ freeAddrs a bs, y + 4 ≤ x ∧ x < y + 8) :
    Tiles m' a bs :=
  h.congr fun x hx => hc x fun hp => by
    have hb := h.meta_bounds hx
    rcases hP x hp with h1 | h1 | ⟨y, hy, hlo, hhi⟩
    · omega
    · omega
    · exact h.link_not_meta hy hlo hhi hx

theorem freeAddrs_spaced (h : Tiles m a bs) : (freeAddrs a bs).Pairwise fun y z => y + 32 ≤ z := by
  induction bs generalizing a with
  | nil => exact .nil
  | cons b bs ih =>
    obtain ⟨_, hok, hbs⟩ := h
    rw [freeAddrs]
    split
    · refine List.pairwise_cons.mpr ⟨fun z hz => ?_, ih hbs⟩
      have h1 := hbs.free_bounds hz
      have h2 := hok.ge
      omega
    · exact ih hbs

theorem freeAddrs_sorted (h : Tiles m a bs) : (freeAddrs a bs).Pairwise (· < ·) :=
  (freeAddrs_spaced h).imp fun hyz => by omega

theorem seg_append {h t : Nat} {l l' : List Nat} :
    Seg m h (l ++ l') t ↔ ∃ mid, Seg m h l mid ∧ Seg m mid l' t := by
  induction l generalizing h with
  | nil => simp [Seg]
  | cons x l ih =>
    simp only [List.cons_append, Seg, ih]
    constructor
    · rintro ⟨hx, mid, h1, h2⟩
      exact ⟨mid, ⟨hx, h1⟩, h2⟩
    · rintro ⟨mid, ⟨hx, h1⟩, h2⟩
      exact ⟨hx, mid, h1, h2⟩

theorem Seg.congr {h t : Nat} {l : List Nat} (hs : Seg m h l t)
    (hm : ∀ y ∈ l, nextOf m' y = nextOf m y) : Seg m' h l t := by
  induction l generalizing h with
  | nil => exact hs
  | cons x l ih =>
    obtain ⟨hx, hrest⟩ := hs
    refine ⟨hx, ?_⟩
    rw [hm x List.mem_cons_self]
    exact ih hrest fun y hy => hm y (List.mem_cons_of_mem x hy)

theorem nextOf_frame {P : Nat → Prop} (hc : ChangesOnly P m m') {y : Nat}
    (hP : ∀ x, y + 4 ≤ x → x < y + 8 → ¬ P x) : nextOf m' y = nextOf m y := by
  rw [nextOf, hc.read32 hP, nextOf]

theorem Seg.frame {P : Nat → Prop} {h t : Nat} {l : List Nat} (hs : Seg m h l t)
    (hc : ChangesOnly P m m') (hP : ∀ y ∈ l, ∀ x, y + 4 ≤ x → x < y + 8 → ¬ P x) :
    Seg m' h l t := hs.congr fun y hy => nextOf_frame hc (hP y hy)

theorem freeAddrs_split {l l' : List Nat} {y : Nat} (h : freeAddrs a bs = l ++ y :: l') :
    ∃ pre n post, bs = pre ++ ⟨n, none⟩ :: post ∧ freeAddrs a pre = l ∧ y = a + total pre ∧
      freeAddrs (y + n) post = l' := by
  induction bs generalizing a l with
  | nil => simp [freeAddrs] at h
  | cons b bs ih =>
    obtain ⟨n, req⟩ := b
    cases req with
    | none =>
      simp only [freeAddrs, if_true] at h
      cases l with
      | nil =>
        obtain ⟨rfl, hl⟩ := List.cons.inj h
        exact ⟨[], n, bs, rfl, rfl, by simp, hl⟩
      | cons z l =>
        obtain ⟨rfl, hl⟩ := List.cons.inj h
        obtain ⟨pre, k, post, rfl, h1, h2, h3⟩ := ih hl
        refine ⟨⟨n, none⟩ :: pre, k, post, rfl, by simp [freeAddrs, h1], ?_, h3⟩
        simp only [total_cons]
        omega
    | some r =>
      simp only [freeAddrs, reduceCtorEq, if_false] at h
      obtain ⟨pre, k, post, rfl, h1, h2, h3⟩ := ih h
      refine ⟨⟨n, some r⟩ :: pre, k, post, rfl, by simp [freeAddrs, h1], ?_, h3⟩
      simp only [total_cons]
      omega

theorem allocs_split {p r : Nat} (h : (p, r) ∈ allocs a bs) :
    ∃ pre n post, bs = pre ++ ⟨n, some r⟩ :: post ∧ p = a + total pre + 16 := by
  induction bs generalizing a with
  | nil => simp [allocs] at h
  | cons b bs ih =>
    obtain ⟨n, req⟩ := b
    cases req with
    | none =>
      obtain ⟨pre, k, post, rfl, hp⟩ := ih h
      refine ⟨⟨n, none⟩ :: pre, k, post, rfl, ?_⟩
      have hp' : p = a + n + total pre + 16 := hp
      rw [total_cons]
      omega
    | some q =>
      rcases List.mem_cons.mp h with he | h
      · obtain ⟨rfl, rfl⟩ := Prod.mk.inj he
        exact ⟨[], n, bs, rfl, by simp⟩
      · obtain ⟨pre, k, post, rfl, hp⟩ := ih h
        refine ⟨⟨n, some q⟩ :: pre, k, post, rfl, ?_⟩
        have hp' : p = a + n + total pre + 16 := hp
        rw [total_cons]
        omega

end Ezos.Kmalloc
