import Mathlib.Data.List.Perm.Basic
import Ezos.Mem.KmallocFree

/-!
# The kernel heap over whole runs

A configuration pairs the heap with the live pointers and the sizes they were requested
with. Operations name a live pointer by its position, so that every sequence of operations
is one in which `kfree` gets live pointers only and callers write inside their own blocks.
-/

namespace Ezos.Kmalloc

open Lib.Memory

set_option autoImplicit false

inductive Op where
  | kmalloc (size : U32)
  | kfree (i : Nat)
  | write (i off : Nat) (v : Byte)

structure Conf where
  heap : State
  live : List (U32 × U32)

def initConf (pool : Pool) (m : Mem) : Conf := { heap := kmallocInit pool m, live := [] }

def step (pool : Pool) (c : Conf) : Op → Option Conf
  | .kmalloc size =>
    match kmalloc c.heap size with
    | none => none
    | some (p, s) => some { heap := s, live := if p = 0 then c.live else (p, size) :: c.live }
  | .kfree i =>
    match c.live[i]? with
    | none => some c
    | some (p, _) =>
      match kfree pool c.heap p with
      | .ok s => some { heap := s, live := c.live.eraseIdx i }
      | _ => none
  | .write i off v =>
    match c.live[i]? with
    | none => some c
    | some (p, n) =>
      if off < n.toNat then
        some { c with heap := { c.heap with mem := fill c.heap.mem (p.toNat + off) 1 v } }
      else some c

def run (pool : Pool) (c : Conf) : List Op → Option Conf
  | [] => some c
  | o :: os => (step pool c o).bind fun c' => run pool c' os

def userRegions (c : Conf) : List (Nat × Nat) := c.live.map fun x => (x.1.toNat, x.2.toNat)

def blocksAt : Nat → List Blk → List (Nat × Blk)
  | _, [] => []
  | a, b :: bs => (a, b) :: blocksAt (a + b.size) bs

/-- `[p, p + n)` and `[q, q + k)` have no byte in common. -/
def Apart (p n q k : Nat) : Prop := p + n ≤ q ∨ q + k ≤ p

def AvoidsMeta (region : Nat × Nat) (y : Nat × Blk) : Prop :=
  Apart region.1 region.2 y.1 16 ∧
    ∀ r, y.2.req = some r → Apart region.1 region.2 (y.1 + 16 + round4 r) 4

structure HeapSpec (pool : Pool) (c : Conf) (bs : List Blk) : Prop where
  tiles : Tiles c.heap.mem pool.addr.toNat bs
  size : total bs = kmPoolSize.toNat
  freeList : Seg c.heap.mem c.heap.head.toNat (freeAddrs pool.addr.toNat bs) 0
  ascending : (freeAddrs pool.addr.toNat bs).Pairwise (· < ·)
  coalesced : Coalesced bs
  used : c.heap.used.toNat = usedBytes bs
  live : (userRegions c).Perm (allocs pool.addr.toNat bs)
  aligned : ∀ x ∈ userRegions c, x.1 % 16 = 0
  disjoint : (userRegions c).Pairwise fun x y => Apart x.1 x.2 y.1 y.2
  inside : ∀ x ∈ userRegions c,
    pool.addr.toNat ≤ x.1 ∧ x.1 + x.2 ≤ pool.addr.toNat + kmPoolSize.toNat
  avoidsMeta : ∀ x ∈ userRegions c, ∀ y ∈ blocksAt pool.addr.toNat bs, AvoidsMeta x y
  audit : kmallocAudit pool c.heap = some 0

variable {m m' : Mem} {a : Nat} {bs xs ys : List Blk} {pool : Pool} {s : State} {c : Conf}

theorem blocksAt_append : blocksAt a (xs ++ ys) = blocksAt a xs ++ blocksAt (a + total xs) ys := by
  induction xs generalizing a with
  | nil => simp [blocksAt]
  | cons b xs ih => simp [blocksAt, ih, Nat.add_assoc]

theorem blocksAt_bounds (h : Tiles m a bs) {y : Nat × Blk} (hy : y ∈ blocksAt a bs) :
    a ≤ y.1 ∧ y.1 + y.2.size ≤ a + total bs ∧ y.2.Ok := by
  induction bs generalizing a with
  | nil => exact nomatch hy
  | cons b bs ih =>
    obtain ⟨_, hok, hbs⟩ := h
    rw [total_cons]
    rcases List.mem_cons.mp hy with rfl | hy
    · exact ⟨Nat.le_refl _, by dsimp only; omega, hok⟩
    · have := ih hbs hy
      exact ⟨by omega, by omega, this.2.2⟩

theorem total_dvd (h : Tiles m a bs) : total bs % 16 = 0 := by
  induction bs generalizing a with
  | nil => rfl
  | cons b bs ih =>
    have h1 := h.2.1.dvd
    have h2 := ih h.2.2
    rw [total_cons]
    omega

theorem allocs_room (h : Tiles m a bs) {p r : Nat} (hp : (p, r) ∈ allocs a bs) :
    ∃ pre n post, bs = pre ++ ⟨n, some r⟩ :: post ∧ p = a + total pre + 16 ∧
      Tiles m a pre ∧ BlkAt m (a + total pre) ⟨n, some r⟩ ∧ Blk.Ok ⟨n, some r⟩ ∧
      Tiles m (a + total pre + n) post ∧ r ≤ round4 r ∧ 20 + round4 r ≤ n := by
  obtain ⟨pre, n, post, rfl, rfl⟩ := allocs_split hp
  obtain ⟨hpre, hat, hok, hpost⟩ := tiles_append.mp h
  have hroom : 16 + round4 r + 4 ≤ n := (hok.room r rfl).2
  refine ⟨pre, n, post, rfl, rfl, hpre, hat, hok, hpost, ?_, by omega⟩
  unfold round4
  omega

theorem allocs_bounds (h : Tiles m a bs) {p r : Nat} (hp : (p, r) ∈ allocs a bs) :
    a + 16 ≤ p ∧ p + r + 4 ≤ a + total bs := by
  obtain ⟨pre, n, post, rfl, rfl, _, _, _, _, hr, hn⟩ := allocs_room h hp
  simp only [total_append, total_cons]
  omega

theorem allocs_apart (h : Tiles m a bs) : (allocs a bs).Pairwise fun x y => x.1 + x.2 ≤ y.1 := by
  induction bs generalizing a with
  | nil => exact .nil
  | cons b bs ih =>
    obtain ⟨_, hok, hbs⟩ := h
    obtain ⟨n, req⟩ := b
    cases req with
    | none => exact ih hbs
    | some r =>
      refine List.pairwise_cons.mpr ⟨fun y hy => ?_, ih hbs⟩
      have h1 := allocs_bounds hbs hy
      have h2 : 16 + round4 r + 4 ≤ n := (hok.room r rfl).2
      have h3 : a + n + 16 ≤ y.1 := h1.1
      show a + 16 + r ≤ y.1
      unfold round4 at h2
      omega

theorem allocs_avoidsMeta (h : Tiles m a bs) {x : Nat × Nat} (hx : x ∈ allocs a bs)
    {y : Nat × Blk} (hy : y ∈ blocksAt a bs) : AvoidsMeta x y := by
  obtain ⟨p, r⟩ := x
  obtain ⟨pre, n, post, rfl, rfl, hpre, _, hok, hpost, hr, hn⟩ := allocs_room h hx
  have hmeta : ∀ q, y.2.req = some q → 16 + round4 q + 4 ≤ y.2.size := fun q hq =>
    ((blocksAt_bounds h hy).2.2.room q hq).2
  have hge := (blocksAt_bounds h hy).2.2.ge
  rw [blocksAt_append] at hy
  rcases List.mem_append.mp hy with hy | hy
  · have hb := blocksAt_bounds hpre hy
    refine ⟨Or.inr (by dsimp only; omega), fun q hq => Or.inr ?_⟩
    have := hmeta q hq
    dsimp only
    omega
  · rcases List.mem_cons.mp hy with rfl | hy
    · refine ⟨Or.inr (Nat.le_refl _), fun q hq => Or.inl ?_⟩
      obtain rfl := Option.some.inj hq
      dsimp only
      omega
    · have hb := blocksAt_bounds hpost hy
      refine ⟨Or.inl (by dsimp only; omega), fun q hq => Or.inl ?_⟩
      dsimp only
      omega

theorem Heap.write (h : Heap pool s bs) {p r : Nat} (hp : (p, r) ∈ allocs pool.addr.toNat bs)
    (hc : ChangesOnly (fun x => p ≤ x ∧ x < p + round4 r) s.mem m') :
    Heap pool { s with mem := m' } bs := by
  obtain ⟨pre, n, post, rfl, rfl, hpre, hat, hok, hpost, hr, hn⟩ := allocs_room h.tiles hp
  have hseg := h.seg
  refine ⟨⟨tiles_append.mpr ⟨?_, ?_, hok, ?_⟩, h.size, h.seg.frame hc ?_⟩, h.coalesced, h.used⟩
  · exact hpre.frame hc fun x hx => Or.inr (Or.inl (by omega))
  · refine hat.congr fun x hx => hc x ?_
    rcases hx with hx | ⟨q, hq, hx⟩
    · omega
    · obtain rfl := Option.some.inj hq
      omega
  · exact hpost.frame hc fun x hx => Or.inl (by omega)
  · intro y hy x h1 h2 hx
    rw [freeAddrs_append] at hy
    rcases List.mem_append.mp hy with hy | hy
    · have := hpre.free_bounds hy
      omega
    · have hy' : y ∈ freeAddrs (pool.addr.toNat + total pre + n) post := hy
      have := hpost.free_bounds hy'
      omega

def Good (pool : Pool) (c : Conf) : Prop :=
  ∃ bs, Heap pool c.heap bs ∧ (userRegions c).Perm (allocs pool.addr.toNat bs)

theorem good_init (pool : Pool) (m : Mem) : Good pool (initConf pool m) := by
  have haddr : (pool.addr + 4).toNat = pool.addr.toNat + 4 := by
    have := pool.fits
    exact toNat_add_lt (by simp; omega)
  refine ⟨[⟨393216, none⟩], ⟨⟨⟨?_, ⟨by decide, by decide, fun r hr => nomatch hr⟩, trivial⟩, rfl,
    rfl, ?_⟩, List.isChain_singleton _, rfl⟩, .refl _⟩
  · show (read32 (wr (wr m _ _) _ _) _).toNat = 393216
    unfold wr
    rw [haddr, read32_write32_of_disjoint _ _ (by omega), read32_write32_self]
    rfl
  · show nextOf (wr (wr m _ _) _ _) _ = 0
    unfold nextOf wr
    rw [haddr, read32_write32_self]
    rfl

theorem userRegions_perm {i : Nat} {x : U32 × U32} (hi : c.live[i]? = some x) :
    (userRegions c).Perm ((x.1.toNat, x.2.toNat) ::
      userRegions { c with live := c.live.eraseIdx i }) := by
  obtain ⟨hlt, hx⟩ := List.getElem?_eq_some_iff.mp hi
  have hperm := (List.getElem_cons_eraseIdx_perm hlt).symm.map
    (fun y : U32 × U32 => (y.1.toNat, y.2.toNat))
  rw [hx] at hperm
  exact hperm

theorem step_good (h : Good pool c) (o : Op) : ∃ c', step pool c o = some c' ∧ Good pool c' := by
  obtain ⟨bs, hheap, hlive⟩ := h
  cases o with
  | kmalloc size =>
    rcases kmalloc_spec hheap size with heq | ⟨p, s', bs', heq, hp, hheap', hperm⟩
    · refine ⟨c, ?_, bs, hheap, hlive⟩
      simp only [step, heq, if_true]
    · refine ⟨{ heap := s', live := (p, size) :: c.live }, ?_, bs', hheap', ?_⟩
      · simp only [step, heq, if_neg hp]
      · exact (hlive.cons _).trans hperm.symm
  | kfree i =>
    cases hi : c.live[i]? with
    | none => exact ⟨c, by simp only [step, hi], bs, hheap, hlive⟩
    | some x =>
      obtain ⟨p, n⟩ := x
      have hx := userRegions_perm hi
      have hmem : (p.toNat, n.toNat) ∈ allocs pool.addr.toNat bs :=
        hlive.subset (hx.symm.subset List.mem_cons_self)
      obtain ⟨pre, k, post, rfl, hp⟩ := allocs_split hmem
      obtain ⟨s', bs', heq, hheap', hallocs⟩ := kfree_spec hheap hp
      refine ⟨{ heap := s', live := c.live.eraseIdx i }, ?_, bs', hheap', ?_⟩
      · simp only [step, hi, heq]
      · have hsplit : allocs pool.addr.toNat (pre ++ ⟨k, some n.toNat⟩ :: post) =
            allocs pool.addr.toNat pre ++ (p.toNat, n.toNat) ::
              allocs (pool.addr.toNat + total pre + k) post := by
          rw [allocs_append, hp]
          rfl
        have hcancel := (hx.symm.trans hlive).trans (hsplit ▸ List.perm_middle)
        rw [hallocs]
        exact hcancel.cons_inv
  | write i off v =>
    cases hi : c.live[i]? with
    | none => exact ⟨c, by simp only [step, hi], bs, hheap, hlive⟩
    | some x =>
      obtain ⟨p, n⟩ := x
      by_cases hoff : off < n.toNat
      · refine ⟨{ c with heap := { c.heap with mem := fill c.heap.mem (p.toNat + off) 1 v } },
          ?_, bs, ?_, hlive⟩
        · simp only [step, hi, if_pos hoff]
        · have hmem : (p.toNat, n.toNat) ∈ allocs pool.addr.toNat bs :=
            hlive.subset ((userRegions_perm hi).symm.subset List.mem_cons_self)
          refine hheap.write hmem ((changesOnly_fill _ _ _ _).mono fun x hx => ?_)
          have := le_round4 n.toNat
          omega
      · exact ⟨c, by simp only [step, hi, if_neg hoff], bs, hheap, hlive⟩

theorem run_good (h : Good pool c) (ops : List Op) : ∃ c', run pool c ops = some c' ∧ Good pool c' := by
  induction ops generalizing c with
  | nil => exact ⟨c, rfl, h⟩
  | cons o os ih =>
    obtain ⟨c', hstep, hc'⟩ := step_good h o
    obtain ⟨c'', hrun, hc''⟩ := ih hc'
    exact ⟨c'', by rw [run, hstep]; exact hrun, hc''⟩

theorem Good.spec (h : Good pool c) : ∃ bs, HeapSpec pool c bs := by
  obtain ⟨bs, hheap, hlive⟩ := h
  have ht := hheap.tiles
  refine ⟨bs, ht, hheap.size, hheap.seg, freeAddrs_sorted ht, hheap.coalesced, hheap.used, hlive,
    fun x hx => ?_, ?_, fun x hx => ?_, fun x hx y hy => ?_, hheap.audit⟩
  · obtain ⟨pre, n, post, rfl, hp, hpre, _⟩ := allocs_room ht (hlive.subset hx)
    have h1 := total_dvd hpre
    have h2 := pool.aligned
    omega
  · refine (hlive.symm.pairwise_iff fun hxy => hxy.symm).mp ?_
    exact (allocs_apart ht).imp fun hxy => Or.inl hxy
  · have h1 := allocs_bounds ht (hlive.subset hx)
    have h2 := hheap.size
    have h3 : kmPoolSize.toNat = 393216 := rfl
    omega
  · exact allocs_avoidsMeta ht (hlive.subset hx) hy

/-- Every sequence of calls and owner writes runs through without a panic, and leaves a heap
whose blocks tile the pool with an exact free list, exact counter, separated user regions and a
clean audit. -/
theorem run_heap_spec (pool : Pool) (m : Mem) (ops : List Op) :
    ∃ c, run pool (initConf pool m) ops = some c ∧ ∃ bs, HeapSpec pool c bs := by
  obtain ⟨c, hrun, hc⟩ := run_good (good_init pool m) ops
  exact ⟨c, hrun, hc.spec⟩

end Ezos.Kmalloc
