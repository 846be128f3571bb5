import Ezos.Mem.Kmalloc

/-!
# What `kmalloc`, `kfree` and the audit do to the block list

Both calls replace a few neighbouring blocks and redirect one link; `Shape.splice` is the
one argument behind a split, a whole hand-out, an insertion and a merge.
-/

namespace Ezos.Kmalloc

open Lib.Memory

set_option autoImplicit false

variable {m m' : Mem} {a x : Nat} {bs xs ys : List Blk} {pool : Pool} {s s' : State}

theorem toNat_add_lt {p q : U32} (h : p.toNat + q.toNat < 2 ^ 32) :
    (p + q).toNat = p.toNat + q.toNat := by
  rw [BitVec.toNat_add, Nat.mod_eq_of_lt h]

theorem toNat_sub_le {p q : U32} (h : q.toNat ≤ p.toNat) : (p - q).toNat = p.toNat - q.toNat :=
  BitVec.toNat_sub_of_le h

theorem blkSize_toNat (m : Mem) (p : U32) : (blkSize m p).toNat = (rd m p).toNat / 2 * 2 :=
  toNat_and_not_low_mask (k := 1) (by decide) (rd m p)

theorem blkIsFree_iff (m : Mem) (p : U32) : blkIsFree m p = true ↔ (rd m p).toNat % 2 = 0 := by
  have hbit : (rd m p &&& kmAllocated).toNat = (rd m p).toNat % 2 := by
    have hmask : kmAllocated.toNat = 2 ^ 1 - 1 := rfl
    rw [BitVec.toNat_and, hmask, Nat.and_two_pow_sub_one_eq_mod]
  rw [blkIsFree, decide_eq_true_iff, eq_zero_iff, hbit]

theorem roundUp_four {v : U32} (h : v.toNat + 3 < 2 ^ 32) : (roundUp v 4).toNat = round4 v.toNat := by
  have hsub : (v + 4 - 1).toNat = v.toNat + 3 := by bv_omega
  have hmask := toNat_and_not_low_mask (k := 2) (by decide) (v + 4 - 1)
  rw [hsub] at hmask
  exact hmask

theorem roundUp_align {v : U32} (h : v.toNat + 15 < 2 ^ 32) :
    (roundUp v kmAlign).toNat = (v.toNat + 15) / 16 * 16 := by
  have hsub : (v + 16 - 1).toNat = v.toNat + 15 := by bv_omega
  have hmask := toNat_and_not_low_mask (k := 4) (by decide) (v + 16 - 1)
  rw [hsub] at hmask
  exact hmask

theorem BlkAt.size_eq {p : U32} {b : Blk} (h : BlkAt m p.toNat b) (hok : b.Ok) :
    (blkSize m p).toNat = b.size := by
  have hdvd := hok.dvd
  rw [blkSize_toNat]
  obtain ⟨n, req⟩ := b
  cases req with
  | none =>
    have hsize : (rd m p).toNat = n := h
    have hdvd' : n % 16 = 0 := hdvd
    show _ = n
    omega
  | some r =>
    have hsize : (rd m p).toNat = n + 1 := h.1
    have hdvd' : n % 16 = 0 := hdvd
    show _ = n
    omega

theorem BlkAt.isFree_iff {p : U32} {b : Blk} (h : BlkAt m p.toNat b) (hok : b.Ok) :
    blkIsFree m p = true ↔ b.req = none := by
  have hdvd := hok.dvd
  rw [blkIsFree_iff]
  obtain ⟨n, req⟩ := b
  cases req with
  | none =>
    have hsize : (rd m p).toNat = n := h
    have hdvd' : n % 16 = 0 := hdvd
    exact ⟨fun _ => rfl, fun _ => by omega⟩
  | some r =>
    have hsize : (rd m p).toNat = n + 1 := h.1
    have hdvd' : n % 16 = 0 := hdvd
    exact ⟨fun h => by omega, fun h => nomatch h⟩

theorem blkNext_toNat {p : U32} (h : p.toNat + 4 < 2 ^ 32) : (blkNext m p).toNat = nextOf m p.toNat := by
  rw [blkNext, rd, toNat_add_lt h]
  rfl

theorem slots_toNat {p req : U32} (hfit : p.toNat + 16 + round4 req.toNat < 2 ^ 32) :
    (kmReqOf p).toNat = p.toNat + 4 ∧ (kmMagicOf p).toNat = p.toNat + 8 ∧
      (kmTailOf (p + kmHdr) req).toNat = p.toNat + 16 + round4 req.toNat := by
  have hup : (roundUp req 4).toNat = round4 req.toNat := by
    apply roundUp_four
    unfold round4 at hfit
    omega
  have huser : (p + kmHdr).toNat = p.toNat + 16 := toNat_add_lt (by simp [kmHdr]; omega)
  refine ⟨toNat_add_lt (by simp; omega), toNat_add_lt (by simp; omega), ?_⟩
  rw [kmTailOf, toNat_add_lt (by omega), huser, hup]

theorem kmArm_spec (m : Mem) {p req tot : U32} {k : Blk} (hreq : k.req = some req.toNat)
    (htot : k.size = tot.toNat) (hok : k.Ok) (hfit : p.toNat + k.size < 2 ^ 32) :
    BlkAt (kmArm m p req tot) p.toNat k ∧
      ChangesOnly (fun x => p.toNat ≤ x ∧ x < p.toNat + k.size) m (kmArm m p req tot) := by
  obtain ⟨hr0, hroom⟩ := hok.room _ hreq
  have hge := hok.ge
  have hdvd := hok.dvd
  have hround := le_round4 req.toNat
  obtain ⟨hreqOf, hmagicOf, htailOf⟩ := @slots_toNat p req (by omega)
  have hflag : (tot ||| kmAllocated).toNat = k.size + 1 := by
    have hone : kmAllocated.toNat = 1 := rfl
    have heven : tot.toNat = 2 ^ 1 * (tot.toNat / 2) := by omega
    rw [BitVec.toNat_or, hone, heven, ← Nat.two_pow_add_eq_or_of_lt (by decide), ← heven, htot]
  unfold kmArm wr
  simp only [hreqOf, hmagicOf, htailOf]
  refine ⟨?_, ?_⟩
  · unfold BlkAt
    rw [hreq]
    refine ⟨?_, ?_, ?_, ?_⟩
    · rw [read32_write32_self, hflag]
    · rw [read32_write32_of_disjoint _ _ (by omega), read32_write32_of_disjoint _ _ (by omega),
        read32_write32_of_disjoint _ _ (by omega), read32_write32_self]
    · rw [read32_write32_of_disjoint _ _ (by omega), read32_write32_of_disjoint _ _ (by omega),
        read32_write32_self]
    · rw [read32_write32_of_disjoint _ _ (by omega), read32_write32_self]
  · refine ChangesOnly.trans ?_ ((changesOnly_write32 _ _ _).mono fun x hx => by omega)
    refine ChangesOnly.trans ?_ ((changesOnly_write32 _ _ _).mono fun x hx => by omega)
    refine ChangesOnly.trans ?_ ((changesOnly_write32 _ _ _).mono fun x hx => by omega)
    exact (changesOnly_write32 _ _ _).mono fun x hx => by omega

def lastOr (l : List Nat) : Nat := l.getLast?.getD 0

theorem lastOr_mem {l : List Nat} (h : lastOr l ≠ 0) : lastOr l ∈ l := by
  rcases List.eq_nil_or_concat' l with rfl | ⟨l, y, rfl⟩
  · exact absurd rfl h
  · simp [lastOr]

structure Shape (pool : Pool) (s : State) (bs : List Blk) : Prop where
  tiles : Tiles s.mem pool.addr.toNat bs
  size : total bs = 393216
  seg : Seg s.mem s.head.toNat (freeAddrs pool.addr.toNat bs) 0

theorem Shape.with_used (h : Shape pool s bs) (u : U32) : Shape pool { s with used := u } bs :=
  ⟨h.tiles, h.size, h.seg⟩

theorem link_spec {prev v : U32} {l : List Nat} {mid : Nat} (hs : Seg s.mem s.head.toNat l mid)
    (hprev : prev.toNat = lastOr l) (hpos : ∀ y ∈ l, 0 < y)
    (hsp : l.Pairwise fun y z => y + 32 ≤ z) (hfit : ∀ y ∈ l, y + 8 < 2 ^ 32) :
    Seg (link s prev v).mem (link s prev v).head.toNat l v.toNat ∧
      ChangesOnly (fun x => ∃ y ∈ l, y + 4 ≤ x ∧ x < y + 8) s.mem (link s prev v).mem := by
  rcases List.eq_nil_or_concat' l with rfl | ⟨l, z, rfl⟩
  · have hprev0 : prev = 0 := (eq_zero_iff prev).mpr hprev
    rw [link, if_pos hprev0]
    exact ⟨rfl, .refl _⟩
  · have hz : z ∈ l ++ [z] := by simp
    have hprevz : prev.toNat = z := by simpa [lastOr] using hprev
    have hne : prev ≠ 0 := fun h => by
      have h1 := (eq_zero_iff prev).mp h
      have h2 := hpos z hz
      omega
    have hslot : (prev + 4).toNat = z + 4 := by
      have h1 := hfit z hz
      rw [toNat_add_lt (by simp; omega), hprevz]
      rfl
    rw [link, if_neg hne]
    have hc : ChangesOnly (fun x => z + 4 ≤ x ∧ x < z + 8) s.mem (wr s.mem (prev + 4) v) := by
      rw [wr, hslot]
      exact (changesOnly_write32 _ _ _).mono fun x hx => by omega
    obtain ⟨k, hl, hk, _⟩ := seg_append.mp hs
    refine ⟨seg_append.mpr ⟨k, hl.frame hc fun y hy x h1 h2 => ?_, hk, ?_⟩,
      hc.mono fun x hx => ⟨z, hz, hx⟩⟩
    · have h3 := (List.pairwise_append.mp hsp).2.2 y hy z (by simp)
      omega
    · show nextOf _ z = v.toNat
      rw [nextOf, wr, hslot, read32_write32_self]

theorem Shape.splice {pre post : List Blk} (old mid : List Blk) (v t : Nat)
    (h : Shape pool s (pre ++ (old ++ post))) (htot : total mid = total old)
    (hc : ChangesOnly (fun x => (pool.addr.toNat + total pre ≤ x ∧
        x < pool.addr.toNat + total pre + total old) ∨
      ∃ y ∈ freeAddrs pool.addr.toNat pre, y + 4 ≤ x ∧ x < y + 8) s.mem s'.mem)
    (hmid : Tiles s'.mem (pool.addr.toNat + total pre) mid)
    (hpre : Seg s'.mem s'.head.toNat (freeAddrs pool.addr.toNat pre) v)
    (hseg : Seg s'.mem v (freeAddrs (pool.addr.toNat + total pre) mid) t)
    (ht : Seg s.mem t (freeAddrs (pool.addr.toNat + total pre + total old) post) 0) :
    Shape pool s' (pre ++ (mid ++ post)) := by
  obtain ⟨htp, htr⟩ := tiles_append.mp h.tiles
  have htpost := (tiles_append.mp htr).2
  have hpost : Tiles s'.mem (pool.addr.toNat + total pre + total old) post := by
    refine htpost.frame hc ?_
    rintro x (hx | ⟨y, hy, hx⟩)
    · exact Or.inl hx.2
    · have := htp.free_bounds hy
      omega
  have hpret : Tiles s'.mem pool.addr.toNat pre := by
    refine htp.frame hc ?_
    rintro x (hx | hx)
    · exact Or.inr (Or.inl hx.1)
    · exact Or.inr (Or.inr hx)
  have htpost' : Seg s'.mem t (freeAddrs (pool.addr.toNat + total pre + total old) post) 0 := by
    refine ht.frame hc fun y hy x h1 h2 => ?_
    have hy' := htpost.free_bounds hy
    rintro (hx | ⟨z, hz, hx⟩)
    · omega
    · have := htp.free_bounds hz
      omega
  refine ⟨tiles_append.mpr ⟨hpret, tiles_append.mpr ⟨hmid, htot ▸ hpost⟩⟩, ?_, ?_⟩
  · have hsize := h.size
    simp only [total_append] at hsize ⊢
    omega
  · rw [freeAddrs_append, freeAddrs_append, htot]
    exact seg_append.mpr ⟨v, hpre, seg_append.mpr ⟨t, hseg, htpost'⟩⟩

theorem Shape.seg_pre {pre post : List Blk} (h : Shape pool s (pre ++ post)) :
    ∃ mid, Seg s.mem s.head.toNat (freeAddrs pool.addr.toNat pre) mid ∧
      Seg s.mem mid (freeAddrs (pool.addr.toNat + total pre) post) 0 := by
  have hseg := h.seg
  rw [freeAddrs_append] at hseg
  exact seg_append.mp hseg

theorem Shape.relink {pre post : List Blk} {prev v : U32} (old mid : List Blk) (t : Nat)
    (h : Shape pool s (pre ++ (old ++ post))) (htot : total mid = total old)
    (hprev : prev.toNat = lastOr (freeAddrs pool.addr.toNat pre))
    (hc : ChangesOnly (fun x => pool.addr.toNat + total pre ≤ x ∧
      x < pool.addr.toNat + total pre + total old) s.mem m')
    (hmid : Tiles m' (pool.addr.toNat + total pre) mid)
    (hseg : Seg m' v.toNat (freeAddrs (pool.addr.toNat + total pre) mid) t)
    (ht : Seg s.mem t (freeAddrs (pool.addr.toNat + total pre + total old) post) 0) :
    Shape pool (link { s with mem := m' } prev v) (pre ++ (mid ++ post)) := by
  have htp := (tiles_append.mp h.tiles).1
  have hpos := pool.pos
  have hfit := pool.fits
  have hsize := h.size
  have hbounds : ∀ y ∈ freeAddrs pool.addr.toNat pre,
      pool.addr.toNat ≤ y ∧ y + 32 ≤ pool.addr.toNat + total pre := fun y hy => by
    have := htp.free_bounds hy
    omega
  obtain ⟨k, hpre, _⟩ := h.seg_pre
  have hpre' : Seg m' s.head.toNat (freeAddrs pool.addr.toNat pre) k :=
    hpre.frame hc fun y hy x h1 h2 hx => by
      have := hbounds y hy
      omega
  simp only [total_append] at hsize
  obtain ⟨hl, hlc⟩ := link_spec (s := { s with mem := m' }) (v := v) hpre' hprev
    (fun y hy => by have := hbounds y hy; omega) (freeAddrs_spaced htp)
    (fun y hy => by have := hbounds y hy; omega)
  refine h.splice old mid v.toNat t htot
    ((hc.mono fun x hx => Or.inl hx).trans (hlc.mono fun x hx => Or.inr hx))
    (hmid.frame hlc ?_) hl (hseg.frame hlc ?_) ht
  · rintro x ⟨y, hy, hx⟩
    have := hbounds y hy
    omega
  · rintro y hy x h1 h2 ⟨z, hz, hx⟩
    have := hbounds z hz
    have := hmid.free_bounds hy
    omega

/-! ## Allocation -/

theorem findFit_spec (m : Mem) (need : U32) (l : List Nat) :
    ∀ (fuel : Nat) (prev b : U32), Seg m b.toNat l 0 → l.length < fuel →
      (∀ y ∈ l, 0 < y ∧ y + 8 < 2 ^ 32 ∧ (read32 m y).toNat % 16 = 0) →
      (findFit m need fuel prev b = some none ∧ ∀ y ∈ l, (read32 m y).toNat < need.toNat) ∨
      ∃ l1 l2 p c, l = l1 ++ c.toNat :: l2 ∧ findFit m need fuel prev b = some (some (p, c)) ∧
        p.toNat = l1.getLast?.getD prev.toNat ∧ need.toNat ≤ (read32 m c.toNat).toNat ∧
        ∀ y ∈ l1, (read32 m y).toNat < need.toNat := by
  induction l with
  | nil =>
    intro fuel prev b hs hfuel _
    obtain ⟨fuel, rfl⟩ := Nat.exists_eq_succ_of_ne_zero (Nat.ne_of_gt hfuel)
    have hb : b = 0 := (eq_zero_iff b).mpr hs
    exact Or.inl ⟨by rw [findFit, if_pos hb], fun y hy => nomatch hy⟩
  | cons z l ih =>
    intro fuel prev b hs hfuel hl
    obtain ⟨fuel, rfl⟩ := Nat.exists_eq_succ_of_ne_zero (Nat.ne_of_gt (Nat.zero_lt_of_lt hfuel))
    obtain ⟨rfl, hs⟩ := hs
    obtain ⟨hpos, hfit, hdvd⟩ := hl b.toNat List.mem_cons_self
    have hb : b ≠ 0 := fun h => by
      have := (eq_zero_iff b).mp h
      omega
    have hfree : ¬ blkIsFree m b = false := by
      rw [Bool.not_eq_false, blkIsFree_iff, rd]
      omega
    have hsize : (blkSize m b).toNat = (read32 m b.toNat).toNat := by
      rw [blkSize_toNat, rd]
      omega
    rw [findFit, if_neg hb, if_neg hfree]
    split
    · rename_i hlt
      have hlt' : (read32 m b.toNat).toNat < need.toNat := hsize ▸ hlt
      rw [← blkNext_toNat (by omega)] at hs
      rcases ih fuel b (blkNext m b) hs (by simpa using hfuel)
        (fun y hy => hl y (List.mem_cons_of_mem _ hy)) with ⟨hnone, hall⟩ | ⟨l1, l2, p, c, rfl, hc⟩
      · refine Or.inl ⟨hnone, fun y hy => ?_⟩
        rcases List.mem_cons.mp hy with rfl | hy
        · exact hlt'
        · exact hall y hy
      · refine Or.inr ⟨b.toNat :: l1, l2, p, c, rfl, hc.1, ?_, hc.2.2.1, fun y hy => ?_⟩
        · rw [List.getLast?_cons]
          exact hc.2.1
        · rcases List.mem_cons.mp hy with rfl | hy
          · exact hlt'
          · exact hc.2.2.2 y hy
    · rename_i hge
      have hge' : need.toNat ≤ (read32 m b.toNat).toNat := hsize ▸ BitVec.not_lt.mp hge
      exact Or.inr ⟨[], l, prev, b, rfl, rfl, rfl, hge', fun y hy => nomatch hy⟩

theorem Tiles.length_le (h : Tiles m a bs) : 32 * bs.length ≤ total bs := by
  induction bs generalizing a with
  | nil => exact Nat.le_refl 0
  | cons b bs ih =>
    have := ih h.2.2
    have := h.2.1.ge
    rw [total_cons, List.length_cons]
    omega

theorem freeAddrs_length_le (a : Nat) (bs : List Blk) : (freeAddrs a bs).length ≤ bs.length := by
  induction bs generalizing a with
  | nil => exact Nat.le_refl 0
  | cons b bs ih =>
    have := ih (a + b.size)
    rw [freeAddrs]
    split
    · simpa using this
    · exact Nat.le_succ_of_le this

def Coalesced (bs : List Blk) : Prop := bs.IsChain fun b c => b.req = none → c.req ≠ none

structure Heap (pool : Pool) (s : State) (bs : List Blk) : Prop extends Shape pool s bs where
  coalesced : Coalesced bs
  used : s.used.toNat = usedBytes bs

theorem Shape.fuel (h : Shape pool s bs) : bs.length + 1 < kmFuel := by
  have h1 := h.tiles.length_le
  have h2 := h.size
  unfold kmFuel
  omega

@[simp] theorem link_used (s : State) (prev v : U32) : (link s prev v).used = s.used := by
  unfold link
  split <;> rfl

theorem Shape.block_at {pre post : List Blk} {k : Blk} {p : U32} (h : Shape pool s (pre ++ k :: post))
    (hp : p.toNat = pool.addr.toNat + total pre) :
    BlkAt s.mem p.toNat k ∧ k.Ok ∧ p.toNat + k.size + total post = pool.addr.toNat + 393216 ∧
      p.toNat + k.size + total post < 2 ^ 32 := by
  obtain ⟨hat, hok, _⟩ := (tiles_append.mp h.tiles).2
  have hsize := h.size
  have hfit := pool.fits
  simp only [total_append, total_cons] at hsize
  exact ⟨hp ▸ hat, hok, by omega, by omega⟩

theorem Shape.next_of_free {pre post : List Blk} {n : Nat} (h : Shape pool s (pre ++ ⟨n, none⟩ :: post)) :
    Seg s.mem (nextOf s.mem (pool.addr.toNat + total pre))
      (freeAddrs (pool.addr.toNat + total pre + n) post) 0 := by
  obtain ⟨mid, _, hmid⟩ := h.seg_pre
  exact hmid.2

theorem takeBlock_split {pre post : List Blk} {n : Nat} {prev b size need : U32}
    (h : Shape pool s (pre ++ ⟨n, none⟩ :: post)) (hb : b.toNat = pool.addr.toNat + total pre)
    (hprev : prev.toNat = lastOr (freeAddrs pool.addr.toNat pre))
    (hneed : Blk.Ok ⟨need.toNat, some size.toNat⟩) (hsplit : need.toNat + 32 ≤ n) :
    Shape pool (takeBlock s prev b size need).2
        (pre ++ ⟨need.toNat, some size.toNat⟩ :: ⟨n - need.toNat, none⟩ :: post) ∧
      (takeBlock s prev b size need).2.used = s.used + need := by
  obtain ⟨hat, hok, _, hfit⟩ := h.block_at hb
  have hn : n % 16 = 0 := hok.dvd
  have hneed16 : need.toNat % 16 = 0 := hneed.dvd
  have hneed32 : 32 ≤ need.toNat := hneed.ge
  have hfit' : b.toNat + n + total post < 2 ^ 32 := hfit
  have hbs : (blkSize s.mem b).toNat = n := hat.size_eq hok
  have hleft : (blkSize s.mem b - need).toNat = n - need.toNat := by
    rw [toNat_sub_le (by omega), hbs]
  have hrest : (b + need).toNat = b.toNat + need.toNat := toNat_add_lt (by omega)
  have hrest4 : (b + need + 4).toNat = b.toNat + need.toNat + 4 := by
    rw [toNat_add_lt (by simp; omega), hrest]
    rfl
  have hcond : blkSize s.mem b - need ≥ kmMinSplit := by
    rw [ge_iff_le, BitVec.le_def, hleft]
    show 32 ≤ _
    omega
  rw [takeBlock, if_pos hcond]
  refine ⟨?_, by simp⟩
  let m1 := wr s.mem (b + need) (blkSize s.mem b - need)
  let m2 := wr m1 (b + need + 4) (blkNext m1 b)
  have hc1 : ChangesOnly (fun x => b.toNat + need.toNat ≤ x ∧ x < b.toNat + n) s.mem m1 := by
    show ChangesOnly _ _ (write32 _ _ _)
    rw [hrest]
    exact (changesOnly_write32 _ _ _).mono fun x hx => by omega
  have hc2 : ChangesOnly (fun x => b.toNat + need.toNat ≤ x ∧ x < b.toNat + n) m1 m2 := by
    show ChangesOnly _ _ (write32 _ _ _)
    rw [hrest4]
    exact (changesOnly_write32 _ _ _).mono fun x hx => by omega
  obtain ⟨harm, hc3⟩ := @kmArm_spec m2 b size need _ rfl rfl hneed
    (by show b.toNat + need.toNat < 2 ^ 32; omega)
  have hsize3 : read32 (kmArm m2 b size need) (b.toNat + need.toNat) = blkSize s.mem b - need := by
    rw [hc3.read32 (fun x h1 h2 hx => by have : x < b.toNat + need.toNat := hx.2; omega)]
    show read32 (write32 m1 _ _) _ = _
    rw [hrest4, read32_write32_of_disjoint _ _ (by omega)]
    show read32 (write32 _ _ _) _ = _
    rw [hrest, read32_write32_self]
  have hnext3 : nextOf (kmArm m2 b size need) (b.toNat + need.toNat) = nextOf s.mem b.toNat := by
    rw [nextOf_frame hc3 (fun x h1 h2 hx => by have : x < b.toNat + need.toNat := hx.2; omega)]
    have hw : nextOf m2 (b.toNat + need.toNat) = (blkNext m1 b).toNat := by
      show (read32 (write32 m1 _ _) _).toNat = _
      rw [hrest4, read32_write32_self]
    rw [hw, blkNext_toNat (by omega)]
    exact nextOf_frame hc1 fun x h1 h2 hx => by omega
  refine (Shape.relink [⟨n, none⟩] [⟨need.toNat, some size.toNat⟩, ⟨n - need.toNat, none⟩]
    (nextOf s.mem b.toNat) h ?_ hprev ?_ ?_ ?_ ?_).with_used _
  · simp only [total_cons, total_nil]
    omega
  · simp only [total_cons, total_nil, ← hb]
    refine ChangesOnly.trans (hc1.mono ?_) (ChangesOnly.trans (hc2.mono ?_) (hc3.mono ?_))
    · intro x hx
      omega
    · intro x hx
      omega
    · intro x hx
      have : x < b.toNat + need.toNat := hx.2
      omega
  · rw [← hb]
    refine ⟨harm, hneed, ?_, ⟨?_, ?_, fun r hr => nomatch hr⟩, trivial⟩
    · show (read32 _ (b.toNat + need.toNat)).toNat = n - need.toNat
      rw [hsize3, hleft]
    · show (n - need.toNat) % 16 = 0
      omega
    · show 32 ≤ n - need.toNat
      omega
  · rw [← hb]
    exact ⟨hrest, hnext3⟩
  · have hnext := h.next_of_free
    rw [← hb] at hnext
    simpa [← hb] using hnext

theorem takeBlock_whole {pre post : List Blk} {n : Nat} {prev b size need : U32}
    (h : Shape pool s (pre ++ ⟨n, none⟩ :: post)) (hb : b.toNat = pool.addr.toNat + total pre)
    (hprev : prev.toNat = lastOr (freeAddrs pool.addr.toNat pre))
    (hsize : Blk.Ok ⟨n, some size.toNat⟩) (hle : need.toNat ≤ n) (hwhole : n < need.toNat + 32) :
    Shape pool (takeBlock s prev b size need).2 (pre ++ ⟨n, some size.toNat⟩ :: post) ∧
      (takeBlock s prev b size need).2.used.toNat = (s.used.toNat + n) % 2 ^ 32 := by
  obtain ⟨hat, hok, _, hfit⟩ := h.block_at hb
  have hbs : (blkSize s.mem b).toNat = n := hat.size_eq hok
  have hn32 : 32 ≤ n := hok.ge
  have hfit' : b.toNat + n + total post < 2 ^ 32 := hfit
  have hcond : ¬ blkSize s.mem b - need ≥ kmMinSplit := by
    rw [ge_iff_le, BitVec.le_def, toNat_sub_le (by omega), hbs]
    show ¬ 32 ≤ _
    omega
  rw [takeBlock, if_neg hcond]
  refine ⟨?_, ?_⟩
  · obtain ⟨harm, hc⟩ := @kmArm_spec s.mem b size (blkSize s.mem b) ⟨n, some size.toNat⟩
      rfl hbs.symm hsize (by show b.toNat + n < 2 ^ 32; omega)
    refine (Shape.relink [⟨n, none⟩] [⟨n, some size.toNat⟩] (nextOf s.mem b.toNat) h rfl hprev
      ?_ ?_ ?_ ?_).with_used _
    · simpa [← hb] using hc
    · rw [← hb]
      exact ⟨harm, hsize, trivial⟩
    · exact blkNext_toNat (by omega)
    · have hnext := h.next_of_free
      rw [← hb] at hnext
      simpa [← hb] using hnext
  · simp [BitVec.toNat_add, hbs]

theorem Coalesced.replace_front {pre post : List Blk} {n k r : Nat}
    (h : Coalesced (pre ++ ⟨n, none⟩ :: post)) :
    Coalesced (pre ++ ⟨k, some r⟩ :: post) ∧
      Coalesced (pre ++ ⟨k, some r⟩ :: ⟨n - k, none⟩ :: post) := by
  obtain ⟨hpre, htail, _⟩ := List.isChain_append.mp h
  obtain ⟨hhead, hpost⟩ := List.isChain_cons.mp htail
  have hjoin : ∀ x ∈ pre.getLast?, ∀ (l : List Blk), ∀ y ∈ ((⟨k, some r⟩ : Blk) :: l).head?,
      x.req = none → y.req ≠ none := by
    rintro x _ l y hy _
    obtain rfl := Option.some.inj hy
    exact Option.some_ne_none r
  refine ⟨List.isChain_append.mpr ⟨hpre, List.isChain_cons.mpr ⟨?_, hpost⟩,
    fun x hx => hjoin x hx _⟩, List.isChain_append.mpr ⟨hpre, List.isChain_cons.mpr ⟨?_,
    List.isChain_cons.mpr ⟨hhead, hpost⟩⟩, fun x hx => hjoin x hx _⟩⟩
  · exact fun y _ hr => nomatch hr
  · exact fun y _ hr => nomatch hr

theorem needed_toNat {size : U32} (h : size.toNat ≤ 393216) :
    (roundUp (size + kmHdr + kmTail) kmAlign).toNat = (size.toNat + 35) / 16 * 16 := by
  have hsum : (size + kmHdr + kmTail).toNat = size.toNat + 20 := by
    unfold kmHdr kmTail
    bv_omega
  rw [roundUp_align (by omega), hsum]

theorem Blk.ok_of_needed {n r : Nat} (h0 : 0 < r) (hle : (r + 35) / 16 * 16 ≤ n)
    (hdvd : n % 16 = 0) : Blk.Ok ⟨n, some r⟩ := by
  refine ⟨hdvd, ?_, ?_⟩
  · show 32 ≤ n
    omega
  · intro k hk
    obtain rfl := Option.some.inj hk
    unfold round4
    show 0 < r ∧ 16 + (r + 3) / 4 * 4 + 4 ≤ n
    omega

theorem takeBlock_ptr (s : State) (prev b size need : U32) :
    (takeBlock s prev b size need).1 = b + kmHdr := by
  unfold takeBlock
  dsimp only
  split <;> rfl

theorem takeBlock_spec {pre post : List Blk} {n : Nat} {prev b size need : U32}
    (h : Heap pool s (pre ++ ⟨n, none⟩ :: post)) (hb : b.toNat = pool.addr.toNat + total pre)
    (hprev : prev.toNat = lastOr (freeAddrs pool.addr.toNat pre)) (hsize : 0 < size.toNat)
    (hneed : need.toNat = (size.toNat + 35) / 16 * 16) (hfit : need.toNat ≤ n) :
    ∃ bs', Heap pool (takeBlock s prev b size need).2 bs' ∧ (allocs pool.addr.toNat bs').Perm
      ((b.toNat + 16, size.toNat) :: allocs pool.addr.toNat (pre ++ ⟨n, none⟩ :: post)) := by
  have hn : n % 16 = 0 := (h.block_at hb).2.1.dvd
  have hused := h.used
  have hcap := h.size
  have huse := usedBytes_le pre
  have huse' := usedBytes_le post
  simp only [usedBytes_append, usedBytes_cons_free, total_append, total_cons] at hused hcap
  by_cases hsplit : need.toNat + 32 ≤ n
  · obtain ⟨hshape, hcount⟩ := takeBlock_split h.toShape hb hprev
      (Blk.ok_of_needed hsize (Nat.le_of_eq hneed.symm) (by omega)) hsplit
    refine ⟨_, ⟨hshape, h.coalesced.replace_front.2, ?_⟩, ?_⟩
    · rw [hcount, toNat_add_lt (by omega), hused]
      simp only [usedBytes_append, usedBytes_cons_alloc, usedBytes_cons_free]
      omega
    · have hend : b.toNat + need.toNat + (n - need.toNat) = b.toNat + n := by omega
      simp only [allocs_append, allocs, ← hb, hend]
      exact List.perm_middle
  · obtain ⟨hshape, hcount⟩ := takeBlock_whole h.toShape hb hprev
      (Blk.ok_of_needed hsize (hneed ▸ hfit) hn) hfit (Nat.not_le.mp hsplit)
    refine ⟨_, ⟨hshape, h.coalesced.replace_front.1, ?_⟩, ?_⟩
    · rw [hcount, Nat.mod_eq_of_lt (by omega), hused]
      simp only [usedBytes_append, usedBytes_cons_alloc]
      omega
    · simp only [allocs_append, allocs, ← hb]
      exact List.perm_middle

theorem Shape.findFit_cases (h : Shape pool s bs) (need : U32) :
    findFit s.mem need kmFuel 0 s.head = some none ∨
      ∃ pre n post prev b, bs = pre ++ ⟨n, none⟩ :: post ∧ b.toNat = pool.addr.toNat + total pre ∧
        prev.toNat = lastOr (freeAddrs pool.addr.toNat pre) ∧ need.toNat ≤ n ∧
        findFit s.mem need kmFuel 0 s.head = some (some (prev, b)) := by
  have hfree : ∀ y ∈ freeAddrs pool.addr.toNat bs,
      0 < y ∧ y + 8 < 2 ^ 32 ∧ (read32 s.mem y).toNat % 16 = 0 := fun y hy => by
    have := h.tiles.free_bounds hy
    have := h.size
    have := pool.pos
    have := pool.fits
    omega
  rcases findFit_spec s.mem need _ kmFuel 0 s.head h.seg
    (Nat.lt_of_le_of_lt (freeAddrs_length_le _ _) (Nat.lt_of_succ_lt h.fuel)) hfree with
    ⟨hnone, _⟩ | ⟨l1, l2, prev, b, hl, hfound, hprev, hfit, _⟩
  · exact Or.inl hnone
  · obtain ⟨pre, n, post, rfl, rfl, hb, _⟩ := freeAddrs_split hl
    obtain ⟨hat, -⟩ := h.block_at hb
    have hread : (read32 s.mem b.toNat).toNat = n := hat
    exact Or.inr ⟨pre, n, post, prev, b, rfl, hb, hprev, hread ▸ hfit, hfound⟩

theorem kmalloc_spec (h : Heap pool s bs) (size : U32) :
    kmalloc s size = some (0, s) ∨
      ∃ p s' bs', kmalloc s size = some (p, s') ∧ p ≠ 0 ∧ Heap pool s' bs' ∧
        (allocs pool.addr.toNat bs').Perm ((p.toNat, size.toNat) :: allocs pool.addr.toNat bs) := by
  unfold kmalloc
  split
  · exact Or.inl rfl
  rename_i hzero
  split
  · exact Or.inl rfl
  rename_i hmax
  dsimp only
  have hsize0 := toNat_ne_zero hzero
  have hneed := @needed_toNat size (BitVec.not_lt.mp hmax)
  rcases h.findFit_cases (roundUp (size + kmHdr + kmTail) kmAlign) with
    hnone | ⟨pre, n, post, prev, b, rfl, hb, hprev, hfit, hfound⟩
  · left
    rw [hnone]
  · right
    rw [hfound]
    obtain ⟨-, hok, -, hblt⟩ := h.block_at hb
    have hn32 : 32 ≤ n := hok.ge
    have hblt' : b.toNat + n + total post < 2 ^ 32 := hblt
    have hptr : (b + kmHdr).toNat = b.toNat + 16 := toNat_add_lt (by simp [kmHdr]; omega)
    obtain ⟨bs', hheap, hperm⟩ := takeBlock_spec h hb hprev (Nat.pos_of_ne_zero hsize0) hneed hfit
    refine ⟨b + kmHdr, _, bs', congrArg some (Prod.ext (takeBlock_ptr _ _ _ _ _) rfl), ?_, hheap, ?_⟩
    · intro he
      have := (eq_zero_iff _).mp he
      omega
    · rw [hptr]
      exact hperm

end Ezos.Kmalloc
