import Ezos.Mem.KmallocCalls

/-!
# `kfree` and `kmalloc_audit` on the block list

An insertion turns the allocated block into a free one between its neighbours in the free
list; each merge then replaces two neighbouring free blocks by one.
-/

namespace Ezos.Kmalloc

open Lib.Memory

set_option autoImplicit false

variable {m m' : Mem} {a x : Nat} {bs xs ys : List Blk} {pool : Pool} {s s' : State}

theorem BlkAt.live {p : U32} {n r : Nat} (h : BlkAt m p.toNat ⟨n, some r⟩) (hok : Blk.Ok ⟨n, some r⟩)
    (hfit : p.toNat + n < 2 ^ 32) :
    (rd m (kmReqOf p)).toNat = r ∧ rd m (kmMagicOf p) = kmMagic ∧
      (kmTailOf (p + kmHdr) (rd m (kmReqOf p))).toNat = p.toNat + 16 + round4 r ∧
      rd m (kmTailOf (p + kmHdr) (rd m (kmReqOf p))) = kmTailMagic := by
  obtain ⟨-, hreq, hmagic, htail⟩ := h
  obtain ⟨-, hroom⟩ := hok.room r rfl
  have hroom' : 16 + round4 r + 4 ≤ n := hroom
  have hround := le_round4 r
  have hreqOf : (kmReqOf p).toNat = p.toNat + 4 := toNat_add_lt (by simp; omega)
  have hrd : (rd m (kmReqOf p)).toNat = r := by
    rw [rd, hreqOf]
    exact hreq
  obtain ⟨-, hmagicOf, htailOf⟩ := @slots_toNat p (rd m (kmReqOf p)) (by rw [hrd]; omega)
  rw [hrd] at htailOf
  refine ⟨hrd, ?_, htailOf, ?_⟩
  · rw [rd, hmagicOf]
    exact hmagic
  · rw [rd, htailOf]
    exact htail

theorem poolEnd_toNat (pool : Pool) : (pool.addr + kmPoolSize).toNat = pool.addr.toNat + 393216 :=
  toNat_add_lt (Nat.lt_of_le_of_lt (Nat.le_add_right _ 16) pool.fits)

theorem size_checks {p : U32} {k : Blk} (hat : BlkAt m p.toNat k) (hok : k.Ok)
    (hle : p.toNat + k.size ≤ pool.addr.toNat + 393216) (hlo : pool.addr.toNat ≤ p.toNat) :
    ¬ (blkSize m p < kmHdr ∨ blkSize m p > kmPoolSize ∨
      p + blkSize m p > pool.addr + kmPoolSize) := by
  have hsize := hat.size_eq hok
  have hge := hok.ge
  have hfits := pool.fits
  have hend : (p + blkSize m p).toNat = p.toNat + k.size := by
    rw [toNat_add_lt (by omega), hsize]
  have hhdr : kmHdr.toNat = 16 := rfl
  have hpool : kmPoolSize.toNat = 393216 := rfl
  rw [BitVec.lt_def, gt_iff_lt, BitVec.lt_def, gt_iff_lt, BitVec.lt_def, hsize, hend,
    poolEnd_toNat, hhdr, hpool]
  omega

theorem kfreeCheck_live {pre post : List Blk} {n r : Nat} {b : U32}
    (h : Shape pool s (pre ++ ⟨n, some r⟩ :: post)) (hb : b.toNat = pool.addr.toNat + total pre) :
    kfreeCheck pool s.mem b = none := by
  obtain ⟨hat, hok, hend, hfit⟩ := h.block_at hb
  have hend' : b.toNat + n + total post = pool.addr.toNat + 393216 := hend
  have hfit' : b.toNat + n + total post < 2 ^ 32 := hfit
  have hn32 : 32 ≤ n := hok.ge
  obtain ⟨hr0, hroom⟩ := hok.room r rfl
  have hroom' : 16 + round4 r + 4 ≤ n := hroom
  have hround := le_round4 r
  obtain ⟨hreq, hmagic, htail, htailmagic⟩ := hat.live hok (by omega)
  have hbs : (blkSize s.mem b).toNat = n := hat.size_eq hok
  have hpool : kmPoolSize.toNat = 393216 := rfl
  unfold kfreeCheck
  dsimp only
  rw [if_neg, if_neg, if_neg, if_neg, if_neg, if_neg, if_neg]
  · exact not_not_intro htailmagic
  · have h4 : kmTail.toNat = 4 := rfl
    rw [gt_iff_lt, BitVec.lt_def, toNat_add_lt (by omega), toNat_add_lt (by omega), hbs, htail, h4]
    omega
  · rw [eq_zero_iff, gt_iff_lt, BitVec.lt_def, hreq, hpool]
    omega
  · exact size_checks hat hok (by show b.toNat + n ≤ _; omega) (by omega)
  · exact not_not_intro hmagic
  · rw [hat.isFree_iff hok]
    exact Option.some_ne_none r
  · rw [ge_iff_le, BitVec.lt_def, BitVec.le_def, poolEnd_toNat]
    omega

theorem blockDamaged_eq_false {p : U32} {k : Blk} (hat : BlkAt m p.toNat k) (hok : k.Ok)
    (hfit : p.toNat + k.size < 2 ^ 32) (hmax : k.size ≤ 393216) : blockDamaged m p = false := by
  have hfree := hat.isFree_iff hok
  have hsize := hat.size_eq hok
  obtain ⟨n, req⟩ := k
  cases req with
  | none => simp [blockDamaged, hfree.mpr rfl]
  | some r =>
    have hfit' : p.toNat + n < 2 ^ 32 := hfit
    have hsize' : (blkSize m p).toNat = n := hsize
    obtain ⟨hreq, hmagic, htail, htailmagic⟩ := hat.live hok hfit
    obtain ⟨hr0, hroom⟩ := hok.room r rfl
    have hroom' : 16 + round4 r + 4 ≤ n := hroom
    have hround := le_round4 r
    have h1 : ¬ rd m (kmReqOf p) = 0 := by
      rw [eq_zero_iff, hreq]
      omega
    have h2 : ¬ rd m (kmReqOf p) > kmPoolSize := by
      have hpool : kmPoolSize.toNat = 393216 := rfl
      have hmax' : n ≤ 393216 := hmax
      rw [gt_iff_lt, BitVec.lt_def, hreq, hpool]
      omega
    have h3 : ¬ kmTailOf (p + kmHdr) (rd m (kmReqOf p)) + kmTail > p + blkSize m p := by
      have h4 : kmTail.toNat = 4 := rfl
      rw [gt_iff_lt, BitVec.lt_def, toNat_add_lt (by omega), toNat_add_lt (by omega), hsize', htail, h4]
      omega
    simp only [blockDamaged, hmagic, htailmagic, h1, h2, h3, ne_eq, not_true, decide_false,
      Bool.or_self, Bool.and_false]

theorem auditFrom_tiles (fuel : Nat) (bad : U32) {p : U32} (ht : Tiles m p.toNat bs)
    (hend : p.toNat + total bs ≤ pool.addr.toNat + 393216) (hlo : pool.addr.toNat ≤ p.toNat) :
    ∃ q : U32, q.toNat = p.toNat + total bs ∧
      auditFrom pool m (bs.length + fuel) p bad = auditFrom pool m fuel q bad := by
  have hfits := pool.fits
  have hhdr : kmHdr.toNat = 16 := rfl
  induction bs generalizing p with
  | nil => exact ⟨p, rfl, by rw [List.length_nil, Nat.zero_add]⟩
  | cons k bs ih =>
    obtain ⟨hat, hok, hrest⟩ := ht
    have hge := hok.ge
    rw [total_cons] at hend
    have hnext : (p + blkSize m p).toNat = p.toNat + k.size := by
      have hsize := hat.size_eq hok
      rw [toNat_add_lt (by omega), hsize]
    rw [← hnext] at hrest
    obtain ⟨q, hq, heq⟩ := ih hrest (by omega) (by omega)
    refine ⟨q, by rw [hq, hnext, total_cons, Nat.add_assoc], ?_⟩
    rw [List.length_cons, Nat.add_right_comm, auditFrom, if_pos]
    · dsimp only
      rw [if_neg (size_checks hat hok (by omega) hlo),
        blockDamaged_eq_false hat hok (by omega) (by omega)]
      exact heq
    · rw [BitVec.le_def, poolEnd_toNat, toNat_add_lt (by omega), hhdr]
      omega

theorem auditFrom_end {fuel : Nat} {q bad : U32} (hfuel : 0 < fuel)
    (hq : q.toNat = pool.addr.toNat + 393216) : auditFrom pool m fuel q bad = some bad := by
  have hfits := pool.fits
  have hhdr : kmHdr.toNat = 16 := rfl
  obtain ⟨fuel, rfl⟩ := Nat.exists_eq_succ_of_ne_zero (Nat.ne_of_gt hfuel)
  rw [auditFrom, if_neg]
  rw [BitVec.le_def, poolEnd_toNat, toNat_add_lt (by omega), hhdr]
  omega

theorem Shape.audit (h : Shape pool s bs) : kmallocAudit pool s = some 0 := by
  have hfuel := h.fuel
  have hsize := h.size
  obtain ⟨q, hq, heq⟩ := auditFrom_tiles (kmFuel - bs.length) 0 h.tiles (by omega) (Nat.le_refl _)
  have hsum : bs.length + (kmFuel - bs.length) = kmFuel := by omega
  rw [hsum] at heq
  exact heq.trans (auditFrom_end (by omega) (by omega))

theorem findSlot_spec {b : U32} {l1 l2 : List Nat} :
    ∀ (fuel : Nat) (prev cur : U32), Seg m cur.toNat (l1 ++ l2) 0 → l1.length < fuel →
      (∀ y ∈ l1, 0 < y ∧ y + 8 < 2 ^ 32 ∧ y < b.toNat) → (∀ y ∈ l2, b.toNat ≤ y) →
      ∃ p c, findSlot m b fuel prev cur = some (p, c) ∧ p.toNat = l1.getLast?.getD prev.toNat ∧
        Seg m c.toNat l2 0 := by
  induction l1 with
  | nil =>
    intro fuel prev cur hs hfuel _ hl2
    obtain ⟨fuel, rfl⟩ := Nat.exists_eq_succ_of_ne_zero (Nat.ne_of_gt hfuel)
    refine ⟨prev, cur, ?_, rfl, hs⟩
    rw [findSlot, if_neg]
    rintro ⟨hne, hlt⟩
    cases l2 with
    | nil => exact toNat_ne_zero hne hs
    | cons y l2 =>
      have h1 := hl2 y List.mem_cons_self
      have h2 : cur.toNat = y := hs.1
      have h3 : cur.toNat < b.toNat := hlt
      omega
  | cons y l1 ih =>
    intro fuel prev cur hs hfuel hl1 hl2
    obtain ⟨fuel, rfl⟩ := Nat.exists_eq_succ_of_ne_zero (Nat.ne_of_gt (Nat.zero_lt_of_lt hfuel))
    obtain ⟨rfl, hs⟩ := hs
    obtain ⟨hpos, hfit, hlt⟩ := hl1 cur.toNat List.mem_cons_self
    rw [← blkNext_toNat (by omega)] at hs
    obtain ⟨p, c, hfound, hp, hc⟩ := ih fuel cur (blkNext m cur) hs (Nat.lt_of_succ_lt_succ hfuel)
      (fun z hz => hl1 z (List.mem_cons_of_mem _ hz)) hl2
    refine ⟨p, c, ?_, ?_, hc⟩
    · rw [findSlot, if_pos ⟨fun h => by have := (eq_zero_iff cur).mp h; omega, hlt⟩]
      exact hfound
    · rw [List.getLast?_cons]
      exact hp

theorem findSlot_at {pre post : List Blk} {n r : Nat} {b : U32}
    (h : Shape pool s (pre ++ ⟨n, some r⟩ :: post)) (hb : b.toNat = pool.addr.toNat + total pre) :
    ∃ p c, findSlot s.mem b kmFuel 0 s.head = some (p, c) ∧
      p.toNat = lastOr (freeAddrs pool.addr.toNat pre) ∧
      Seg s.mem c.toNat (freeAddrs (b.toNat + n) post) 0 := by
  have hfuel := h.fuel
  have hpos := pool.pos
  obtain ⟨-, -, hend, hfit⟩ := h.block_at hb
  have hseg := h.seg
  obtain ⟨htp, -, -, htpost⟩ := tiles_append.mp h.tiles
  rw [freeAddrs_append] at hseg
  have hpostAddrs : freeAddrs (pool.addr.toNat + total pre) (⟨n, some r⟩ :: post) =
      freeAddrs (b.toNat + n) post := by
    simp [freeAddrs, hb]
  rw [hpostAddrs] at hseg
  refine findSlot_spec kmFuel 0 s.head hseg ?_ (fun y hy => ?_) fun y hy => ?_
  · have h1 := freeAddrs_length_le pool.addr.toNat pre
    rw [List.length_append] at hfuel
    omega
  · have := htp.free_bounds hy
    omega
  · rw [← hb] at htpost
    have := htpost.free_bounds hy
    exact Nat.le_trans (Nat.le_add_right _ _) this.1

theorem insert_shape {pre post : List Blk} {n r : Nat} {prev cur b : U32}
    (h : Shape pool s (pre ++ ⟨n, some r⟩ :: post)) (hb : b.toNat = pool.addr.toNat + total pre)
    (hprev : prev.toNat = lastOr (freeAddrs pool.addr.toNat pre))
    (hcur : Seg s.mem cur.toNat (freeAddrs (b.toNat + n) post) 0) :
    Shape pool (link { s with mem := wr (wr s.mem b (blkSize s.mem b)) (b + 4) cur } prev b)
      (pre ++ ⟨n, none⟩ :: post) := by
  obtain ⟨hat, hok, hend, hfit⟩ := h.block_at hb
  have hn32 : 32 ≤ n := hok.ge
  have hfit' : b.toNat + n + total post < 2 ^ 32 := hfit
  have hbs : (blkSize s.mem b).toNat = n := hat.size_eq hok
  have hb4 : (b + 4).toNat = b.toNat + 4 := toNat_add_lt (by simp; omega)
  have hc : ChangesOnly (fun x => b.toNat ≤ x ∧ x < b.toNat + n) s.mem
      (wr (wr s.mem b (blkSize s.mem b)) (b + 4) cur) := by
    unfold wr
    rw [hb4]
    refine ChangesOnly.trans ?_ ((changesOnly_write32 _ _ _).mono fun x hx => by omega)
    exact (changesOnly_write32 _ _ _).mono fun x hx => by omega
  refine Shape.relink [⟨n, some r⟩] [⟨n, none⟩] cur.toNat h rfl hprev ?_ ?_ ?_ ?_
  · simpa [← hb] using hc
  · rw [← hb]
    refine ⟨?_, ⟨hok.dvd, hok.ge, fun q hq => nomatch hq⟩, trivial⟩
    show (read32 _ b.toNat).toNat = n
    unfold wr
    rw [hb4, read32_write32_of_disjoint _ _ (by omega), read32_write32_self, hbs]
  · rw [← hb]
    refine ⟨rfl, ?_⟩
    show nextOf _ b.toNat = cur.toNat
    rw [nextOf, wr, hb4, read32_write32_self]
  · simpa [← hb] using hcur

/-! ## Merging -/

theorem mergeBlocks_shape {pre post : List Blk} {k n : Nat} {a c : U32}
    (h : Shape pool s (pre ++ ⟨k, none⟩ :: ⟨n, none⟩ :: post))
    (ha : a.toNat = pool.addr.toNat + total pre) (hc : c.toNat = a.toNat + k) :
    Shape pool { s with mem := mergeBlocks s.mem a c } (pre ++ ⟨k + n, none⟩ :: post) := by
  have h' : Shape pool s ((pre ++ [⟨k, none⟩]) ++ ⟨n, none⟩ :: post) := by simpa using h
  obtain ⟨hata, hoka, hend, hfit⟩ := h.block_at ha
  obtain ⟨hatc, hokc, -, hfitc⟩ := h'.block_at (p := c) (by simp; omega)
  have hk32 : 32 ≤ k := hoka.ge
  have hn32 : 32 ≤ n := hokc.ge
  have hfit' : a.toNat + k + (n + total post) < 2 ^ 32 := by simpa using hfit
  have ha4 : (a + 4).toNat = a.toNat + 4 := toNat_add_lt (by simp; omega)
  have hsizea : (blkSize s.mem a).toNat = k := hata.size_eq hoka
  have hsizec : (blkSize s.mem c).toNat = n := hatc.size_eq hokc
  have hsum : (blkSize s.mem a + blkSize s.mem c).toNat = k + n := by
    rw [toNat_add_lt (by omega), hsizea, hsizec]
  let m1 := wr s.mem a (blkSize s.mem a + blkSize s.mem c)
  have hc1 : ChangesOnly (fun x => a.toNat ≤ x ∧ x < a.toNat + 4) s.mem m1 :=
    changesOnly_write32 _ _ _
  have hc2 : ChangesOnly (fun x => a.toNat + 4 ≤ x ∧ x < a.toNat + 8) m1 (mergeBlocks s.mem a c) := by
    show ChangesOnly _ _ (write32 _ _ _)
    rw [ha4]
    exact (changesOnly_write32 _ _ _).mono fun x hx => by omega
  have hchange : ChangesOnly (fun x => a.toNat ≤ x ∧ x < a.toNat + 8) s.mem (mergeBlocks s.mem a c) :=
    (hc1.mono fun x hx => by omega).trans (hc2.mono fun x hx => by omega)
  have hnext : nextOf (mergeBlocks s.mem a c) a.toNat = nextOf s.mem c.toNat := by
    have hw : nextOf (mergeBlocks s.mem a c) a.toNat = (blkNext m1 c).toNat := by
      show (read32 (write32 m1 _ _) _).toNat = _
      rw [ha4, read32_write32_self]
    rw [hw, blkNext_toNat (by omega)]
    exact nextOf_frame hc1 fun x h1 h2 hx => by omega
  obtain ⟨mid, hpre, hmid⟩ := h.seg_pre
  obtain rfl : mid = a.toNat := by
    rw [ha]
    exact hmid.1
  have hnextc := h'.next_of_free
  have htp := (tiles_append.mp h.tiles).1
  refine Shape.splice [⟨k, none⟩, ⟨n, none⟩] [⟨k + n, none⟩] a.toNat (nextOf s.mem c.toNat)
    (by simpa using h) (by simp) ?_ ?_ ?_ ?_ ?_
  · refine hchange.mono fun x hx => Or.inl ?_
    simp only [total_cons, total_nil, ← ha]
    omega
  · rw [← ha]
    refine ⟨?_, ⟨?_, ?_, fun q hq => nomatch hq⟩, trivial⟩
    · show (read32 _ a.toNat).toNat = k + n
      rw [hc2.read32 (fun x h1 h2 hx => by omega)]
      show (read32 (write32 _ _ _) _).toNat = _
      rw [read32_write32_self, hsum]
    · have h1 : k % 16 = 0 := hoka.dvd
      have h2 : n % 16 = 0 := hokc.dvd
      show (k + n) % 16 = 0
      omega
    · show 32 ≤ k + n
      omega
  · exact hpre.frame hchange fun y hy x h1 h2 hx => by
      have := htp.free_bounds hy
      omega
  · rw [← ha]
    exact ⟨rfl, hnext⟩
  · rw [← ha]
    have haddr : pool.addr.toNat + total (pre ++ [⟨k, none⟩]) = c.toNat := by
      simp
      omega
    rw [haddr] at hnextc
    have htot : a.toNat + total [⟨k, none⟩, ⟨n, none⟩] = c.toNat + n := by
      simp
      omega
    rw [htot]
    exact hnextc

theorem Coalesced.append_free {pre : List Blk} {k : Nat} (h : Coalesced (pre ++ [⟨k, none⟩])) :
    Coalesced pre ∧ ∀ x ∈ pre.getLast?, x.req ≠ none := by
  obtain ⟨hpre, _, hjoin⟩ := List.isChain_append.mp h
  refine ⟨hpre, fun x hx hfree => ?_⟩
  exact hjoin x hx ⟨k, none⟩ rfl hfree rfl

theorem forward_test {pre post : List Blk} {n : Nat} {prev b : U32}
    (h : Shape pool s (pre ++ ⟨n, none⟩ :: post)) (hb : b.toNat = pool.addr.toNat + total pre)
    (hprev : prev.toNat = lastOr (freeAddrs pool.addr.toNat pre)) :
    (∃ p0 k, pre = p0 ++ [⟨k, none⟩] ∧ prev.toNat = pool.addr.toNat + total p0 ∧
      (prev ≠ 0 ∧ prev + blkSize s.mem prev = b)) ∨
    ((∀ x ∈ pre.getLast?, x.req ≠ none) ∧ ¬ (prev ≠ 0 ∧ prev + blkSize s.mem prev = b)) := by
  have hpos := pool.pos
  have hcap := h.size
  have hfits := pool.fits
  rcases List.eq_nil_or_concat' pre with rfl | ⟨p0, k, rfl⟩
  · have hprev0 : prev = 0 := (eq_zero_iff prev).mpr hprev
    exact Or.inr ⟨fun x hx => (nomatch hx), fun hc => hc.1 hprev0⟩
  obtain ⟨k, req⟩ := k
  have htp := (tiles_append.mp h.tiles).1
  simp only [total_append, total_cons, total_nil] at hb hcap
  cases req with
  | none =>
    left
    have h' : Shape pool s (p0 ++ ⟨k, none⟩ :: ⟨n, none⟩ :: post) := by simpa using h
    have hlast : prev.toNat = pool.addr.toNat + total p0 := by
      rw [hprev, freeAddrs_append]
      simp [freeAddrs, lastOr]
    obtain ⟨hat, hok, -, hfit⟩ := h'.block_at hlast
    have hsize : (blkSize s.mem prev).toNat = k := hat.size_eq hok
    refine ⟨p0, k, rfl, hlast, fun h0 => ?_, ?_⟩
    · have := (eq_zero_iff prev).mp h0
      omega
    · apply BitVec.eq_of_toNat_eq
      rw [toNat_add_lt (by omega), hsize, hlast]
      omega
  | some r =>
    right
    refine ⟨fun x hx => ?_, ?_⟩
    · obtain rfl : (⟨k, some r⟩ : Blk) = x := by simpa using hx
      exact Option.some_ne_none r
    · rintro ⟨hne, heq⟩
      have hne' := toNat_ne_zero hne
      have haddrs : freeAddrs pool.addr.toNat (p0 ++ [⟨k, some r⟩]) = freeAddrs pool.addr.toNat p0 := by
        simp [freeAddrs_append, freeAddrs]
      rw [haddrs, lastOr] at hprev
      have hmem : prev.toNat ∈ freeAddrs pool.addr.toNat p0 := by
        cases hl : (freeAddrs pool.addr.toNat p0).getLast? with
        | none =>
          rw [hl] at hprev
          exact absurd hprev hne'
        | some y =>
          rw [hl] at hprev
          have hy : prev.toNat = y := hprev
          exact hy ▸ List.mem_of_getLast? hl
      obtain ⟨ht0, htk⟩ := tiles_append.mp htp
      have hbound := ht0.free_bounds hmem
      have hk32 : 32 ≤ k := htk.2.1.ge
      have hsize : (blkSize s.mem prev).toNat = (read32 s.mem prev.toNat).toNat := by
        rw [blkSize_toNat, rd]
        omega
      have hsum : (prev + blkSize s.mem prev).toNat = b.toNat := congrArg _ heq
      rw [toNat_add_lt (by omega), hsize] at hsum
      omega

theorem backward_test {pre post : List Blk} {n : Nat} {b : U32}
    (h : Shape pool s (pre ++ ⟨n, none⟩ :: post)) (hb : b.toNat = pool.addr.toNat + total pre) :
    (∃ k p0, post = ⟨k, none⟩ :: p0 ∧ (blkNext s.mem b).toNat = b.toNat + n ∧
      (blkNext s.mem b ≠ 0 ∧ b + blkSize s.mem b = blkNext s.mem b)) ∨
    ((∀ x ∈ post.head?, x.req ≠ none) ∧
      ¬ (blkNext s.mem b ≠ 0 ∧ b + blkSize s.mem b = blkNext s.mem b)) := by
  obtain ⟨hat, hok, -, hfit⟩ := h.block_at hb
  have hn32 : 32 ≤ n := hok.ge
  have hfit' : b.toNat + n + total post < 2 ^ 32 := hfit
  have hsize : (blkSize s.mem b).toNat = n := hat.size_eq hok
  have hend : (b + blkSize s.mem b).toNat = b.toNat + n := by
    rw [toNat_add_lt (by omega), hsize]
  have hnext := h.next_of_free
  have htpost := (tiles_append.mp h.tiles).2.2.2
  rw [← hb, ← blkNext_toNat (by omega)] at hnext
  rw [← hb] at htpost
  cases post with
  | nil =>
    have h0 : blkNext s.mem b = 0 := (eq_zero_iff _).mpr hnext
    exact Or.inr ⟨fun x hx => (nomatch hx), fun hc => hc.1 h0⟩
  | cons k post =>
    obtain ⟨k, req⟩ := k
    cases req with
    | none =>
      left
      have haddr : (blkNext s.mem b).toNat = b.toNat + n := hnext.1
      refine ⟨k, post, rfl, haddr, fun h0 => ?_, BitVec.eq_of_toNat_eq (hend.trans haddr.symm)⟩
      have := (eq_zero_iff _).mp h0
      omega
    | some r =>
      right
      refine ⟨fun x hx => ?_, ?_⟩
      · obtain rfl := Option.some.inj hx
        exact Option.some_ne_none r
      · rintro ⟨hne, heq⟩
        have hne' := toNat_ne_zero hne
        have hsum : b.toNat + n = (blkNext s.mem b).toNat := hend ▸ congrArg BitVec.toNat heq
        have hk32 : 32 ≤ k := htpost.2.1.ge
        have hrest : Seg s.mem (blkNext s.mem b).toNat (freeAddrs (b.toNat + n + k) post) 0 := hnext
        cases hl : freeAddrs (b.toNat + n + k) post with
        | nil =>
          rw [hl] at hrest
          exact hne' hrest
        | cons y l =>
          have hy : (blkNext s.mem b).toNat = y := by
            rw [hl] at hrest
            exact hrest.1
          have hbound := htpost.2.2.free_bounds (hl ▸ List.mem_cons_self)
          have hlow : b.toNat + n + k ≤ y := hbound.1
          omega

theorem forward_spec {pre post : List Blk} {n : Nat} {prev b : U32}
    (h : Shape pool s (pre ++ ⟨n, none⟩ :: post)) (hb : b.toNat = pool.addr.toNat + total pre)
    (hprev : prev.toNat = lastOr (freeAddrs pool.addr.toNat pre)) (hpre : Coalesced pre) {m : Mem}
    {a : U32} (hm : m = if prev ≠ 0 ∧ prev + blkSize s.mem prev = b then mergeBlocks s.mem prev b
      else s.mem) (ha : a = if prev ≠ 0 ∧ prev + blkSize s.mem prev = b then prev else b) :
    ∃ xs k, Shape pool { s with mem := m } (xs ++ ⟨k, none⟩ :: post) ∧
      a.toNat = pool.addr.toNat + total xs ∧ Coalesced xs ∧ (∀ x ∈ xs.getLast?, x.req ≠ none) ∧
      allocs pool.addr.toNat xs = allocs pool.addr.toNat pre ∧ usedBytes xs = usedBytes pre ∧
      total xs + k = total pre + n := by
  rcases forward_test h hb hprev with ⟨p0, k, rfl, hp, htest⟩ | ⟨hlast, htest⟩
  · rw [if_pos htest] at hm ha
    subst hm ha
    obtain ⟨hp0, hlast⟩ := hpre.append_free
    have hb' : b.toNat = a.toNat + k := by
      rw [hb, hp]
      simp
      omega
    refine ⟨p0, k + n, mergeBlocks_shape (by simpa using h) hp hb', hp, hp0, hlast, ?_, ?_, ?_⟩
    · simp [allocs_append, allocs]
    · simp [usedBytes]
    · simp
      omega
  · rw [if_neg htest] at hm ha
    subst hm ha
    exact ⟨pre, n, h, hb, hpre, hlast, rfl, rfl, rfl⟩

theorem backward_spec {pre post : List Blk} {n : Nat} {b : U32}
    (h : Shape pool s (pre ++ ⟨n, none⟩ :: post)) (hb : b.toNat = pool.addr.toNat + total pre)
    (hpost : Coalesced post) {m : Mem}
    (hm : m = if blkNext s.mem b ≠ 0 ∧ b + blkSize s.mem b = blkNext s.mem b then
      mergeBlocks s.mem b (blkNext s.mem b) else s.mem) :
    ∃ k ys, Shape pool { s with mem := m } (pre ++ ⟨k, none⟩ :: ys) ∧ Coalesced ys ∧
      (∀ x ∈ ys.head?, x.req ≠ none) ∧
      allocs (pool.addr.toNat + total pre + k) ys = allocs (pool.addr.toNat + total pre + n) post ∧
      usedBytes ys = usedBytes post := by
  rcases backward_test h hb with ⟨k, p0, rfl, hnext, htest⟩ | ⟨hhead, htest⟩
  · rw [if_pos htest] at hm
    subst hm
    obtain ⟨hhead, hp0⟩ := List.isChain_cons.mp hpost
    refine ⟨n + k, p0, mergeBlocks_shape h hb hnext, hp0, fun x hx => hhead x hx rfl, ?_, rfl⟩
    simp [allocs, Nat.add_assoc]
  · rw [if_neg htest] at hm
    subst hm
    exact ⟨n, post, h, hpost, hhead, rfl, rfl⟩

theorem kfree_spec {pre post : List Blk} {n r : Nat} {p : U32}
    (h : Heap pool s (pre ++ ⟨n, some r⟩ :: post))
    (hp : p.toNat = pool.addr.toNat + total pre + 16) :
    ∃ s' bs', kfree pool s p = .ok s' ∧ Heap pool s' bs' ∧ allocs pool.addr.toNat bs' =
      allocs pool.addr.toNat pre ++ allocs (pool.addr.toNat + total pre + n) post := by
  have hp0 : p ≠ 0 := fun h0 => by
    have := (eq_zero_iff p).mp h0
    omega
  have hb : (p - kmHdr).toNat = pool.addr.toNat + total pre := by
    have hhdr : kmHdr.toNat = 16 := rfl
    rw [toNat_sub_le (by omega), hhdr, hp]
    omega
  obtain ⟨hat, hok, -, -⟩ := h.block_at hb
  have hbs : (blkSize s.mem (p - kmHdr)).toNat = n := hat.size_eq hok
  obtain ⟨prev, cur, hfound, hprev, hcur⟩ := findSlot_at h.toShape hb
  obtain ⟨hpre, htail, -⟩ := List.isChain_append.mp h.coalesced
  obtain ⟨-, hpost⟩ := List.isChain_cons.mp htail
  have hins := insert_shape (h.toShape.with_used (s.used - blkSize s.mem (p - kmHdr))) hb hprev hcur
  obtain ⟨xs, k, hfwd, ha, hxs, hlast, hallocs, hused, htotal⟩ :=
    forward_spec hins hb hprev hpre rfl rfl
  obtain ⟨j, ys, hbwd, hys, hhead, hallocs', hused'⟩ := backward_spec hfwd ha hpost rfl
  refine ⟨_, xs ++ ⟨j, none⟩ :: ys, ?_, ⟨hbwd, ?_, ?_⟩, ?_⟩
  · rw [kfree, if_neg hp0]
    dsimp only
    rw [kfreeCheck_live h.toShape hb, hfound]
    rfl
  · refine List.isChain_append.mpr ⟨hxs, List.isChain_cons.mpr ⟨fun y hy _ => hhead y hy, hys⟩, ?_⟩
    intro x hx y _ hfree
    exact absurd hfree (hlast x hx)
  · have hcount := h.used
    simp only [link_used, usedBytes_append, usedBytes_cons_alloc, usedBytes_cons_free] at hcount ⊢
    rw [toNat_sub_le (by omega), hbs]
    omega
  · rw [allocs_append, hallocs]
    have hend : pool.addr.toNat + total pre + n = pool.addr.toNat + total xs + k := by omega
    rw [hend, ← hallocs']
    rfl

end Ezos.Kmalloc
