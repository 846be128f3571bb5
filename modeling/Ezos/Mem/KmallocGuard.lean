import Ezos.Mem.KmallocRuns

/-!
# Overflow detection

The canary of a block starts at the next multiple of 4 behind the bytes that were asked for. A byte
written right behind these bytes meets it only if their number is such a multiple; else it falls into
padding that nobody reads. No call on another block reads or writes the byte, so that the
damage stays there until its block is freed.
-/

namespace Ezos.Kmalloc

open Lib.Memory

set_option autoImplicit false

variable {m : Mem} {a x : Nat} {v : Byte} {bs : List Blk} {pool : Pool} {s : State}

def smash (m : Mem) (x : Nat) (v : Byte) : Mem := fill m x 1 v

def State.smash (s : State) (x : Nat) (v : Byte) : State := { s with mem := Kmalloc.smash s.mem x v }

def Detected (pool : Pool) (s : State) (p : U32) : Prop :=
  (∃ bad, kmallocAudit pool s = some bad ∧ 0 < bad.toNat) ∧ ∃ context, kfree pool s p = .panic context

theorem changesOnly_smash (m : Mem) (x : Nat) (v : Byte) : ChangesOnly (fun y => y = x) m (smash m x v) :=
  (changesOnly_fill m x 1 v).mono fun y hy => by omega

theorem rd_smash {b : U32} (h : x < b.toNat ∨ b.toNat + 4 ≤ x) : rd (smash m x v) b = rd m b :=
  (changesOnly_smash m x v).read32 fun y h1 h2 hy => by omega

theorem wr_smash {b w : U32} (h : x < b.toNat ∨ b.toNat + 4 ≤ x) :
    wr (smash m x v) b w = smash (wr m b w) x v := by
  funext y
  unfold wr write32 smash fill
  by_cases hy : x ≤ y ∧ y < x + 1
  · rw [if_neg (by omega), if_pos hy, if_pos hy]
  · simp only [if_neg hy]

structure Off (x : Nat) (b : U32) : Prop where
  fit : b.toNat + 8 < 2 ^ 32
  off : x < b.toNat ∨ b.toNat + 8 ≤ x

theorem Off.link {b : U32} (h : Off x b) : x < (b + 4).toNat ∨ (b + 4).toNat + 4 ≤ x := by
  have hfit := h.fit
  have hoff := h.off
  rw [toNat_add_lt (by simp; omega)]
  simp only [BitVec.ofNat_eq_ofNat, BitVec.toNat_ofNat]
  omega

theorem Off.header {b : U32} (h : Off x b) : x < b.toNat ∨ b.toNat + 4 ≤ x := by
  have hoff := h.off
  omega

theorem Off.blkSize {b : U32} (h : Off x b) : blkSize (smash m x v) b = Kmalloc.blkSize m b := by
  rw [Kmalloc.blkSize, rd_smash h.header, Kmalloc.blkSize]

theorem Off.blkIsFree {b : U32} (h : Off x b) : blkIsFree (smash m x v) b = Kmalloc.blkIsFree m b := by
  rw [Kmalloc.blkIsFree, rd_smash h.header, Kmalloc.blkIsFree]

theorem Off.blkNext {b : U32} (h : Off x b) : blkNext (smash m x v) b = Kmalloc.blkNext m b := by
  rw [Kmalloc.blkNext, rd_smash h.link, Kmalloc.blkNext]

theorem Off.relink {b w : U32} (h : Off x b) :
    Kmalloc.link (s.smash x v) b w = (Kmalloc.link s b w).smash x v := by
  unfold Kmalloc.link
  split
  · rfl
  · unfold State.smash
    rw [wr_smash h.link]

theorem link_smash {b w : U32} (h : b ≠ 0 → Off x b) :
    Kmalloc.link (s.smash x v) b w = (Kmalloc.link s b w).smash x v := by
  by_cases hb : b = 0
  · unfold Kmalloc.link
    rw [if_pos hb, if_pos hb]
    rfl
  · exact (h hb).relink

theorem Off.mergeBlocks {b c : U32} (h : Off x b) (hc : Off x c) :
    mergeBlocks (smash m x v) b c = smash (Kmalloc.mergeBlocks m b c) x v := by
  unfold Kmalloc.mergeBlocks
  dsimp only
  rw [h.blkSize, hc.blkSize, wr_smash h.header, hc.blkNext, wr_smash h.link]

theorem Tiles.off_free (ht : Tiles m a bs) {p r : Nat} (hp : (p, r) ∈ allocs a bs) (hlo : p ≤ x)
    (hhi : x < p + round4 r + 4) {y : Nat} (hy : y ∈ freeAddrs a bs) :
    x < y ∨ y + (read32 m y).toNat ≤ x := by
  obtain ⟨pre, n, post, rfl, rfl, hpre, -, -, hpost, -, hn⟩ := allocs_room ht hp
  rw [freeAddrs_append] at hy
  rcases List.mem_append.mp hy with hy | hy
  · have := hpre.free_bounds hy
    omega
  · have hy' : y ∈ freeAddrs (a + total pre + n) post := hy
    have := hpost.free_bounds hy'
    omega

def Inside (pool : Pool) (bs : List Blk) (x : Nat) : Prop :=
  ∃ p r, (p, r) ∈ allocs pool.addr.toNat bs ∧ p ≤ x ∧ x < p + round4 r + 4

theorem Shape.off_free (h : Shape pool s bs) (hx : Inside pool bs x) {b : U32}
    (hb : b.toNat ∈ freeAddrs pool.addr.toNat bs) :
    Off x b ∧ (x < b.toNat ∨ b.toNat + (read32 s.mem b.toNat).toNat ≤ x) := by
  obtain ⟨p, r, hp, hlo, hhi⟩ := hx
  have hoff := h.tiles.off_free hp hlo hhi hb
  have hbounds := h.tiles.free_bounds hb
  have hsize := h.size
  have hfits := pool.fits
  exact ⟨⟨by omega, by omega⟩, hoff⟩

theorem findFit_smash {need : U32} : ∀ (fuel : Nat) (l : List Nat) (prev b : U32),
    Seg m b.toNat l 0 → (∀ y ∈ l, 0 < y) → (∀ c : U32, c.toNat ∈ l → Off x c) →
      findFit (smash m x v) need fuel prev b = findFit m need fuel prev b
  | 0, _, _, _, _, _, _ => rfl
  | fuel + 1, l, prev, b, hs, hpos, hoff => by
    rw [findFit, findFit]
    by_cases hb : b = 0
    · rw [if_pos hb, if_pos hb]
    · rw [if_neg hb, if_neg hb]
      cases l with
      | nil => exact absurd ((eq_zero_iff b).mpr hs) hb
      | cons y l =>
        obtain ⟨rfl, hs⟩ := hs
        have hbo := hoff b List.mem_cons_self
        have hnext : Seg m (blkNext m b).toNat l 0 := by
          have := hbo.fit
          rwa [blkNext_toNat (by omega)]
        have hrec : findFit (smash m x v) need fuel b (blkNext m b) = findFit m need fuel b (blkNext m b) :=
          findFit_smash fuel l b (blkNext m b) hnext (fun z hz => hpos z (List.mem_cons_of_mem _ hz))
            fun c hc => hoff c (List.mem_cons_of_mem _ hc)
        rw [hbo.blkIsFree, hbo.blkSize, hbo.blkNext, hrec]

theorem kmArm_smash {b req tot : U32} (hlo : x < b.toNat ∨ b.toNat + 20 + round4 req.toNat ≤ x)
    (hfit : b.toNat + 20 + round4 req.toNat < 2 ^ 32) :
    kmArm (smash m x v) b req tot = smash (kmArm m b req tot) x v := by
  obtain ⟨hreqOf, hmagicOf, htailOf⟩ := @slots_toNat b req (by omega)
  have h1 : x < (kmReqOf b).toNat ∨ (kmReqOf b).toNat + 4 ≤ x := by omega
  have h2 : x < (kmMagicOf b).toNat ∨ (kmMagicOf b).toNat + 4 ≤ x := by omega
  have h3 : x < (kmTailOf (b + kmHdr) req).toNat ∨ (kmTailOf (b + kmHdr) req).toNat + 4 ≤ x := by omega
  unfold kmArm
  dsimp only
  rw [wr_smash h1, wr_smash h2, wr_smash h3, wr_smash (by omega)]

theorem takeBlock_smash {prev b size need : U32} {n : Nat} (hn : (blkSize s.mem b).toNat = n)
    (hfit : b.toNat + n < 2 ^ 32) (hneed : 20 + round4 size.toNat ≤ need.toNat) (hle : need.toNat ≤ n)
    (hoff : x < b.toNat ∨ b.toNat + n ≤ x) (hprev : prev ≠ 0 → Off x prev) :
    takeBlock (s.smash x v) prev b size need =
      ((takeBlock s prev b size need).1, (takeBlock s prev b size need).2.smash x v) := by
  have hb : Off x b := ⟨by omega, by omega⟩
  have harm : x < b.toNat ∨ b.toNat + 20 + round4 size.toNat ≤ x := by omega
  have hsize : blkSize (s.smash x v).mem b = blkSize s.mem b := hb.blkSize
  unfold takeBlock
  dsimp only
  rw [hsize]
  split
  · rename_i hsplit
    rw [ge_iff_le, BitVec.le_def, toNat_sub_le (by omega), hn] at hsplit
    have hsplit' : 32 ≤ n - need.toNat := hsplit
    have hrest : (b + need).toNat = b.toNat + need.toNat := toNat_add_lt (by omega)
    have hro : Off x (b + need) := ⟨by omega, by omega⟩
    have hmem : (s.smash x v).mem = smash s.mem x v := rfl
    rw [hmem, wr_smash hro.header, hb.blkNext, wr_smash hro.link, kmArm_smash harm (by omega)]
    have hlink := @link_smash x v { s with mem := kmArm (wr (wr s.mem (b + need) (blkSize s.mem b - need))
      (b + need + 4) (blkNext (wr s.mem (b + need) (blkSize s.mem b - need)) b)) b size need } prev
      (b + need) hprev
    exact congrArg (fun t : State => (b + kmHdr, { t with used := t.used + need })) hlink
  · have hmem : (s.smash x v).mem = smash s.mem x v := rfl
    rw [hmem, hb.blkNext, kmArm_smash harm (by omega)]
    have hlink := @link_smash x v { s with mem := kmArm s.mem b size (blkSize s.mem b) } prev
      (blkNext s.mem b) hprev
    exact congrArg (fun t : State => (b + kmHdr, { t with used := t.used + blkSize s.mem b })) hlink

theorem prev_off {pre post : List Blk} {prev : U32} (h : Shape pool s (pre ++ post))
    (hx : Inside pool (pre ++ post) x) (hprev : prev.toNat = lastOr (freeAddrs pool.addr.toNat pre))
    (hne : prev ≠ 0) : Off x prev := by
  have hmem : prev.toNat ∈ freeAddrs pool.addr.toNat pre := by
    have hlast : lastOr (freeAddrs pool.addr.toNat pre) ≠ 0 := hprev ▸ toNat_ne_zero hne
    rw [hprev]
    exact lastOr_mem hlast
  refine (h.off_free hx ?_).1
  rw [freeAddrs_append]
  exact List.mem_append_left _ hmem

theorem kmalloc_smash (h : Heap pool s bs) (hx : Inside pool bs x) (size : U32) :
    kmalloc (s.smash x v) size = (kmalloc s size).map fun r => (r.1, r.2.smash x v) := by
  have hfind : ∀ need, findFit (s.smash x v).mem need kmFuel 0 (s.smash x v).head =
      findFit s.mem need kmFuel 0 s.head := fun need =>
    findFit_smash kmFuel _ 0 s.head h.seg
      (fun y hy => by
        have := h.tiles.free_bounds hy
        have := pool.pos
        omega)
      fun c hc => (h.off_free hx hc).1
  unfold kmalloc
  split
  · rfl
  rename_i hzero
  split
  · rfl
  rename_i hmax
  dsimp only
  rw [hfind]
  rcases h.findFit_cases (roundUp (size + kmHdr + kmTail) kmAlign) with
    hnone | ⟨pre, n, post, prev, b, rfl, hb, hprev, hfit, hfound⟩
  · rw [hnone]
    rfl
  · have hneed := @needed_toNat size (BitVec.not_lt.mp hmax)
    obtain ⟨hat, hok, -, hblt⟩ := h.block_at hb
    have hblt' : b.toNat + n + total post < 2 ^ 32 := hblt
    have hread : (read32 s.mem b.toNat).toNat = n := hat
    have hmem : b.toNat ∈ freeAddrs pool.addr.toNat (pre ++ ⟨n, none⟩ :: post) := by
      rw [freeAddrs_append, hb]
      exact List.mem_append_right _ List.mem_cons_self
    have hoff := (h.off_free hx hmem).2
    rw [hread] at hoff
    have hround : 20 + round4 size.toNat ≤ (roundUp (size + kmHdr + kmTail) kmAlign).toNat := by
      unfold round4
      omega
    rw [hfound]
    dsimp only
    rw [takeBlock_smash (hat.size_eq hok) (by omega) hround hfit hoff (prev_off h.toShape hx hprev)]
    rfl

/-! ## Release beside the byte -/

theorem findSlot_smash {b : U32} : ∀ (fuel : Nat) (l : List Nat) (prev cur : U32),
    Seg m cur.toNat l 0 → (∀ c : U32, c.toNat ∈ l → Off x c) →
      findSlot (smash m x v) b fuel prev cur = findSlot m b fuel prev cur
  | 0, _, _, _, _, _ => rfl
  | fuel + 1, l, prev, cur, hs, hoff => by
    rw [findSlot, findSlot]
    by_cases hcur : cur ≠ 0 ∧ cur < b
    · rw [if_pos hcur, if_pos hcur]
      cases l with
      | nil => exact absurd ((eq_zero_iff cur).mpr hs) hcur.1
      | cons y l =>
        obtain ⟨rfl, hs⟩ := hs
        have hco := hoff cur List.mem_cons_self
        have hnext : Seg m (blkNext m cur).toNat l 0 := by
          have := hco.fit
          rwa [blkNext_toNat (by omega)]
        rw [hco.blkNext]
        exact findSlot_smash fuel l cur (blkNext m cur) hnext fun c hc => hoff c (List.mem_cons_of_mem _ hc)
    · rw [if_neg hcur, if_neg hcur]

theorem kfreeCheck_smash {b : U32} {n r : Nat} (hat : BlkAt m b.toNat ⟨n, some r⟩)
    (hok : Blk.Ok ⟨n, some r⟩) (hfit : b.toNat + n < 2 ^ 32) (hoff : x < b.toNat ∨ b.toNat + n ≤ x) :
    kfreeCheck pool (smash m x v) b = kfreeCheck pool m b := by
  have hroom : 16 + round4 r + 4 ≤ n := (hok.room r rfl).2
  have hb : Off x b := ⟨by omega, by omega⟩
  obtain ⟨hreq, -, htail, -⟩ := hat.live hok hfit
  obtain ⟨hreqOf, hmagicOf, -⟩ := @slots_toNat b (rd m (kmReqOf b)) (by rw [hreq]; omega)
  have h1 : rd (smash m x v) (kmReqOf b) = rd m (kmReqOf b) := rd_smash (by omega)
  have h2 : rd (smash m x v) (kmMagicOf b) = rd m (kmMagicOf b) := rd_smash (by omega)
  have h3 : rd (smash m x v) (kmTailOf (b + kmHdr) (rd m (kmReqOf b))) =
      rd m (kmTailOf (b + kmHdr) (rd m (kmReqOf b))) := rd_smash (by omega)
  unfold kfreeCheck
  dsimp only
  rw [hb.blkIsFree, hb.blkSize, h1, h2, h3]

def coalesce (m : Mem) (prev b : U32) : Mem :=
  let fwd := prev ≠ 0 ∧ prev + blkSize m prev = b
  let m' := if fwd then mergeBlocks m prev b else m
  let a := if fwd then prev else b
  if blkNext m' a ≠ 0 ∧ a + blkSize m' a = blkNext m' a then mergeBlocks m' a (blkNext m' a) else m'

theorem merge_next_smash {b : U32} (hb : Off x b) (hnext : blkNext m b ≠ 0 → Off x (blkNext m b)) :
    (if blkNext (smash m x v) b ≠ 0 ∧ b + blkSize (smash m x v) b = blkNext (smash m x v) b then
      mergeBlocks (smash m x v) b (blkNext (smash m x v) b) else smash m x v) =
    smash (if blkNext m b ≠ 0 ∧ b + blkSize m b = blkNext m b then mergeBlocks m b (blkNext m b) else m) x v := by
  rw [hb.blkNext, hb.blkSize]
  split
  · rename_i hmerge
    exact hb.mergeBlocks (hnext hmerge.1)
  · rfl

theorem Shape.next_off {pre post : List Blk} {n : Nat} {b : U32}
    (h : Shape pool s (pre ++ ⟨n, none⟩ :: post)) (hx : Inside pool (pre ++ ⟨n, none⟩ :: post) x)
    (hb : b.toNat = pool.addr.toNat + total pre) (hne : blkNext s.mem b ≠ 0) :
    Off x (blkNext s.mem b) := by
  obtain ⟨-, hok, -, hfit⟩ := h.block_at hb
  have hn32 : 32 ≤ n := hok.ge
  have hfit' : b.toNat + n + total post < 2 ^ 32 := hfit
  have hnext := h.next_of_free
  rw [← hb, ← blkNext_toNat (by omega)] at hnext
  have hmem : (blkNext s.mem b).toNat ∈ freeAddrs (b.toNat + n) post := by
    cases hl : freeAddrs (b.toNat + n) post with
    | nil =>
      rw [hl] at hnext
      exact absurd ((eq_zero_iff _).mpr hnext) hne
    | cons y l =>
      rw [hl] at hnext
      rw [hnext.1]
      exact List.mem_cons_self
  refine (h.off_free hx ?_).1
  rw [freeAddrs_append, ← hb]
  exact List.mem_append_right _ (List.mem_cons_of_mem _ hmem)

theorem coalesce_smash {pre post : List Blk} {n : Nat} {prev b : U32}
    (h : Shape pool s (pre ++ ⟨n, none⟩ :: post)) (hx : Inside pool (pre ++ ⟨n, none⟩ :: post) x)
    (hb : b.toNat = pool.addr.toNat + total pre)
    (hprev : prev.toNat = lastOr (freeAddrs pool.addr.toNat pre)) (hpre : Coalesced pre) :
    coalesce (smash s.mem x v) prev b = smash (coalesce s.mem prev b) x v := by
  have hmem : b.toNat ∈ freeAddrs pool.addr.toNat (pre ++ ⟨n, none⟩ :: post) := by
    rw [freeAddrs_append, hb]
    exact List.mem_append_right _ List.mem_cons_self
  have hbo := (h.off_free hx hmem).1
  have hpo := prev_off h hx hprev
  obtain ⟨xs, k, hshape, ha, -, -, hallocs, -, htotal⟩ := forward_spec h hb hprev hpre rfl rfl
  have hx' : Inside pool (xs ++ ⟨k, none⟩ :: post) x := by
    obtain ⟨p, r, hp, hlo, hhi⟩ := hx
    refine ⟨p, r, ?_, hlo, hhi⟩
    have hend : pool.addr.toNat + total xs + k = pool.addr.toNat + total pre + n := by omega
    rw [allocs_append] at hp ⊢
    simpa only [allocs, hallocs, hend] using hp
  have hno := hshape.next_off hx' ha
  have htest : (prev ≠ 0 ∧ prev + blkSize (smash s.mem x v) prev = b) ↔
      (prev ≠ 0 ∧ prev + blkSize s.mem prev = b) :=
    and_congr_right fun hne => by rw [(hpo hne).blkSize]
  unfold coalesce
  dsimp only
  by_cases hfwd : prev ≠ 0 ∧ prev + blkSize s.mem prev = b
  · rw [if_pos hfwd, if_pos hfwd] at hno
    rw [if_pos (htest.mpr hfwd), if_pos (htest.mpr hfwd), if_pos hfwd, if_pos hfwd,
      (hpo hfwd.1).mergeBlocks hbo]
    exact merge_next_smash (hpo hfwd.1) hno
  · rw [if_neg hfwd, if_neg hfwd] at hno
    rw [if_neg (fun hs => hfwd (htest.mp hs)), if_neg (fun hs => hfwd (htest.mp hs)), if_neg hfwd,
      if_neg hfwd]
    exact merge_next_smash hbo hno

def inserted (s : State) (prev cur b : U32) : State :=
  link { s with mem := wr (wr s.mem b (blkSize s.mem b)) (b + 4) cur } prev b

theorem insertBlock_eq (s : State) (prev cur b : U32) :
    insertBlock s prev cur b =
      { inserted s prev cur b with mem := coalesce (inserted s prev cur b).mem prev b } := rfl

theorem inserted_smash {prev cur b : U32} (hb : Off x b) (hprev : prev ≠ 0 → Off x prev) :
    inserted (s.smash x v) prev cur b = (inserted s prev cur b).smash x v := by
  have hmem : (s.smash x v).mem = smash s.mem x v := rfl
  unfold inserted
  rw [hmem, hb.blkSize, wr_smash hb.header, wr_smash hb.link]
  exact @link_smash x v { s with mem := wr (wr s.mem b (blkSize s.mem b)) (b + 4) cur } prev b hprev

theorem kfree_smash {pre post : List Blk} {n r : Nat} {q : U32} {s' : State}
    (h : Heap pool s (pre ++ ⟨n, some r⟩ :: post))
    (hq : q.toNat = pool.addr.toNat + total pre + 16) (hx : Inside pool (pre ++ ⟨n, none⟩ :: post) x)
    (hk : kfree pool s q = .ok s') : kfree pool (s.smash x v) q = .ok (s'.smash x v) := by
  have hq0 : q ≠ 0 := fun h0 => by
    have := (eq_zero_iff q).mp h0
    omega
  have hb : (q - kmHdr).toNat = pool.addr.toNat + total pre := by
    have hhdr : kmHdr.toNat = 16 := rfl
    rw [toNat_sub_le (by omega), hhdr, hq]
    omega
  obtain ⟨hat, hok, -, hfit⟩ := h.block_at hb
  have hfit' : (q - kmHdr).toNat + n + total post < 2 ^ 32 := hfit
  obtain ⟨prev, cur, hfound, hprev, hcur⟩ := findSlot_at h.toShape hb
  have hins := insert_shape (h.toShape.with_used (s.used - blkSize s.mem (q - kmHdr))) hb hprev hcur
  have hmem : (q - kmHdr).toNat ∈ freeAddrs pool.addr.toNat (pre ++ ⟨n, none⟩ :: post) := by
    rw [freeAddrs_append, hb]
    exact List.mem_append_right _ List.mem_cons_self
  have hoff := hins.off_free hx hmem
  obtain ⟨hat', -⟩ := hins.block_at hb
  have hread : (read32 _ (q - kmHdr).toNat).toNat = n := hat'
  rw [hread] at hoff
  have hx' : Inside pool (pre ++ ⟨n, some r⟩ :: post) x := by
    obtain ⟨p, k, hp, hlo, hhi⟩ := hx
    refine ⟨p, k, ?_, hlo, hhi⟩
    rw [allocs_append] at hp ⊢
    rcases List.mem_append.mp hp with hp | hp
    · exact List.mem_append_left _ hp
    · exact List.mem_append_right _ (List.mem_cons_of_mem _ hp)
  have hcheck : kfreeCheck pool (s.smash x v).mem (q - kmHdr) = none :=
    (kfreeCheck_smash hat hok (by omega) hoff.2).trans (kfreeCheck_live h.toShape hb)
  have hslot : findSlot (s.smash x v).mem (q - kmHdr) kmFuel 0 (s.smash x v).head = some (prev, cur) :=
    (findSlot_smash kmFuel _ 0 s.head h.seg fun c hc => (h.toShape.off_free hx' hc).1).trans hfound
  have hsize : blkSize (s.smash x v).mem (q - kmHdr) = blkSize s.mem (q - kmHdr) := hoff.1.blkSize
  have hprevOff := prev_off hins hx hprev
  rw [kfree, if_neg hq0] at hk ⊢
  dsimp only at hk ⊢
  rw [kfreeCheck_live h.toShape hb, hfound] at hk
  rw [hcheck, hslot, hsize]
  obtain rfl := Freed.ok.inj hk
  have hput := @inserted_smash x v { s with used := s.used - blkSize s.mem (q - kmHdr) } prev cur
    (q - kmHdr) hoff.1 hprevOff
  have hmerge := @coalesce_smash x v pool _ pre post n prev (q - kmHdr) hins hx hb hprev
    (List.isChain_append.mp h.coalesced).1
  dsimp only
  rw [insertBlock_eq, insertBlock_eq]
  have hstate : ({ s.smash x v with used := (s.smash x v).used - blkSize s.mem (q - kmHdr) } : State) =
      ({ s with used := s.used - blkSize s.mem (q - kmHdr) } : State).smash x v := rfl
  rw [hstate, hput]
  exact congrArg (fun m : Mem => Freed.ok
    { inserted { s with used := s.used - blkSize s.mem (q - kmHdr) } prev cur (q - kmHdr) with mem := m })
    hmerge

theorem read32_low (m : Mem) (b : Nat) : (read32 m b).setWidth 8 = m b :=
  BitVec.setWidth_append_eq_right

theorem canary_byte (h : Tiles m a bs) {p r : Nat} (hp : (p, r) ∈ allocs a bs) :
    m (p + round4 r) = 0x5A := by
  obtain ⟨pre, n, post, rfl, rfl, -, hat, -⟩ := allocs_room h hp
  have hcanary : read32 m (a + total pre + 16 + round4 r) = kmTailMagic := hat.2.2.2
  rw [← read32_low m (a + total pre + 16 + round4 r), hcanary]
  rfl

theorem rd_smash_self {b : U32} (hb : b.toNat = x) (hv : v ≠ 0x5A) :
    rd (smash m x v) b ≠ kmTailMagic := by
  intro h
  have hlow : smash m x v x = v := if_pos ⟨Nat.le_refl x, Nat.lt_succ_self x⟩
  have hbyte := congrArg (BitVec.setWidth 8) h
  rw [rd, hb, read32_low, hlow] at hbyte
  exact hv hbyte

section Smashed
variable {b : U32} {n r : Nat} (hat : BlkAt m b.toNat ⟨n, some r⟩) (hok : Blk.Ok ⟨n, some r⟩)
  (hfit : b.toNat + n < 2 ^ 32) (hv : v ≠ 0x5A)
include hat hok hfit

theorem words_smashed (hv : v ≠ 0x5A) :
    Off (b.toNat + 16 + round4 r) b ∧
      rd (smash m (b.toNat + 16 + round4 r) v) (kmReqOf b) = rd m (kmReqOf b) ∧
      rd (smash m (b.toNat + 16 + round4 r) v) (kmMagicOf b) = rd m (kmMagicOf b) ∧
      rd (smash m (b.toNat + 16 + round4 r) v) (kmTailOf (b + kmHdr) (rd m (kmReqOf b))) ≠ kmTailMagic := by
  have hroom : 16 + round4 r + 4 ≤ n := (hok.room r rfl).2
  obtain ⟨hreq, -, htail, -⟩ := hat.live hok hfit
  obtain ⟨hreqOf, hmagicOf, -⟩ := @slots_toNat b (rd m (kmReqOf b)) (by rw [hreq]; omega)
  exact ⟨⟨by omega, by omega⟩, rd_smash (by omega), rd_smash (by omega), rd_smash_self htail hv⟩

include hv

theorem kfreeCheck_smashed (hlive : kfreeCheck pool m b = none) :
    kfreeCheck pool (smash m (b.toNat + 16 + round4 r) v) b =
      some "kfree: heap overflow (tail canary smashed)" := by
  obtain ⟨hb, hreq, hmagic, htail⟩ := words_smashed hat hok hfit hv
  unfold kfreeCheck at hlive ⊢
  dsimp only at hlive ⊢
  rw [hb.blkIsFree, hb.blkSize, hreq, hmagic]
  split_ifs at hlive ⊢
  rfl

theorem blockDamaged_smashed : blockDamaged (smash m (b.toNat + 16 + round4 r) v) b = true := by
  obtain ⟨hb, hreq, -, htail⟩ := words_smashed hat hok hfit hv
  have hused : blkIsFree m b = false := by
    rw [← Bool.not_eq_true, hat.isFree_iff hok]
    exact Option.some_ne_none r
  unfold blockDamaged
  dsimp only
  rw [hb.blkIsFree, hreq, hused, decide_eq_true htail, Bool.or_true]
  rfl

end Smashed

theorem audit_smashed {pre post : List Blk} {n r : Nat} (h : Shape pool s (pre ++ ⟨n, some r⟩ :: post))
    (hv : v ≠ 0x5A) :
    kmallocAudit pool (s.smash (pool.addr.toNat + total pre + 16 + round4 r) v) = some 1 := by
  have hfuel := h.fuel
  have hsize := h.size
  have hfits := pool.fits
  have hhdr : kmHdr.toNat = 16 := rfl
  obtain ⟨htp, hat, hok, htpost⟩ := tiles_append.mp h.tiles
  have hge : 32 ≤ n := hok.ge
  have hroom : 16 + round4 r + 4 ≤ n := (hok.room r rfl).2
  have hround : round4 r + 20 ≤ n := by omega
  simp only [total_append, total_cons] at hsize
  have hc := changesOnly_smash s.mem (pool.addr.toNat + total pre + 16 + round4 r) v
  have htp' := htp.frame hc fun x hx => Or.inr (Or.inl (by omega))
  have htpost' := htpost.frame hc fun x hx => Or.inl (by dsimp only; omega)
  obtain ⟨q, hq, heq⟩ := auditFrom_tiles (kmFuel - pre.length) 0 htp' (by omega) (Nat.le_refl pool.addr.toNat)
  have hsum : pre.length + (kmFuel - pre.length) = kmFuel := by
    rw [List.length_append] at hfuel
    omega
  rw [hsum] at heq
  rw [← hq] at hat htpost' heq ⊢
  obtain ⟨fuel, hf⟩ : ∃ fuel, kmFuel - pre.length = fuel + 1 + post.length + 1 := by
    refine ⟨kmFuel - pre.length - post.length - 2, ?_⟩
    simp only [List.length_append, List.length_cons] at hfuel
    omega
  have hqo := (words_smashed hat hok (by omega) hv).1
  have hnext : (q + blkSize s.mem q).toNat = q.toNat + n := by
    rw [toNat_add_lt (by rw [hat.size_eq hok]; dsimp only; omega), hat.size_eq hok]
  refine heq.trans ?_
  rw [hf, auditFrom, if_pos]
  · dsimp only
    rw [hqo.blkSize, if_neg (size_checks hat hok (by dsimp only; omega) (by omega)),
      blockDamaged_smashed hat hok (by omega) hv]
    rw [← hnext] at htpost'
    obtain ⟨t, ht, hrest⟩ := auditFrom_tiles (fuel + 1) 1 htpost' (by omega)
      (show pool.addr.toNat ≤ _ by omega)
    rw [Nat.add_comm post.length] at hrest
    exact hrest.trans (auditFrom_end (Nat.succ_pos fuel) (by omega))
  · rw [BitVec.le_def, poolEnd_toNat, toNat_add_lt (by omega), hhdr]
    omega

theorem detected_of_dvd (h : Heap pool s bs) {p : U32} {r : Nat}
    (hp : (p.toNat, r) ∈ allocs pool.addr.toNat bs) (hr : r % 4 = 0) (hv : v ≠ 0x5A) :
    Detected pool (s.smash (p.toNat + r) v) p := by
  obtain ⟨pre, n, post, rfl, hpre⟩ := allocs_split hp
  have hround : round4 r = r := by
    unfold round4
    omega
  have hp0 : p ≠ 0 := fun h0 => by
    have := (eq_zero_iff p).mp h0
    omega
  have hb : (p - kmHdr).toNat = pool.addr.toNat + total pre := by
    have hhdr : kmHdr.toNat = 16 := rfl
    rw [toNat_sub_le (by omega), hhdr, hpre]
    omega
  have hx : p.toNat + r = pool.addr.toNat + total pre + 16 + round4 r := by rw [hpre, hround]
  obtain ⟨hat, hok, -, hfit⟩ := h.block_at hb
  have hfit' : (p - kmHdr).toNat + n + total post < 2 ^ 32 := hfit
  refine ⟨⟨1, ?_, Nat.zero_lt_one⟩, "kfree: heap overflow (tail canary smashed)", ?_⟩
  · rw [hx]
    exact audit_smashed h.toShape hv
  · have hcheck := kfreeCheck_smashed hat hok (by omega) hv (kfreeCheck_live h.toShape hb)
    rw [kfree, if_neg hp0]
    dsimp only
    rw [State.smash, hx, ← hb, hcheck]

theorem not_detected_of_not_dvd (h : Heap pool s bs) {p : U32} {r : Nat}
    (hp : (p.toNat, r) ∈ allocs pool.addr.toNat bs) (hr : r % 4 ≠ 0) :
    ¬ Detected pool (s.smash (p.toNat + r) v) p := by
  rintro ⟨⟨bad, haudit, hbad⟩, -⟩
  have hlt : r < round4 r := by
    unfold round4
    omega
  have hheap : Heap pool (s.smash (p.toNat + r) v) bs :=
    h.write hp ((changesOnly_smash _ _ _).mono fun x hx => by omega)
  rw [hheap.audit] at haudit
  obtain rfl := Option.some.inj haudit
  exact Nat.lt_irrefl 0 hbad

def Conf.overflow (c : Conf) (p n : U32) (v : Byte) : Conf :=
  { c with heap := c.heap.smash (p.toNat + n.toNat) v }

def Spares (p : U32) (c : Conf) : Op → Prop
  | .kfree i => ∀ x, c.live[i]? = some x → x.1 ≠ p
  | _ => True

def SparesAll (pool : Pool) (p : U32) : Conf → List Op → Prop
  | _, [] => True
  | c, o :: os => Spares p c o ∧ ∀ c', step pool c o = some c' → SparesAll pool p c' os

theorem allocs_beside (h : Tiles m a bs) {p r q k : Nat} (hp : (p, r) ∈ allocs a bs)
    (hq : (q, k) ∈ allocs a bs) : (q = p ∧ k = r) ∨ q + k ≤ p ∨ p + round4 r + 4 ≤ q := by
  obtain ⟨pre, n, post, rfl, rfl, hpre, -, -, hpost, -, hn⟩ := allocs_room h hp
  rw [allocs_append] at hq
  rcases List.mem_append.mp hq with hq | hq
  · have := allocs_bounds hpre hq
    omega
  · rcases List.mem_cons.mp hq with he | hq
    · exact Or.inl (Prod.mk.inj he)
    · have := allocs_bounds hpost hq
      omega

theorem smash_fill {y : Nat} {w : Byte} (h : x ≠ y) :
    fill (smash m x v) y 1 w = smash (fill m y 1 w) x v := by
  funext z
  unfold smash fill
  by_cases hz : x ≤ z ∧ z < x + 1
  · rw [if_neg (by omega), if_pos hz, if_pos hz]
  · simp only [if_neg hz]

theorem mem_allocs {c : Conf} (hlive : (userRegions c).Perm (allocs pool.addr.toNat bs)) {p n : U32}
    (h : (p, n) ∈ c.live) : (p.toNat, n.toNat) ∈ allocs pool.addr.toNat bs :=
  hlive.subset (List.mem_map.mpr ⟨(p, n), h, rfl⟩)

theorem step_overflow {c : Conf} (hc : Good pool c) {p n : U32} (hl : (p, n) ∈ c.live) (o : Op)
    (hs : Spares p c o) : ∃ c', step pool c o = some c' ∧ Good pool c' ∧ (p, n) ∈ c'.live ∧
      step pool (c.overflow p n v) o = some (c'.overflow p n v) := by
  obtain ⟨c', hstep, hgood⟩ := step_good hc o
  refine ⟨c', hstep, hgood, ?_⟩
  obtain ⟨bs, hheap, hlive⟩ := hc
  have hp := mem_allocs hlive hl
  have hround := le_round4 n.toNat
  have hover : (c.overflow p n v).heap = c.heap.smash (p.toNat + n.toNat) v := rfl
  have hsame : (c.overflow p n v).live = c.live := rfl
  cases o with
  | kmalloc size =>
    have hin : Inside pool bs (p.toNat + n.toNat) := ⟨p.toNat, n.toNat, hp, by omega, by omega⟩
    have hk := @kmalloc_smash (p.toNat + n.toNat) v bs pool c.heap hheap hin size
    simp only [step] at hstep ⊢
    rw [hover, hk]
    rcases hks : kmalloc c.heap size with _ | ⟨q, s'⟩
    · simp only [hks, reduceCtorEq] at hstep
    · simp only [hks, Option.some.injEq] at hstep
      subst hstep
      refine ⟨?_, rfl⟩
      dsimp only
      split
      · exact hl
      · exact List.mem_cons_of_mem _ hl
  | kfree i =>
    simp only [step, hsame] at hstep ⊢
    rcases hi : c.live[i]? with _ | ⟨q, k⟩
    · simp only [hi, Option.some.injEq] at hstep ⊢
      subst hstep
      exact ⟨hl, rfl⟩
    · have hne : q ≠ p := hs _ hi
      obtain ⟨pre, sz, post, rfl, hq⟩ := allocs_split (mem_allocs hlive (List.mem_of_getElem? hi))
      have hin : Inside pool (pre ++ ⟨sz, none⟩ :: post) (p.toNat + n.toNat) := by
        refine ⟨p.toNat, n.toNat, ?_, by omega, by omega⟩
        rw [allocs_append] at hp ⊢
        rcases List.mem_append.mp hp with hp | hp
        · exact List.mem_append_left _ hp
        · rcases List.mem_cons.mp hp with he | hp
          · exact absurd (BitVec.eq_of_toNat_eq (hq.trans (Prod.mk.inj he).1.symm)) hne
          · exact List.mem_append_right _ hp
      obtain ⟨s', -, hk, -⟩ := kfree_spec hheap hq
      have hk' := @kfree_smash (p.toNat + n.toNat) v pool c.heap _ _ _ _ _ _ hheap hq hin hk
      simp only [hi, hk, Option.some.injEq] at hstep
      subst hstep
      refine ⟨?_, ?_⟩
      · obtain ⟨j, hj⟩ := List.mem_iff_getElem?.mp hl
        refine List.mem_eraseIdx_iff_getElem?.mpr ⟨j, fun hji => ?_, hj⟩
        rw [hji, hi] at hj
        exact hne (Prod.mk.inj (Option.some.inj hj)).1
      · simp only [hk', Conf.overflow]
  | write i off w =>
    simp only [step, hsame] at hstep ⊢
    rcases hi : c.live[i]? with _ | ⟨q, k⟩
    · simp only [hi, Option.some.injEq] at hstep ⊢
      subst hstep
      exact ⟨hl, rfl⟩
    · simp only [hi] at hstep ⊢
      by_cases hoff : off < k.toNat
      · have hbeside := allocs_beside hheap.tiles hp (mem_allocs hlive (List.mem_of_getElem? hi))
        rw [if_pos hoff, Option.some.injEq] at hstep
        subst hstep
        refine ⟨hl, ?_⟩
        rw [if_pos hoff]
        simp only [Conf.overflow, State.smash, smash_fill (show p.toNat + n.toNat ≠ q.toNat + off by omega)]
      · rw [if_neg hoff, Option.some.injEq] at hstep
        subst hstep
        exact ⟨hl, if_neg hoff⟩

theorem run_overflow {p n : U32} : ∀ (later : List Op) {c : Conf}, Good pool c → (p, n) ∈ c.live →
    SparesAll pool p (c.overflow p n v) later →
      ∃ c', run pool (c.overflow p n v) later = some (c'.overflow p n v) ∧ Good pool c' ∧ (p, n) ∈ c'.live
  | [], c, hc, hl, _ => ⟨c, rfl, hc, hl⟩
  | o :: os, c, hc, hl, hs => by
    obtain ⟨c', -, hgood, hl', hstep⟩ := @step_overflow v pool c hc p n hl o hs.1
    obtain ⟨c'', hrun, hc'', hl''⟩ := run_overflow os hgood hl' (hs.2 _ hstep)
    exact ⟨c'', by rw [run, hstep]; exact hrun, hc'', hl''⟩

/-- A write of one byte behind the `n` bytes of a live block is noticed, however long the block is used
on, just when `n` is a multiple of 4. -/
theorem overflow_detected_iff (pool : Pool) (m : Mem) (ops : List Op) {c : Conf}
    (hc : run pool (initConf pool m) ops = some c) {p n : U32} (hl : (p, n) ∈ c.live) {v : Byte}
    (hv : v ≠ c.heap.mem (p.toNat + n.toNat)) :
    (∀ later, SparesAll pool p (c.overflow p n v) later →
      ∃ c', run pool (c.overflow p n v) later = some c' ∧ Detected pool c'.heap p) ↔ n.toNat % 4 = 0 := by
  have hgood : Good pool c := by
    obtain ⟨c', hrun, hc'⟩ := run_good (good_init pool m) ops
    rw [hc] at hrun
    exact Option.some.inj hrun ▸ hc'
  constructor
  · intro h
    obtain ⟨c', hrun, hdet⟩ := h [] trivial
    obtain rfl := Option.some.inj hrun
    obtain ⟨bs, hheap, hlive⟩ := hgood
    by_contra hr
    exact not_detected_of_not_dvd hheap (mem_allocs hlive hl) hr hdet
  · intro hr later hs
    obtain ⟨c', hrun, ⟨bs, hheap, hlive⟩, hl'⟩ := run_overflow later hgood hl hs
    refine ⟨_, hrun, detected_of_dvd hheap (mem_allocs hlive hl') hr fun hv' => hv ?_⟩
    obtain ⟨bs₀, hheap₀, hlive₀⟩ := hgood
    have hround : round4 n.toNat = n.toNat := by
      unfold round4
      omega
    have hbyte := canary_byte hheap₀.tiles (mem_allocs hlive₀ hl)
    rw [hround] at hbyte
    rw [hv', hbyte]

/-- A block of 8 bytes: the write is noticed, also after another allocation. -/
theorem overflow_detected_eight : ∃ c, run default (initConf default zeros) [.kmalloc 8] = some c ∧
    ∃ c', run default (c.overflow 0x1E00010 8 1) [.kmalloc 100] = some c' ∧ Detected default c'.heap 0x1E00010 := by
  refine ⟨_, rfl, ?_⟩
  exact (overflow_detected_iff default zeros [.kmalloc 8] rfl (p := 0x1E00010) (n := 8)
    (List.mem_singleton.mpr rfl) (by decide)).mpr rfl [.kmalloc 100] ⟨trivial, fun _ _ => trivial⟩

theorem overflow_missed : ¬ ∀ (pool : Pool) (m : Mem) (ops : List Op) (c : Conf),
    run pool (initConf pool m) ops = some c → ∀ (p n : U32), (p, n) ∈ c.live → ∀ v : Byte,
      v ≠ c.heap.mem (p.toNat + n.toNat) → Detected pool (c.overflow p n v).heap p := by
  intro h
  obtain ⟨c, hrun, hc⟩ := run_good (good_init default zeros) [.kmalloc 5]
  have hlive : c.live = [(0x1E00010, 5)] := by
    have heval : (run default (initConf default zeros) [.kmalloc 5]).map Conf.live =
        some [(0x1E00010, 5)] := rfl
    rw [hrun] at heval
    exact Option.some.inj heval
  have hmem : ((0x1E00010 : U32), (5 : U32)) ∈ c.live := hlive ▸ List.mem_singleton.mpr rfl
  have hother : c.heap.mem (0x1E00010 + 5) + 1 ≠ c.heap.mem (0x1E00010 + 5) := by
    generalize c.heap.mem (0x1E00010 + 5) = w
    revert w
    decide
  obtain ⟨bs, hheap, hperm⟩ := hc
  exact not_detected_of_not_dvd hheap (mem_allocs hperm hmem) (by decide)
    (h default zeros _ c hrun 0x1E00010 5 hmem _ hother)

end Ezos.Kmalloc
