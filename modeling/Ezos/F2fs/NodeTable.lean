import Ezos.F2fs.FormatLogs

/-!
# Setting an entry of the node table (`f2_nat_set`, `f2_journal_add`, `f2_alloc_nid`)

The table has two copies of each block, half a pair of segments apart, and a bitmap tells which of them is read. A reader looks
into the journal first. The writer takes the first copy for both where the bitmap names the second.
-/

namespace Ezos.F2fs

open Lib.Memory Lib.FaultyStore

set_option autoImplicit false

def natEdit (buf : Mem) (nid blkaddr : U32) : Mem :=
  let e := (nid % natEntryPerBlock).toNat * natEntrySize
  write32 (write32 (Function.update buf e 0) (e + 1) (if blkaddr ≠ 0 then nid else 0)) (e + 5) blkaddr

def f2JournalAdd (natj : Mem) (nid blkaddr : U32) : Mem :=
  let n := natJournalCount natj
  match (List.range n).find? fun i => read32 natj (natJentry i) = nid with
  | some i => write32 natj (natJentry i + 9) blkaddr
  | none =>
    if n < natJournalMax then
      let e := natJentry n
      let natj := Function.update (write32 natj e nid) (e + 4) 0
      write16 (write32 (write32 natj (e + 5) nid) (e + 9) blkaddr) 0 (BitVec.ofNat 16 (n + 1))
    else natj

def natBit (v : Vol) (blockOff : U32) : Bool := f2TestBitBe blockOff.toNat (f2NatBitmap v)

/-- The two blocks that `f2_nat_set` writes, in their order. -/
def natBlocks (v : Vol) (nid : U32) : List U32 :=
  let blockOff := nid / natEntryPerBlock
  let addr := natBlockAddr v blockOff
  [addr, if natBit v blockOff then addr else addr + v.geo.bps]

def natPut (v : Vol) (nid blkaddr addr : U32) : Vol := f2WriteBlock v addr (natEdit (f2ReadBlock v.disk v.part addr) nid blkaddr)

def f2NatSet (v : Vol) (nid blkaddr : U32) : Vol :=
  let v := (natBlocks v nid).foldl (fun v addr => natPut v nid blkaddr addr) v
  { v with natj := f2JournalAdd v.natj nid blkaddr }

/-- The blocks of one copy of the table, as `f2_alloc_nid` counts them. -/
def natBlocksCap (g : Geometry) : U32 :=
  let cap := if g.natBlkaddr < g.ssaBlkaddr then (g.ssaBlkaddr - g.natBlkaddr) / 2 else 0
  if 1024 < cap then 1024 else cap

def f2AllocNid (v : Vol) : U32 :=
  let cap := (natBlocksCap v.geo).toNat * natEntryPerBlock.toNat
  (((List.range' 4 (cap - 4)).map (BitVec.ofNat 32)).find? fun nid => f2NatLookup v nid = 0).getD 0

/-- The nids that `f2_alloc_nid` can return. -/
def NatRange (g : Geometry) (nid : U32) : Prop := 4 ≤ nid.toNat ∧ nid.toNat / 455 < (natBlocksCap g).toNat

/-! ## The journal -/

variable {natj : Mem} {nid nid' blkaddr : U32} {i n : Nat}

def JournalTakes (natj : Mem) (nid : U32) : Prop :=
  (∃ i < natJournalCount natj, read32 natj (natJentry i) = nid) ∨ natJournalCount natj < natJournalMax

instance (natj : Mem) (nid : U32) : Decidable (JournalTakes natj nid) :=
  inferInstanceAs (Decidable (_ ∨ _))

theorem f2JournalLookup_congr {natj' : Mem} (hcount : natJournalCount natj' = natJournalCount natj)
    (hkey : ∀ i < natJournalCount natj, read32 natj' (natJentry i) = read32 natj (natJentry i)) :
    ((List.range (natJournalCount natj')).find? fun i => read32 natj' (natJentry i) = nid) =
      (List.range (natJournalCount natj)).find? fun i => read32 natj (natJentry i) = nid := by
  rw [hcount]
  apply List.find?_congr
  intro i hi
  rw [hkey i (List.mem_range.mp hi)]

theorem natJournalCount_write32 (h : 2 ≤ n) : natJournalCount (write32 natj n blkaddr) = natJournalCount natj := by
  rw [natJournalCount, natJournalCount, read16_write32_of_disjoint _ (Or.inr (by omega))]

theorem f2JournalAdd_found (hf : ((List.range (natJournalCount natj)).find? fun i => read32 natj (natJentry i) = nid) = some i) :
    f2JournalLookup (f2JournalAdd natj nid blkaddr) nid' =
      if nid' = nid then blkaddr else f2JournalLookup natj nid' := by
  have hadd : f2JournalAdd natj nid blkaddr = write32 natj (natJentry i + 9) blkaddr := by
    rw [f2JournalAdd]
    simp only [hf]
  have hcount : natJournalCount (write32 natj (natJentry i + 9) blkaddr) = natJournalCount natj :=
    natJournalCount_write32 (by unfold natJentry; omega)
  have hkey : ∀ j < natJournalCount natj, read32 (write32 natj (natJentry i + 9) blkaddr) (natJentry j) = read32 natj (natJentry j) :=
    fun j _ => read32_write32_of_disjoint _ _ (by unfold natJentry jentrySize; omega)
  rw [hadd, f2JournalLookup, f2JournalLookup_congr hcount hkey]
  by_cases hn : nid' = nid
  · rw [if_pos hn, hn, hf]
    exact read32_write32_self _ _ _
  · rw [if_neg hn, f2JournalLookup]
    cases hf' : (List.range (natJournalCount natj)).find? fun j => read32 natj (natJentry j) = nid' with
    | none => rfl
    | some j =>
      have hi := List.find?_some hf
      have hj := List.find?_some hf'
      have hne : j ≠ i := fun he => hn (by rw [← of_decide_eq_true hj, ← of_decide_eq_true hi, he])
      exact read32_write32_of_disjoint _ _ (by unfold natJentry jentrySize; omega)

theorem f2JournalAdd_full (hf : ((List.range (natJournalCount natj)).find? fun i => read32 natj (natJentry i) = nid) = none)
    (hfull : ¬ natJournalCount natj < natJournalMax) : f2JournalAdd natj nid blkaddr = natj := by
  rw [f2JournalAdd]
  simp only [hf, if_neg hfull]

theorem read32_update_of_disjoint {m : Mem} {a b : Nat} {c : Byte} (h : b < a ∨ a + 4 ≤ b) :
    read32 (Function.update m b c) a = read32 m a :=
  read32_congr fun _ _ _ => Function.update_of_ne (by omega) _ _

theorem f2JournalAdd_new (hf : ((List.range (natJournalCount natj)).find? fun i => read32 natj (natJentry i) = nid) = none)
    (hroom : natJournalCount natj < natJournalMax) :
    f2JournalLookup (f2JournalAdd natj nid blkaddr) nid' = if nid' = nid then blkaddr else f2JournalLookup natj nid' := by
  have hmax : natJournalMax = 38 := rfl
  generalize hn : natJournalCount natj = n at hf hroom
  -- the new journal, and what its accesses meet
  generalize hj : f2JournalAdd natj nid blkaddr = natj'
  have hadd : natj' = write16 (write32 (write32 (Function.update (write32 natj (natJentry n) nid) (natJentry n + 4) 0)
      (natJentry n + 5) nid) (natJentry n + 9) blkaddr) 0 (BitVec.ofNat 16 (n + 1)) := by
    rw [← hj, f2JournalAdd]
    simp only [hn, hf, if_pos hroom]
  have hat : natJentry n = 2 + n * 13 := rfl
  have hcount : natJournalCount natj' = n + 1 := by
    have hword : (BitVec.ofNat 16 (n + 1)).toNat = n + 1 := by
      rw [BitVec.toNat_ofNat]
      omega
    rw [hadd, natJournalCount, read16_write16_self, hword]
    omega
  have hkept : ∀ a, 2 ≤ a → a + 4 ≤ natJentry n → read32 natj' a = read32 natj a := by
    intro a hlo hhi
    rw [hadd, read32_write16_of_disjoint _ (Or.inl (by omega)), read32_write32_of_disjoint _ _ (Or.inr (by omega)),
      read32_write32_of_disjoint _ _ (Or.inr (by omega)),
      read32_update_of_disjoint (Or.inr (by omega)), read32_write32_of_disjoint _ _ (Or.inr (by omega))]
  have hkey : read32 natj' (natJentry n) = nid := by
    rw [hadd, read32_write16_of_disjoint _ (Or.inl (by omega)), read32_write32_of_disjoint _ _ (Or.inr (by omega)),
      read32_write32_of_disjoint _ _ (Or.inr (by omega)),
      read32_update_of_disjoint (Or.inr (by omega)), read32_write32_self]
  have hvalue : read32 natj' (natJentry n + 9) = blkaddr := by
    rw [hadd, read32_write16_of_disjoint _ (Or.inl (by omega)), read32_write32_self]
  have hfind : ((List.range (n + 1)).find? fun i => read32 natj' (natJentry i) = nid') =
      ((List.range n).find? fun i => read32 natj (natJentry i) = nid').or (if nid = nid' then some n else none) := by
    rw [List.range_succ, List.find?_append, List.find?_singleton, hkey]
    congr 1
    · apply List.find?_congr
      intro i hi
      rw [List.mem_range] at hi
      have hati : natJentry i = 2 + i * 13 := rfl
      rw [hkept _ (by omega) (by omega)]
    · by_cases h : nid = nid' <;> simp [h]
  rw [f2JournalLookup, hcount, hfind]
  by_cases hsame : nid' = nid
  · rw [if_pos hsame, hsame, hf, if_pos rfl]
    exact hvalue
  · rw [if_neg hsame, if_neg (Ne.symm hsame), Option.or_none, f2JournalLookup, hn]
    cases hf' : (List.range n).find? fun i => read32 natj (natJentry i) = nid' with
    | none => rfl
    | some i =>
      have hi := List.mem_range.mp (List.mem_of_find?_eq_some hf')
      have hati : natJentry i = 2 + i * 13 := rfl
      exact hkept _ (by omega) (by omega)

theorem f2JournalLookup_add (natj : Mem) (nid blkaddr nid' : U32) :
    f2JournalLookup (f2JournalAdd natj nid blkaddr) nid' =
      if nid' = nid then (if JournalTakes natj nid then blkaddr else 0) else f2JournalLookup natj nid' := by
  cases hf : (List.range (natJournalCount natj)).find? fun i => read32 natj (natJentry i) = nid with
  | some i =>
    have hkey := List.find?_some hf
    have htakes : JournalTakes natj nid :=
      .inl ⟨i, List.mem_range.mp (List.mem_of_find?_eq_some hf), of_decide_eq_true hkey⟩
    rw [f2JournalAdd_found hf, if_pos htakes]
  | none =>
    by_cases hroom : natJournalCount natj < natJournalMax
    · have htakes : JournalTakes natj nid := .inr hroom
      rw [f2JournalAdd_new hf hroom, if_pos htakes]
    · have hnot : ¬ JournalTakes natj nid := by
        rintro (⟨i, hi, hkey⟩ | hlt)
        · exact List.find?_eq_none.mp hf i (List.mem_range.mpr hi) (decide_eq_true hkey)
        · exact hroom hlt
      rw [f2JournalAdd_full hf hroom, if_neg hnot]
      by_cases hsame : nid' = nid
      · rw [if_pos hsame, hsame, f2JournalLookup, hf]
      · rw [if_neg hsame]

structure FmtGeometry (g : Geometry) (T : Nat) : Prop where
  big : 15 ≤ T
  small : 63 + T * 64 < 536870912
  main : 8 ≤ (fmtSizes T).mainSegs
  eq : g = fmtGeo (fmtSizes T) (63 + T * 64)

theorem fmtSizes_sitSegs (T : Nat) : (fmtSizes T).sitSegs ≤ T / 64 + 3 := by
  have hkeep := fmtTurns_keeps (T := T) (P := fun x => x.sitBlks * 55 ≤ T + 55 ∧ x.sitSegs ≤ T / 64 + 3)
    (fun x hx => ?_) 8 (x := fmtStart) ⟨by unfold fmtStart; dsimp only; omega, by unfold fmtStart; dsimp only; omega⟩
  · exact hkeep.2
  · obtain ⟨hblks, -⟩ := hx
    unfold fmtTurn fmtBps
    dsimp only
    omega

theorem f2fsFormat_geometry {d : Device} {capSecs partStart payload : U32} {drive : Byte} {v : Vol}
    (h : f2fsFormat d capSecs partStart payload drive = some v) : ∃ T, FmtGeometry v.geo T := by
  obtain ⟨hroom, heq⟩ := f2fsFormat_inv h
  exact ⟨fmtTotal capSecs partStart, hroom.big, hroom.small, hroom.main, by rw [heq]; rfl⟩

variable {v : Vol} {T : Nat} {off off' addr : U32}

def natStart (T : Nat) : Nat := (fmtSizes T).nat0
def natSegs (T : Nat) : Nat := (fmtSizes T).natSegs

theorem FmtGeometry.places (h : FmtGeometry v.geo T) :
    v.geo.bps = 64 ∧ v.geo.natBlkaddr.toNat = natStart T ∧ v.geo.ssaBlkaddr.toNat = natStart T + natSegs T * 64 ∧
      natStart T ≤ 400 + T ∧ natStart T + natSegs T * 64 < 536870912 := by
  have hsmall := h.small
  have ok := fmtSizes_ok h.big h.main
  have pl := ok.placed rfl hsmall
  have hsit := fmtSizes_sitSegs T
  have hnat0 := pl.nat0
  have hssa0 := pl.ssa0
  have hmain0 := pl.main0
  have hfits := pl.fits
  unfold natStart natSegs
  rw [h.eq]
  refine ⟨rfl, ?_, ?_, by omega, by omega⟩
  · exact toNat_blk (by omega)
  · rw [← hssa0]
    exact toNat_blk (by omega)

theorem toNat_natBlockAddr (h : FmtGeometry v.geo T) (hoff : off.toNat < 9439490) :
    (natBlockAddr v off).toNat = natStart T + off.toNat / 64 * 128 + off.toNat % 64 := by
  obtain ⟨hbps, hnat, -, hlow, -⟩ := h.places
  have hsmall := h.small
  have hmask : (64 - 1 : U32).toNat = 2 ^ 6 - 1 := rfl
  have hsix : (64 : U32).toNat = 64 := rfl
  rw [natBlockAddr, hbps, BitVec.toNat_add, BitVec.toNat_add, BitVec.toNat_shiftLeft, BitVec.toNat_mul, BitVec.toNat_udiv,
    BitVec.toNat_and, hmask, Nat.and_two_pow_sub_one_eq_mod, hnat, hsix, Nat.shiftLeft_eq]
  omega

theorem toNat_natBlockAddr_add (h : FmtGeometry v.geo T) (hoff : off.toNat < 9439490) :
    (natBlockAddr v off + v.geo.bps).toNat = natStart T + off.toNat / 64 * 128 + off.toNat % 64 + 64 := by
  obtain ⟨hbps, -, -, hlow, -⟩ := h.places
  have hsmall := h.small
  have hsix : (64 : U32).toNat = 64 := rfl
  rw [BitVec.toNat_add, toNat_natBlockAddr h hoff, hbps, hsix]
  omega

theorem natOff_lt (nid : U32) : (nid / natEntryPerBlock).toNat < 9439490 := by
  have hper : natEntryPerBlock.toNat = 455 := rfl
  have := nid.isLt
  rw [BitVec.toNat_udiv, hper]
  omega

def natReadAddr (v : Vol) (off : U32) : U32 := if natBit v off then natBlockAddr v off + v.geo.bps else natBlockAddr v off

def natCell (v : Vol) (nid : U32) : U32 :=
  read32 (f2ReadBlock v.disk v.part (natReadAddr v (nid / natEntryPerBlock))) ((nid % natEntryPerBlock).toNat * natEntrySize + 5)

theorem f2NatLookup_eq (v : Vol) (nid : U32) :
    f2NatLookup v nid = if f2JournalLookup v.natj nid ≠ 0 then f2JournalLookup v.natj nid else natCell v nid := rfl

theorem natEntry_lt (nid : U32) : (nid % natEntryPerBlock).toNat < 455 := by
  rw [BitVec.toNat_umod]
  exact Nat.mod_lt _ (by decide)

theorem read32_natEdit (buf : Mem) (nid blkaddr nid' : U32) :
    read32 (natEdit buf nid blkaddr) ((nid' % natEntryPerBlock).toNat * natEntrySize + 5) =
      if nid' % natEntryPerBlock = nid % natEntryPerBlock then blkaddr
      else read32 buf ((nid' % natEntryPerBlock).toNat * natEntrySize + 5) := by
  have hsize : natEntrySize = 9 := rfl
  unfold natEdit
  dsimp only
  rw [hsize]
  by_cases hsame : nid' % natEntryPerBlock = nid % natEntryPerBlock
  · rw [if_pos hsame, hsame, read32_write32_self]
  · have hne : (nid' % natEntryPerBlock).toNat ≠ (nid % natEntryPerBlock).toNat := fun he => hsame (BitVec.eq_of_toNat_eq he)
    rw [if_neg hsame, read32_write32_of_disjoint _ _ (by omega), read32_write32_of_disjoint _ _ (by omega),
      read32_update_of_disjoint (by omega)]

theorem nid_eq_iff (nid nid' : U32) :
    nid' = nid ↔ nid' / natEntryPerBlock = nid / natEntryPerBlock ∧ nid' % natEntryPerBlock = nid % natEntryPerBlock := by
  constructor
  · rintro rfl
    exact ⟨rfl, rfl⟩
  · rintro ⟨hdiv, hmod⟩
    have hd := congrArg BitVec.toNat hdiv
    have hm := congrArg BitVec.toNat hmod
    have hper : natEntryPerBlock.toNat = 455 := rfl
    rw [BitVec.toNat_udiv, BitVec.toNat_udiv, hper] at hd
    rw [BitVec.toNat_umod, BitVec.toNat_umod, hper] at hm
    apply BitVec.eq_of_toNat_eq
    omega

theorem natReadAddr_lt (h : FmtGeometry v.geo T) (hoff : off.toNat < 9439490) : (natReadAddr v off).toNat < 536870912 := by
  obtain ⟨-, -, -, hlow, -⟩ := h.places
  have hsmall := h.small
  have hlo := toNat_natBlockAddr h hoff
  have hhi := toNat_natBlockAddr_add h hoff
  unfold natReadAddr
  split <;> omega

theorem natCell_put (h : FmtGeometry v.geo T) (haddr : addr.toNat < 536870912) (nid blkaddr nid' : U32) :
    natCell (natPut v nid blkaddr addr) nid' =
      if natReadAddr v (nid' / natEntryPerBlock) = addr ∧ nid' % natEntryPerBlock = nid % natEntryPerBlock then blkaddr
      else natCell v nid' := by
  have hread := natReadAddr_lt h (natOff_lt nid')
  change read32 (f2ReadBlock (put (blockWrites v.part addr _) v.disk) v.part (natReadAddr v (nid' / natEntryPerBlock))) _ = _
  by_cases hat : natReadAddr v (nid' / natEntryPerBlock) = addr
  · have hentry : (nid' % natEntryPerBlock).toNat * natEntrySize + 5 + 4 ≤ 4096 := by
      have hsize : natEntrySize = 9 := rfl
      have := natEntry_lt nid'
      rw [hsize]
      omega
    rw [hat, read32_congr fun x _ hx => f2ReadBlock_put_same haddr (by omega), read32_natEdit]
    by_cases hmod : nid' % natEntryPerBlock = nid % natEntryPerBlock
    · rw [if_pos hmod, if_pos ⟨rfl, hmod⟩]
    · rw [if_neg hmod, if_neg fun hc => hmod hc.2, natCell, hat]
  · rw [f2ReadBlock_put_other haddr hread hat, if_neg fun hc => hat hc.1]
    rfl

/-! ## One call -/

theorem natPut_bit (v : Vol) (nid blkaddr addr off : U32) :
    natBit (natPut v nid blkaddr addr) off = natBit v off ∧ natReadAddr (natPut v nid blkaddr addr) off = natReadAddr v off :=
  ⟨rfl, rfl⟩

theorem natCell_set (h : FmtGeometry v.geo T) (nid blkaddr nid' : U32) :
    natCell (f2NatSet v nid blkaddr) nid' =
      if nid' = nid ∧ natBit v (nid / natEntryPerBlock) = false then blkaddr else natCell v nid' := by
  generalize hoff : nid / natEntryPerBlock = off
  have hlt : off.toNat < 9439490 := hoff ▸ natOff_lt nid
  have hlt' := natOff_lt nid'
  have hlo := toNat_natBlockAddr h hlt
  have hhi := toNat_natBlockAddr_add h hlt
  have hlo' := toNat_natBlockAddr h hlt'
  have hhi' := toNat_natBlockAddr_add h hlt'
  obtain ⟨-, -, -, hlow, -⟩ := h.places
  have hsmall := h.small
  -- the block that is read of `nid'` is the first copy for `nid` exactly if they share a block whose first copy is read
  have hfirst : natReadAddr v (nid' / natEntryPerBlock) = natBlockAddr v off ↔
      nid' / natEntryPerBlock = off ∧ natBit v off = false := by
    constructor
    · intro hat
      unfold natReadAddr at hat
      split at hat
      · have := congrArg BitVec.toNat hat
        omega
      · rename_i hbit
        have hsame : nid' / natEntryPerBlock = off := by
          have := congrArg BitVec.toNat hat
          exact BitVec.eq_of_toNat_eq (by omega)
        rw [hsame] at hbit
        exact ⟨hsame, by simpa using hbit⟩
    · rintro ⟨hsame, hbit⟩
      rw [hsame, natReadAddr, hbit]
      rfl
  have hsecond : natBit v off = false → natReadAddr v (nid' / natEntryPerBlock) ≠ natBlockAddr v off + v.geo.bps := by
    intro hbit hat
    have hnat := congrArg BitVec.toNat hat
    unfold natReadAddr at hnat
    split at hnat
    · rename_i hbit'
      have hsame : nid' / natEntryPerBlock = off := BitVec.eq_of_toNat_eq (by omega)
      rw [hsame, hbit] at hbit'
      cases hbit'
    · omega
  have hput : natCell (f2NatSet v nid blkaddr) nid' =
      natCell (natPut (natPut v nid blkaddr (natBlockAddr v off)) nid blkaddr
        (if natBit v off then natBlockAddr v off else natBlockAddr v off + v.geo.bps)) nid' := by
    rw [← hoff]
    rfl
  have hgeo : FmtGeometry (natPut v nid blkaddr (natBlockAddr v off)).geo T := h
  have hnid := nid_eq_iff nid nid'
  rw [hoff] at hnid
  rw [hput, natCell_put hgeo (by split <;> omega), natCell_put h (by omega), (natPut_bit v nid blkaddr _ _).2]
  simp only [hnid]
  cases hbit : natBit v off with
  | true => simp [hfirst, hbit]
  | false => simp [hfirst, hsecond hbit, hbit]

theorem f2NatLookup_set (h : FmtGeometry v.geo T) (nid blkaddr nid' : U32) :
    f2NatLookup (f2NatSet v nid blkaddr) nid' =
      if nid' = nid then
        if (JournalTakes v.natj nid ∧ blkaddr ≠ 0) ∨ natBit v (nid / natEntryPerBlock) = false then blkaddr else natCell v nid
      else f2NatLookup v nid' := by
  have hjournal : f2JournalLookup (f2NatSet v nid blkaddr).natj nid' =
      if nid' = nid then (if JournalTakes v.natj nid then blkaddr else 0) else f2JournalLookup v.natj nid' :=
    f2JournalLookup_add v.natj nid blkaddr nid'
  rw [f2NatLookup_eq, hjournal, natCell_set h, f2NatLookup_eq]
  by_cases hsame : nid' = nid
  · subst hsame
    by_cases htakes : JournalTakes v.natj nid'
    · by_cases hzero : blkaddr = 0
      · simp [htakes, hzero]
      · rw [if_pos rfl, if_pos htakes, if_pos hzero, if_pos rfl, if_pos (Or.inl ⟨htakes, hzero⟩)]
    · simp [htakes]
  · simp [hsame]

/-- A call takes if the first copy is the one that is read, if the journal takes the address, or if nothing has to change. -/
def SetTakes (v : Vol) (nid blkaddr : U32) : Prop :=
  natBit v (nid / natEntryPerBlock) = false ∨ (JournalTakes v.natj nid ∧ blkaddr ≠ 0) ∨ natCell v nid = blkaddr

theorem f2NatLookup_set_iff (h : FmtGeometry v.geo T) (nid blkaddr : U32) :
    f2NatLookup (f2NatSet v nid blkaddr) nid = blkaddr ↔ SetTakes v nid blkaddr := by
  rw [f2NatLookup_set h, if_pos rfl, SetTakes]
  by_cases hcond : (JournalTakes v.natj nid ∧ blkaddr ≠ 0) ∨ natBit v (nid / natEntryPerBlock) = false
  · rw [if_pos hcond]
    tauto
  · rw [if_neg hcond]
    tauto

def SetInside (v : Vol) (T : Nat) (nid : U32) : Prop :=
  natBit v (nid / natEntryPerBlock) = true ∨ nid.toNat / 455 < natSegs T / 2 * 64

theorem natBlocksCap_fmt (h : FmtGeometry v.geo T) : (natBlocksCap v.geo).toNat ≤ natSegs T * 32 := by
  obtain ⟨-, hnat, hssa, -, hfit⟩ := h.places
  have hcap : (if v.geo.natBlkaddr < v.geo.ssaBlkaddr then (v.geo.ssaBlkaddr - v.geo.natBlkaddr) / 2 else 0).toNat ≤
      natSegs T * 32 := by
    split
    · have htwo : (2 : U32).toNat = 2 := rfl
      rw [BitVec.toNat_udiv, BitVec.toNat_sub, hnat, hssa, htwo]
      omega
    · exact Nat.zero_le _
  unfold natBlocksCap
  dsimp only
  generalize (if v.geo.natBlkaddr < v.geo.ssaBlkaddr then (v.geo.ssaBlkaddr - v.geo.natBlkaddr) / 2 else 0) = cap at hcap ⊢
  by_cases hbig : 1024 < cap
  · rw [if_pos hbig]
    exact Nat.le_trans (Nat.le_of_lt (BitVec.lt_def.mp hbig)) hcap
  · rw [if_neg hbig]
    exact hcap

theorem natBlocks_inside_iff (h : FmtGeometry v.geo T) (hnid : NatRange v.geo nid) :
    (∀ w ∈ natBlocks v nid, v.geo.natBlkaddr ≤ w ∧ w < v.geo.ssaBlkaddr) ↔ SetInside v T nid := by
  obtain ⟨-, hnat, hssa, -, hfit⟩ := h.places
  have hlt := natOff_lt nid
  have hlo := toNat_natBlockAddr h hlt
  have hhi := toNat_natBlockAddr_add h hlt
  have hoff : (nid / natEntryPerBlock).toNat = nid.toNat / 455 := BitVec.toNat_udiv
  have hcap : nid.toNat / 455 < natSegs T * 32 := Nat.lt_of_lt_of_le hnid.2 (natBlocksCap_fmt h)
  rw [hoff] at hlo hhi
  rw [SetInside, natBlocks]
  simp only [List.mem_cons, List.not_mem_nil, or_false, forall_eq_or_imp, forall_eq, BitVec.le_def, BitVec.lt_def, hnat, hssa, hlo]
  cases natBit v (nid / natEntryPerBlock) with
  | true =>
    rw [if_pos rfl, hlo]
    simp only [true_or, iff_true]
    omega
  | false =>
    rw [if_neg (by decide), hhi]
    simp only [Bool.false_eq_true, false_or]
    omega

def natSets (v : Vol) (l : List (U32 × U32)) : Vol := l.foldl (fun v s => f2NatSet v s.1 s.2) v

def natWritten (v : Vol) : List (U32 × U32) → List U32
  | [] => []
  | s :: l => natBlocks v s.1 ++ natWritten (f2NatSet v s.1 s.2) l

def lastSet (l : List (U32 × U32)) (nid : U32) : Option U32 := (l.reverse.find? fun s => s.1 = nid).map Prod.snd

/-- The table is a map along a run: nodes have the address set last, the others the one they had, and nothing but the table is
written. -/
def NatMap (v : Vol) (l : List (U32 × U32)) : Prop :=
  (∀ nid, f2NatLookup (natSets v l) nid = (lastSet l nid).getD (f2NatLookup v nid)) ∧
    ∀ w ∈ natWritten v l, v.geo.natBlkaddr ≤ w ∧ w < v.geo.ssaBlkaddr

def SetsTake (T : Nat) (v : Vol) : List (U32 × U32) → Prop
  | [] => True
  | s :: l => (SetTakes v s.1 s.2 ∧ SetInside v T s.1) ∧ SetsTake T (f2NatSet v s.1 s.2) l

theorem lastSet_cons (s : U32 × U32) (l : List (U32 × U32)) (nid b : U32) :
    (lastSet (s :: l) nid).getD b = (lastSet l nid).getD (if s.1 = nid then s.2 else b) := by
  rw [lastSet, lastSet, List.reverse_cons, List.find?_append, List.find?_singleton]
  cases l.reverse.find? fun s => s.1 = nid with
  | some t => rfl
  | none => by_cases hs : s.1 = nid <;> simp [hs]

theorem f2Nat_is_map {l : List (U32 × U32)} (h : FmtGeometry v.geo T) (hl : ∀ s ∈ l, NatRange v.geo s.1) (hrun : SetsTake T v l) :
    NatMap v l := by
  induction l generalizing v with
  | nil => exact ⟨fun _ => rfl, by simp [natWritten]⟩
  | cons s l ih =>
    obtain ⟨⟨htakes, hinside⟩, hrest⟩ := hrun
    obtain ⟨hlook, hwrites⟩ := ih (v := f2NatSet v s.1 s.2) h (fun t ht => hl t (List.mem_cons_of_mem _ ht)) hrest
    refine ⟨fun nid => ?_, fun w hw => ?_⟩
    · rw [lastSet_cons]
      refine (hlook nid).trans (congrArg _ ?_)
      by_cases hs : s.1 = nid
      · rw [if_pos hs, ← hs]
        exact (f2NatLookup_set_iff h s.1 s.2).mpr htakes
      · rw [if_neg hs, f2NatLookup_set h, if_neg (Ne.symm hs)]
    · rw [natWritten, List.mem_append] at hw
      rcases hw with hw | hw
      · exact (natBlocks_inside_iff h (hl s List.mem_cons_self)).mpr hinside w hw
      · exact hwrites w hw

def fullVol : Vol where
  disk := fun _ => zeros
  part := 1
  geo := fmtGeo (fmtSizes 20) (63 + 20 * 64)
  startCp := 63
  cpVer := 1
  sitBytes := 8
  cp := fun _ => 0xFF
  natj := fun x => if x = 0 then 38 else 0
  sitj := zeros

def clearVol : Vol := { fullVol with cp := zeros }

theorem fullVol_geometry : FmtGeometry fullVol.geo 20 := ⟨by decide, by decide, by decide, rfl⟩

theorem fullVol_range : NatRange fullVol.geo 4 := ⟨by decide, by decide⟩

theorem fullVol_not_takes : ¬ SetTakes fullVol 4 700 := by
  rintro (hbit | ⟨hjournal, -⟩ | hcell)
  · exact absurd hbit (by decide)
  · exact absurd hjournal (by decide)
  · exact absurd hcell (by decide)

theorem fullVol_loses : ¬ ∀ (v : Vol) (T : Nat) (l : List (U32 × U32)),
    FmtGeometry v.geo T → (∀ s ∈ l, NatRange v.geo s.1) → NatMap v l := by
  intro h
  have hmap := (h fullVol 20 [(4, 700)] fullVol_geometry (by simpa using fullVol_range)).1 4
  exact fullVol_not_takes ((f2NatLookup_set_iff fullVol_geometry 4 700).mp hmap)

theorem f2Nat_is_map_clear : NatMap clearVol [(4, 700), (4, 0)] := by
  refine f2Nat_is_map (v := clearVol) (T := 20) fullVol_geometry (fun s hs => ?_) ⟨⟨.inl (by decide), .inr (by decide)⟩,
    ⟨.inl (by decide), .inr (by decide)⟩, trivial⟩
  have hfour : s.1 = 4 := by
    rcases List.mem_cons.mp hs with rfl | hs
    · rfl
    · rw [List.mem_singleton.mp hs]
  rw [hfour]
  exact fullVol_range

end Ezos.F2fs
