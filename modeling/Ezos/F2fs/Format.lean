import Ezos.F2fs.Alloc
import Ezos.F2fs.SegmentTable

/-!
# Formatting a volume (`f2fs_format`)

Blocks are put one after the other, and the volume is mounted at the end. Segment counts stay far below 32 bits.
-/

namespace Ezos.F2fs

open Lib.Memory Lib.FaultyStore

set_option autoImplicit false

def fmtBps : Nat := 64
def fmtSeg0 : Nat := 63

structure FmtSizes where
  sitSegs : Nat
  natSegs : Nat
  ssaSegs : Nat
  metaSegs : Nat
  mainSegs : Nat
  sitBlks : Nat
  natBlks : Nat

def fmtStart : FmtSizes :=
  { sitSegs := 2, natSegs := 2, ssaSegs := 1, metaSegs := 7, mainSegs := 0, sitBlks := 1, natBlks := 1 }

def fmtTurn (totalSegs : Nat) (x : FmtSizes) : FmtSizes :=
  let m := totalSegs - x.metaSegs
  let sSegs := max 2 ((x.sitBlks * 2 + fmtBps - 1) / fmtBps)
  let nSegs := max 2 ((x.natBlks * 2 + fmtBps - 1) / fmtBps)
  let aSegs := max 1 ((m + fmtBps - 1) / fmtBps)
  { sitSegs := sSegs
    natSegs := nSegs
    ssaSegs := aSegs
    metaSegs := 2 + sSegs + nSegs + aSegs
    mainSegs := m
    sitBlks := (m + 55 - 1) / 55
    natBlks := (m * fmtBps + 455 - 1) / 455 }

def fmtTurns (totalSegs : Nat) : Nat → FmtSizes → FmtSizes
  | 0, x => x
  | n + 1, x => if (fmtTurn totalSegs x).metaSegs = x.metaSegs then fmtTurn totalSegs x else fmtTurns totalSegs n (fmtTurn totalSegs x)

def fmtSizes (totalSegs : Nat) : FmtSizes :=
  let x := fmtTurns totalSegs 8 fmtStart
  { x with mainSegs := min x.mainSegs (totalSegs - x.metaSegs) }

def fmtSit0 : Nat := fmtSeg0 + 2 * fmtBps
def FmtSizes.nat0 (x : FmtSizes) : Nat := fmtSit0 + x.sitSegs * fmtBps
def FmtSizes.ssa0 (x : FmtSizes) : Nat := x.nat0 + x.natSegs * fmtBps
def FmtSizes.main0 (x : FmtSizes) : Nat := x.ssa0 + x.ssaSegs * fmtBps

def FmtSizes.cdHot (x : FmtSizes) : Nat := if x.mainSegs < 28 then 1 else 3
def FmtSizes.cdCold (x : FmtSizes) : Nat := if x.mainSegs < 28 then (if 3 < x.mainSegs then 2 else 1) else 13
def FmtSizes.cdWarm (x : FmtSizes) : Nat := if x.mainSegs < 28 then x.mainSegs - 1 else 27

def FmtSizes.rootDentryBlk (x : FmtSizes) : Nat := x.main0 + x.cdHot * fmtBps
def FmtSizes.rootInodeBlk (x : FmtSizes) : Nat := x.main0 + 1

def rootNid : U32 := 3
def nodeIno : U32 := 1
def metaIno : U32 := 2

def fmtVer (drive : Byte) (volBlocks : Nat) : U32 :=
  let rnd := (0x9E3779B9 * (drive.setWidth 32 + 1)) ^^^ (BitVec.ofNat 32 volBlocks <<< 11) ^^^ 0xDEECE66D
  let rnd := rnd ^^^ (rnd >>> 15)
  let rnd := rnd * 0x2545F491
  let rnd := rnd ^^^ (rnd >>> 13)
  rnd ||| 1

def putWords (m : Mem) (ws : List (Nat × U32)) : Mem := ws.foldl (fun m w => write32 m w.1 w.2) m

def putHalves (m : Mem) (ws : List (Nat × U16)) : Mem := ws.foldl (fun m w => write16 m w.1 w.2) m

def fmtMbr (partStart : U32) (volBlocks : Nat) : Mem :=
  let m := writeBytes zeros 446 [0x00, 0x00, 0x02, 0x00, 0x83, 0x00, 0x3F, 0xFF]
  let m := putWords m [(454, partStart), (458, BitVec.ofNat 32 (volBlocks * 8))]
  writeBytes m 510 [0x55, 0xAA]

def fmtSb (x : FmtSizes) (totalSegs volBlocks : Nat) : Mem :=
  putWords zeros <| ([(0, superMagic), (sbOffLogSec, 9), (sbOffLogSpb, 3), (sbOffLogBlk, 12), (sbOffLogBps, 6), (24, 1), (28, 1),
    (sbOffBlockCount, BitVec.ofNat 32 volBlocks), (sbOffBlockCount + 4, 0), (44, BitVec.ofNat 32 x.mainSegs),
    (48, BitVec.ofNat 32 totalSegs), (52, 2), (56, BitVec.ofNat 32 x.sitSegs), (60, BitVec.ofNat 32 x.natSegs),
    (64, BitVec.ofNat 32 x.ssaSegs), (sbOffSegMain, BitVec.ofNat 32 x.mainSegs), (72, BitVec.ofNat 32 fmtSeg0),
    (sbOffCpBlkaddr, BitVec.ofNat 32 fmtSeg0), (sbOffSitBlkaddr, BitVec.ofNat 32 fmtSit0),
    (sbOffNatBlkaddr, BitVec.ofNat 32 x.nat0), (sbOffSsaBlkaddr, BitVec.ofNat 32 x.ssa0),
    (sbOffMainBlkaddr, BitVec.ofNat 32 x.main0), (sbOffRootIno, rootNid), (100, nodeIno), (104, metaIno), (1664, 0)]).map
      fun w => (1024 + w.1, w.2)

def f2SetFooter (node : Mem) (nid ino nextBlkaddr cpVer : U32) : Mem :=
  let ft := 4096 - 24
  let m := putWords node [(ft, nid), (ft + 4, ino), (ft + 8, 0)]
  let m := write64 m (ft + 12) ((if cpVer ≠ 0 then cpVer else 1).setWidth 64)
  write32 m (ft + 20) nextBlkaddr

/-- The entries `.` and `..` of the root: the map, the entries behind it and its reserved bytes, and the names. -/
def fmtDentries : Mem :=
  let m := putWords zeros [(30, 0), (34, rootNid), (41, 0), (45, rootNid)]
  let m := putHalves m [(38, 1), (49, 2)]
  let m := writeBytes (writeBytes m 40 [2]) 51 [2]
  writeBytes (writeBytes (writeBytes m 2384 [0x2E]) 2392 [0x2E, 0x2E]) 0 [3]

def fmtRoot (x : FmtSizes) (ver : U32) : Mem :=
  let m := write16 zeros inoOffMode 0x41ED
  let m := putWords m [(12, 2)]
  let m := write64 (write64 m 16 4096) 24 16
  let m := putWords m [(72, 1), (360, BitVec.ofNat 32 x.rootDentryBlk)]
  f2SetFooter m rootNid rootNid (BitVec.ofNat 32 (x.rootInodeBlk + 1)) ver

def fmtSitEntry (m : Mem) (se off type : Nat) : Mem :=
  let m := f2SetBitBe off m (se + 2)
  let m := write16 m se (BitVec.ofNat 16 (1 ||| type <<< sitVblocksShift))
  write64 m (se + 2 + sitVblockMapSize) 1

def fmtSit (x : FmtSizes) (b : Nat) : Mem :=
  let m := if b = 0 then fmtSitEntry zeros 0 1 cursegHotNode else zeros
  if b = x.cdHot / 55 then fmtSitEntry m (x.cdHot % 55 * sitEntrySize) 0 cursegHotData else m

def fmtNat (x : FmtSizes) (b : Nat) : Mem :=
  if b = 0 then
    putWords zeros [(3 * natEntrySize + 1, rootNid), (3 * natEntrySize + 5, BitVec.ofNat 32 x.rootInodeBlk),
      (1 * natEntrySize + 1, nodeIno), (1 * natEntrySize + 5, 1), (2 * natEntrySize + 1, metaIno), (2 * natEntrySize + 5, 1)]
  else zeros

def fmtSum (off : Nat) (kind : Byte) : Mem :=
  write16 (write32 (writeBytes zeros 4091 [kind]) (off * 7) rootNid) (off * 7 + 5) 0

def fmtCpBody (x : FmtSizes) (ver : U32) : Mem :=
  let m := write64 zeros cpOffVer (ver.setWidth 64)
  let m := write64 m 8 (BitVec.ofNat 64 (x.mainSegs * fmtBps))
  let m := write64 m cpOffValidBlocks 2
  let m := putWords m [(24, 2), (28, 2), (cpOffCurNodeSeg, 0), (cpOffCurNodeSeg + 4, 1), (cpOffCurNodeSeg + 8, 2)]
  let m := putWords m ((List.range' 3 5).map fun i => (cpOffCurNodeSeg + i * 4, 0xFFFFFFFF))
  let m := putWords m [(cpOffCurDataSeg, BitVec.ofNat 32 x.cdHot), (cpOffCurDataSeg + 8, BitVec.ofNat 32 x.cdCold),
    (cpOffCurDataSeg + 4, BitVec.ofNat 32 x.cdWarm)]
  let m := putWords m ((List.range' 3 5).map fun i => (cpOffCurDataSeg + i * 4, 0xFFFFFFFF))
  let m := putHalves m ((cpOffCurNodeBlkoff, 2) :: (List.range' 3 5).map fun i => (cpOffCurNodeBlkoff + i * 2, 0))
  let m := putHalves m ((cpOffCurDataBlkoff, 1) :: (List.range' 3 5).map fun i => (cpOffCurDataBlkoff + i * 2, 0))
  putWords m [(32, BitVec.ofNat 32 (x.mainSegs - 6)), (cpOffCkptFlags, cpUmountFlag ||| cpCompactSumFlag), (cpOffPackTotal, 6),
    (cpOffPackStartSum, 1), (cpOffValidNodes, 1), (cpOffValidInodes, 1), (152, 4),
    (cpOffSitVerBytes, BitVec.ofNat 32 (x.sitSegs / 2 * fmtBps / 8)), (160, BitVec.ofNat 32 (x.natSegs / 2 * fmtBps / 8)),
    (cpOffCksumOff, checksumOffset)]

def sealed (cp : Mem) : Mem := write32 cp checksumOffset.toNat (f2Crc32 cp checksumOffset.toNat)

def fmtCp (x : FmtSizes) (ver : U32) : Mem := sealed (fmtCpBody x ver)

def fmtCp2 : Mem := sealed (write32 (write64 zeros cpOffVer 0) cpOffCksumOff checksumOffset)

def fmtNatj (x : FmtSizes) : Mem :=
  write16 (putWords zeros [(2, rootNid), (7, rootNid), (11, BitVec.ofNat 32 x.rootInodeBlk)]) 0 1

def fmtSitjEntry (x : FmtSizes) (m : Mem) (t : Nat) : Mem :=
  let sj := sitJentry t
  let segs : List Nat := [x.cdHot, x.cdWarm, x.cdCold, 0, 1, 2]
  let m := write32 m sj (BitVec.ofNat 32 (segs.getD t 0))
  let m := if t = cursegHotNode then f2SetBitBe 1 m (sj + 6) else if t = cursegHotData then f2SetBitBe 0 m (sj + 6) else m
  let vb := t <<< sitVblocksShift ||| if t = cursegHotNode ∨ t = cursegHotData then 1 else 0
  write64 (write16 m (sj + 4) (BitVec.ofNat 16 vb)) (sj + 4 + 2 + sitVblockMapSize) 1

def fmtSitj (x : FmtSizes) : Mem := write16 ((List.range 6).foldl (fmtSitjEntry x) zeros) 0 6

def fmtCompact (x : FmtSizes) : Mem :=
  write16 (write32 (compactSum (fmtNatj x) (fmtSitj x)) 0 rootNid) 5 0

/-! ## The volume -/

def fmtTable (first copy n : Nat) (block : Nat → Mem) : List (Nat × Mem) :=
  ((List.range n).map fun b => (first + b, block b)) ++ (List.range n).map fun b => (first + copy + b, block b)

def fmtPacks (x : FmtSizes) (ver : U32) : List (Nat × Mem) :=
  [(fmtSeg0, fmtCp x ver), (fmtSeg0 + 5, fmtCp x ver), (fmtSeg0 + 1, fmtCompact x), (fmtSeg0 + 2, fmtSum 1 1),
    (fmtSeg0 + 3, writeBytes zeros 4091 [1]), (fmtSeg0 + 4, writeBytes zeros 4091 [1]),
    (fmtSeg0 + fmtBps, fmtCp2), (fmtSeg0 + fmtBps + 5, fmtCp2)]

def fmtBlocks (x : FmtSizes) (totalSegs volBlocks : Nat) (ver : U32) : List (Nat × Mem) :=
  [(0, fmtSb x totalSegs volBlocks), (x.rootDentryBlk, fmtDentries), (x.rootInodeBlk, fmtRoot x ver)] ++
    (fmtTable fmtSit0 (x.sitSegs * fmtBps) x.sitBlks (fmtSit x) ++
      (fmtTable x.nat0 (x.natSegs * fmtBps) x.natBlks (fmtNat x) ++
        ([(x.ssa0, fmtSum 1 1), (x.ssa0 + x.cdHot, fmtSum 0 0)] ++ fmtPacks x ver)))

def putBlocks (part : U32) (bs : List (Nat × Mem)) (d : Device) : Device :=
  bs.foldl (fun d b => put (blockWrites part (BitVec.ofNat 32 b.1) b.2) d) d

def f2fsFormat (d : Device) (capSecs partStart payload : U32) (drive : Byte) : Option Vol :=
  if capSecs = 0 then none else
  let part := if partStart = 0 then 1 else partStart
  let capBlocks := ((capSecs - part) / 8).toNat
  if capBlocks ≤ fmtSeg0 + 8 * fmtBps then none else
  let totalSegs := (capBlocks - fmtSeg0) / fmtBps
  let volBlocks := fmtSeg0 + totalSegs * fmtBps
  let x := fmtSizes totalSegs
  if x.mainSegs < 8 then none else
  let d := Function.update d 0 (fmtMbr part volBlocks)
  f2fsMount (putBlocks part (fmtBlocks x totalSegs volBlocks (fmtVer drive volBlocks)) d) part payload

end Ezos.F2fs

/-!
## The sizes that formatting settles
-/

namespace Ezos.F2fs

structure Holds (x : FmtSizes) : Prop where
  sit : x.mainSegs ≤ x.sitBlks * 55
  nat : x.mainSegs * 64 ≤ x.natBlks * 455
  sitArea : x.sitBlks ≤ x.sitSegs * 64
  sitNat : x.sitBlks ≤ x.natBlks
  natArea : x.natBlks ≤ x.ssaSegs * 64
  ssaArea : x.mainSegs ≤ x.ssaSegs * 64
  natSegs : 2 ≤ x.natSegs
  sitSegs : 2 ≤ x.sitSegs
  metaSegs : x.metaSegs = 2 + x.sitSegs + x.natSegs + x.ssaSegs

structure Settling (totalSegs : Nat) (x : FmtSizes) : Prop where
  metaLo : 7 ≤ x.metaSegs
  metaHi : x.metaSegs ≤ 8 + totalSegs / 32
  sitLo : totalSegs - 8 - totalSegs / 32 ≤ x.sitBlks * 55
  sitHi : x.sitBlks * 55 ≤ totalSegs + 54
  natHi : x.natBlks * 455 ≤ totalSegs * 64 + 454

variable {totalSegs : Nat} {x : FmtSizes}

theorem fmtTurn_metaSegs (hsit : x.sitBlks * 55 ≤ totalSegs + 54) (hnat : x.natBlks * 455 ≤ totalSegs * 64 + 454)
    (hm : 7 ≤ x.metaSegs) : 7 ≤ (fmtTurn totalSegs x).metaSegs ∧ (fmtTurn totalSegs x).metaSegs ≤ 8 + totalSegs / 32 := by
  unfold fmtTurn fmtBps
  dsimp only
  omega

theorem fmtTurn_settling (hlo : 7 ≤ x.metaSegs) (hhi : x.metaSegs ≤ 8 + totalSegs / 32) (hsit : x.sitBlks * 55 ≤ totalSegs + 54)
    (hnat : x.natBlks * 455 ≤ totalSegs * 64 + 454) : Settling totalSegs (fmtTurn totalSegs x) := by
  obtain ⟨hlo', hhi'⟩ := fmtTurn_metaSegs hsit hnat hlo
  refine ⟨hlo', hhi', ?_, ?_, ?_⟩
  · change _ ≤ (totalSegs - x.metaSegs + 55 - 1) / 55 * 55
    omega
  · change (totalSegs - x.metaSegs + 55 - 1) / 55 * 55 ≤ _
    omega
  · refine Nat.le_trans (Nat.div_mul_le_self _ 455) ?_
    change (totalSegs - x.metaSegs) * 64 + 455 - 1 ≤ _
    omega

theorem fmtTurn_holds (harea : (fmtTurn totalSegs x).sitBlks ≤ (fmtTurn totalSegs x).sitSegs * 64) :
    Holds (fmtTurn totalSegs x) := by
  refine ⟨?_, ?_, harea, ?_, ?_, ?_, Nat.le_max_left _ _, Nat.le_max_left _ _, rfl⟩
  · change totalSegs - x.metaSegs ≤ (totalSegs - x.metaSegs + 55 - 1) / 55 * 55
    omega
  · change (totalSegs - x.metaSegs) * 64 ≤ ((totalSegs - x.metaSegs) * 64 + 455 - 1) / 455 * 455
    omega
  · change (totalSegs - x.metaSegs + 55 - 1) / 55 ≤ ((totalSegs - x.metaSegs) * 64 + 455 - 1) / 455
    omega
  · change ((totalSegs - x.metaSegs) * 64 + 455 - 1) / 455 ≤ max 1 ((totalSegs - x.metaSegs + 64 - 1) / 64) * 64
    omega
  · change totalSegs - x.metaSegs ≤ max 1 ((totalSegs - x.metaSegs + 64 - 1) / 64) * 64
    omega

theorem Settling.area (h : Settling totalSegs x) : (fmtTurn totalSegs x).sitBlks ≤ (fmtTurn totalSegs x).sitSegs * 64 := by
  have h1 := h.metaLo
  have h2 := h.sitLo
  unfold fmtTurn fmtBps
  dsimp only
  omega

theorem Settling.turns (h : Settling totalSegs x) (n : Nat) : Holds (fmtTurns totalSegs (n + 1) x) := by
  induction n generalizing x with
  | zero =>
    have heq : fmtTurns totalSegs 1 x = fmtTurn totalSegs x := by
      rw [fmtTurns, fmtTurns, ite_self]
    rw [heq]
    exact fmtTurn_holds h.area
  | succ n ih =>
    rw [fmtTurns]
    by_cases hstay : (fmtTurn totalSegs x).metaSegs = x.metaSegs
    · rw [if_pos hstay]
      exact fmtTurn_holds h.area
    · rw [if_neg hstay]
      exact ih (fmtTurn_settling h.metaLo h.metaHi h.sitHi h.natHi)

theorem fmtTurns_holds (hbig : 15 ≤ totalSegs) : Holds (fmtTurns totalSegs 8 fmtStart) := by
  rw [fmtTurns]
  by_cases hstay : (fmtTurn totalSegs fmtStart).metaSegs = fmtStart.metaSegs
  · rw [if_pos hstay]
    refine fmtTurn_holds ?_
    unfold fmtTurn fmtStart fmtBps at hstay ⊢
    dsimp only at hstay ⊢
    omega
  · rw [if_neg hstay]
    refine Settling.turns (fmtTurn_settling (by decide) ?_ ?_ ?_) 6
    · change 7 ≤ _
      omega
    · change 1 * 55 ≤ _
      omega
    · change 1 * 455 ≤ _
      omega

theorem fmtTurns_keeps {P : FmtSizes → Prop} {T : Nat} (hstep : ∀ x, P x → P (fmtTurn T x)) (n : Nat) {x : FmtSizes} (hx : P x) :
    P (fmtTurns T n x) := by
  induction n generalizing x with
  | zero => exact hx
  | succ n ih =>
    rw [fmtTurns]
    split
    · exact hstep x hx
    · exact ih (hstep x hx)

theorem fmtTurns_metaSegs (T : Nat) : 7 ≤ (fmtTurns T 8 fmtStart).metaSegs := by
  refine fmtTurns_keeps (P := fun x => 7 ≤ x.metaSegs) (fun x _ => ?_) 8 (Nat.le_refl 7)
  unfold fmtTurn
  dsimp only
  omega

structure FmtOk (totalSegs : Nat) (x : FmtSizes) : Prop extends Holds x where
  main : 8 ≤ x.mainSegs
  total : x.mainSegs + x.metaSegs ≤ totalSegs

theorem fmtSizes_ok (hbig : 15 ≤ totalSegs) (hmain : 8 ≤ (fmtSizes totalSegs).mainSegs) : FmtOk totalSegs (fmtSizes totalSegs) := by
  have h := fmtTurns_holds hbig
  have hle : (fmtSizes totalSegs).mainSegs ≤ (fmtTurns totalSegs 8 fmtStart).mainSegs := Nat.min_le_left _ _
  have hfit : (fmtSizes totalSegs).mainSegs ≤ totalSegs - (fmtTurns totalSegs 8 fmtStart).metaSegs := Nat.min_le_right _ _
  have hmeta : (fmtSizes totalSegs).metaSegs = (fmtTurns totalSegs 8 fmtStart).metaSegs := rfl
  refine ⟨⟨Nat.le_trans hle h.sit, Nat.le_trans (Nat.mul_le_mul_right _ hle) h.nat, h.sitArea, h.sitNat, h.natArea,
    Nat.le_trans hle h.ssaArea, h.natSegs, h.sitSegs, h.metaSegs⟩, hmain, ?_⟩
  omega

end Ezos.F2fs

/-!
# What stands on a formatted volume
-/

namespace Ezos.F2fs

open Lib.Memory Lib.FaultyStore

variable {part : U32} {d : Device} {bs : List (Nat × Mem)} {b : Nat} {m : Mem}

theorem toNat_blk (h : b < 536870912) : (BitVec.ofNat 32 b).toNat = b := by
  rw [BitVec.toNat_ofNat]
  omega

theorem blk_ne {a : Nat} (ha : a < 536870912) (hb : b < 536870912) (hne : b ≠ a) : BitVec.ofNat 32 b ≠ BitVec.ofNat 32 a :=
  fun he => hne (by rw [← toNat_blk hb, ← toNat_blk ha, he])

theorem putBlocks_append (bs bs' : List (Nat × Mem)) :
    putBlocks part (bs ++ bs') d = putBlocks part bs' (putBlocks part bs d) := List.foldl_append

theorem f2ReadBlock_putBlocks_other (hbs : ∀ w ∈ bs, w.1 < 536870912) (hb : b < 536870912) (hout : ∀ w ∈ bs, w.1 ≠ b) :
    f2ReadBlock (putBlocks part bs d) part (BitVec.ofNat 32 b) = f2ReadBlock d part (BitVec.ofNat 32 b) := by
  induction bs generalizing d with
  | nil => rfl
  | cons w bs ih =>
    obtain ⟨hw, hbs⟩ := List.forall_mem_cons.mp hbs
    obtain ⟨hne, hout⟩ := List.forall_mem_cons.mp hout
    refine (ih hbs hout).trans (f2ReadBlock_put_other ?_ ?_ (blk_ne hw hb fun he => hne he.symm))
    · rw [toNat_blk hw]
      exact hw
    · rw [toNat_blk hb]
      exact hb

theorem f2ReadBlock_putBlocks (hbs : ∀ w ∈ bs, w.1 < 536870912) (hmem : (b, m) ∈ bs) (hsame : ∀ w ∈ bs, w.1 = b → w.2 = m)
    {x : Nat} (hx : x < 4096) : f2ReadBlock (putBlocks part bs d) part (BitVec.ofNat 32 b) x = m x := by
  have hb : b < 536870912 := hbs _ hmem
  induction bs generalizing d with
  | nil => exact absurd hmem List.not_mem_nil
  | cons w bs ih =>
    have hbs' := (List.forall_mem_cons.mp hbs).2
    have hrest := (List.forall_mem_cons.mp hsame).2
    by_cases hlater : (b, m) ∈ bs
    · exact ih hbs' hlater hrest
    · obtain rfl := (List.mem_cons.mp hmem).resolve_right hlater
      by_cases hagain : ∀ w ∈ bs, w.1 ≠ b
      · have hother := @f2ReadBlock_putBlocks_other part (put (blockWrites part (BitVec.ofNat 32 b) m) d) bs b hbs' hb hagain
        refine (congrFun hother x).trans (f2ReadBlock_put_same ?_ hx)
        rw [toNat_blk hb]
        exact hb
      · exfalso
        refine hagain fun w hmem' he => hlater ?_
        rw [← he, ← hrest w hmem' he]
        exact hmem'

section
variable {ws : List (Nat × U32)} {hs : List (Nat × U16)} {a : Nat}

def clearOf {α : Type} (ws : List (Nat × α)) (width a n : Nat) : Bool := ws.all fun p => p.1 + width ≤ a || a + n ≤ p.1

theorem clearOf_iff {α : Type} {ws : List (Nat × α)} {width a n : Nat} (h : clearOf ws width a n = true) :
    ∀ p ∈ ws, p.1 + width ≤ a ∨ a + n ≤ p.1 := fun p hp => by
  have hone := List.all_eq_true.mp h p hp
  rwa [Bool.or_eq_true, decide_eq_true_iff, decide_eq_true_iff] at hone

theorem putWords_apart {x : Nat} (h : ∀ p ∈ ws, x < p.1 ∨ p.1 + 4 ≤ x) : putWords m ws x = m x := by
  induction ws generalizing m with
  | nil => rfl
  | cons p ws ih =>
    obtain ⟨hp, hrest⟩ := List.forall_mem_cons.mp h
    change putWords (write32 m p.1 p.2) ws x = m x
    rw [ih hrest]
    exact write32_of_disjoint hp

theorem putHalves_apart {x : Nat} (h : ∀ p ∈ hs, x < p.1 ∨ p.1 + 2 ≤ x) : putHalves m hs x = m x := by
  induction hs generalizing m with
  | nil => rfl
  | cons p hs ih =>
    obtain ⟨hp, hrest⟩ := List.forall_mem_cons.mp h
    change putHalves (write16 m p.1 p.2) hs x = m x
    rw [ih hrest]
    exact write16_of_disjoint hp

theorem putWords_clear {n x : Nat} (h : clearOf ws 4 a n = true) (hlo : a ≤ x) (hhi : x < a + n) : putWords m ws x = m x :=
  putWords_apart fun p hp => by have := clearOf_iff h p hp; omega

theorem putHalves_clear {n x : Nat} (h : clearOf hs 2 a n = true) (hlo : a ≤ x) (hhi : x < a + n) : putHalves m hs x = m x :=
  putHalves_apart fun p hp => by have := clearOf_iff h p hp; omega

theorem read32_putWords_apart (h : clearOf ws 4 a 4 = true) : read32 (putWords m ws) a = read32 m a :=
  read32_congr fun _ => putWords_clear h

theorem read32_putHalves_apart (h : clearOf hs 2 a 4 = true) : read32 (putHalves m hs) a = read32 m a :=
  read32_congr fun _ => putHalves_clear h

theorem read16_putWords_apart (h : clearOf ws 4 a 2 = true) : read16 (putWords m ws) a = read16 m a :=
  read16_congr fun _ => putWords_clear h

theorem read16_putHalves_apart (h : clearOf hs 2 a 2 = true) : read16 (putHalves m hs) a = read16 m a :=
  read16_congr fun _ => putHalves_clear h

theorem read64_putWords_apart (h : clearOf ws 4 a 8 = true) : read64 (putWords m ws) a = read64 m a :=
  read64_congr fun _ => putWords_clear h

theorem read64_putHalves_apart (h : clearOf hs 2 a 8 = true) : read64 (putHalves m hs) a = read64 m a :=
  read64_congr fun _ => putHalves_clear h

theorem read64_write64_of_disjoint {v : U64} {b : Nat} (h : b + 8 ≤ a ∨ a + 8 ≤ b) : read64 (write64 m b v) a = read64 m a :=
  read64_congr fun _ _ _ => write64_of_disjoint (by omega)

theorem read32_putWords (i : Nat) {w : U32} (hi : ws[i]? = some (a, w))
    (h : clearOf (ws.drop (i + 1)) 4 a 4 = true) : read32 (putWords m ws) a = w := by
  obtain ⟨hlt, hget⟩ := List.getElem?_eq_some_iff.mp hi
  have hws : ws = ws.take i ++ (a, w) :: ws.drop (i + 1) := by
    rw [← hget, List.getElem_cons_drop, List.take_append_drop]
  have hsplit : putWords m ws = putWords (write32 (putWords m (ws.take i)) a w) (ws.drop (i + 1)) :=
    (congrArg (putWords m) hws).trans List.foldl_append
  rw [hsplit, read32_putWords_apart h]
  exact read32_write32_self _ _ _

end

theorem sealed_apart {cp : Mem} {x : Nat} (h : x < 4092) : sealed cp x = cp x := write32_of_disjoint (Or.inl h)

theorem read32_sealed {cp : Mem} {a : Nat} (h : a + 4 ≤ 4092) : read32 (sealed cp) a = read32 cp a :=
  read32_congr fun _ _ hx => sealed_apart (by omega)

theorem read64_sealed {cp : Mem} {a : Nat} (h : a + 8 ≤ 4092) : read64 (sealed cp) a = read64 cp a :=
  read64_congr fun _ _ hx => sealed_apart (by omega)

theorem read16_sealed {cp : Mem} {a : Nat} (h : a + 2 ≤ 4092) : read16 (sealed cp) a = read16 cp a :=
  read16_congr fun _ _ hx => sealed_apart (by omega)

theorem cpSound_sealed {cp : Mem} (h : read32 cp cpOffCksumOff = checksumOffset) : CpSound (sealed cp) := by
  constructor
  · rw [read32_sealed (by decide)]
    exact h
  · refine Eq.trans (f2Crc32_congr fun x hx => sealed_apart hx) ?_
    exact (read32_write32_self _ _ _).symm

structure FmtCpFields (x : FmtSizes) (ver : U32) (cp : Mem) : Prop where
  ver : read64 cp cpOffVer = ver.setWidth 64
  nodeSeg : read32 cp cpOffCurNodeSeg = 0
  dataSeg : read32 cp cpOffCurDataSeg = BitVec.ofNat 32 x.cdHot
  nodeOff : read16 cp cpOffCurNodeBlkoff = 2
  dataOff : read16 cp cpOffCurDataBlkoff = 1
  flags : read32 cp cpOffCkptFlags = 5
  total : read32 cp cpOffPackTotal = 6
  startSum : read32 cp cpOffPackStartSum = 1
  sitVerBytes : read32 cp cpOffSitVerBytes = BitVec.ofNat 32 (x.sitSegs / 2 * 64 / 8)
  cksumOff : read32 cp cpOffCksumOff = checksumOffset

theorem fmtCpBody_fields (x : FmtSizes) (ver : U32) : FmtCpFields x ver (fmtCpBody x ver) := by
  unfold fmtCpBody
  dsimp only
  constructor
  · rw [read64_putWords_apart (by rfl), read64_putHalves_apart (by rfl), read64_putHalves_apart (by rfl),
      read64_putWords_apart (by rfl), read64_putWords_apart (by rfl), read64_putWords_apart (by rfl),
      read64_putWords_apart (by rfl), read64_write64_of_disjoint (by decide), read64_write64_of_disjoint (by decide)]
    exact read64_write64_self _ _ _
  · rw [read32_putWords_apart (by rfl), read32_putHalves_apart (by rfl), read32_putHalves_apart (by rfl),
      read32_putWords_apart (by rfl), read32_putWords_apart (by rfl), read32_putWords_apart (by rfl)]
    exact read32_putWords 2 rfl rfl
  · rw [read32_putWords_apart (by rfl), read32_putHalves_apart (by rfl), read32_putHalves_apart (by rfl),
      read32_putWords_apart (by rfl)]
    exact read32_putWords 0 rfl rfl
  · rw [read16_putWords_apart (by rfl), read16_putHalves_apart (by rfl)]
    change read16 (putHalves (write16 _ _ 2) _) _ = 2
    rw [read16_putHalves_apart (by rfl)]
    exact read16_write16_self _ _ _
  · rw [read16_putWords_apart (by rfl)]
    change read16 (putHalves (write16 _ _ 1) _) _ = 1
    rw [read16_putHalves_apart (by rfl)]
    exact read16_write16_self _ _ _
  · exact read32_putWords 1 rfl rfl
  · exact read32_putWords 2 rfl rfl
  · exact read32_putWords 3 rfl rfl
  · exact read32_putWords 7 rfl rfl
  · exact read32_putWords 9 rfl rfl

theorem FmtCpFields.sealed {x : FmtSizes} {ver : U32} {cp : Mem} (h : FmtCpFields x ver cp) :
    FmtCpFields x ver (sealed cp) where
  ver := (read64_sealed (by decide)).trans h.ver
  nodeSeg := (read32_sealed (by decide)).trans h.nodeSeg
  dataSeg := (read32_sealed (by decide)).trans h.dataSeg
  nodeOff := (read16_sealed (by decide)).trans h.nodeOff
  dataOff := (read16_sealed (by decide)).trans h.dataOff
  flags := (read32_sealed (by decide)).trans h.flags
  total := (read32_sealed (by decide)).trans h.total
  startSum := (read32_sealed (by decide)).trans h.startSum
  sitVerBytes := (read32_sealed (by decide)).trans h.sitVerBytes
  cksumOff := (read32_sealed (by decide)).trans h.cksumOff

theorem FmtCpFields.congr {x : FmtSizes} {ver : U32} {cp cp' : Mem} (h : FmtCpFields x ver cp)
    (hsame : ∀ a < 4092, cp' a = cp a) : FmtCpFields x ver cp' where
  ver := (read64_congr fun a _ ha => hsame a (Nat.lt_trans ha (by decide))).trans h.ver
  nodeSeg := (read32_congr fun a _ ha => hsame a (Nat.lt_trans ha (by decide))).trans h.nodeSeg
  dataSeg := (read32_congr fun a _ ha => hsame a (Nat.lt_trans ha (by decide))).trans h.dataSeg
  nodeOff := (read16_congr fun a _ ha => hsame a (Nat.lt_trans ha (by decide))).trans h.nodeOff
  dataOff := (read16_congr fun a _ ha => hsame a (Nat.lt_trans ha (by decide))).trans h.dataOff
  flags := (read32_congr fun a _ ha => hsame a (Nat.lt_trans ha (by decide))).trans h.flags
  total := (read32_congr fun a _ ha => hsame a (Nat.lt_trans ha (by decide))).trans h.total
  startSum := (read32_congr fun a _ ha => hsame a (Nat.lt_trans ha (by decide))).trans h.startSum
  sitVerBytes := (read32_congr fun a _ ha => hsame a (Nat.lt_trans ha (by decide))).trans h.sitVerBytes
  cksumOff := (read32_congr fun a _ ha => hsame a (Nat.lt_trans ha (by decide))).trans h.cksumOff

/-! ## Where the blocks are put -/

theorem mem_fmtTable {first copy n : Nat} {block : Nat → Mem} {w : Nat × Mem} (h : w ∈ fmtTable first copy n block) :
    ∃ b < n, w = (first + b, block b) ∨ w = (first + copy + b, block b) := by
  rcases List.mem_append.mp h with h | h
  · obtain ⟨b, hb, rfl⟩ := List.mem_map.mp h
    exact ⟨b, List.mem_range.mp hb, Or.inl rfl⟩
  · obtain ⟨b, hb, rfl⟩ := List.mem_map.mp h
    exact ⟨b, List.mem_range.mp hb, Or.inr rfl⟩

section
variable {x : FmtSizes} {T V : Nat} {ver : U32} {w : Nat × Mem}

theorem fst_fmtPacks (h : w ∈ fmtPacks x ver) : w.1 ∈ [63, 68, 64, 65, 66, 67, 127, 132] := by
  have hmap : (fmtPacks x ver).map Prod.fst = [63, 68, 64, 65, 66, 67, 127, 132] := rfl
  rw [← hmap]
  exact List.mem_map_of_mem h

theorem mem_fmtBlocks (h : w ∈ fmtBlocks x T V ver) :
    w = (0, fmtSb x T V) ∨ (w = (x.rootDentryBlk, fmtDentries) ∨ w = (x.rootInodeBlk, fmtRoot x ver)) ∨
      w ∈ fmtTable fmtSit0 (x.sitSegs * fmtBps) x.sitBlks (fmtSit x) ∨
      w ∈ fmtTable x.nat0 (x.natSegs * fmtBps) x.natBlks (fmtNat x) ∨
      (w = (x.ssa0, fmtSum 1 1) ∨ w = (x.ssa0 + x.cdHot, fmtSum 0 0)) ∨ w ∈ fmtPacks x ver := by
  unfold fmtBlocks at h
  simpa only [List.mem_append, List.mem_cons, List.not_mem_nil, or_false, or_assoc] using h

structure Placed (x : FmtSizes) (V : Nat) : Prop where
  nat0 : x.nat0 = 191 + x.sitSegs * 64
  ssa0 : x.ssa0 = x.nat0 + x.natSegs * 64
  main0 : x.main0 = x.ssa0 + x.ssaSegs * 64
  fits : x.main0 + x.mainSegs * 64 ≤ V
  small : V < 536870912
  cdHot : 1 ≤ x.cdHot ∧ x.cdHot ≤ 3

theorem FmtOk.placed (ok : FmtOk T x) (hV : V = 63 + T * 64) (hsmall : V < 536870912) : Placed x V := by
  have hm := ok.metaSegs
  have ht := ok.total
  have hnat0 : x.nat0 = 191 + x.sitSegs * 64 := rfl
  have hssa0 : x.ssa0 = x.nat0 + x.natSegs * 64 := rfl
  have hmain0 : x.main0 = x.ssa0 + x.ssaSegs * 64 := rfl
  refine ⟨hnat0, hssa0, hmain0, by omega, hsmall, ?_⟩
  unfold FmtSizes.cdHot
  by_cases hfew : x.mainSegs < 28
  · rw [if_pos hfew]
    decide
  · rw [if_neg hfew]
    decide

theorem FmtOk.blocks (ok : FmtOk T x) (pl : Placed x V) (h : w ∈ fmtBlocks x T V ver) :
    w = (0, fmtSb x T V) ∨ (w = (x.rootDentryBlk, fmtDentries) ∨ w = (x.rootInodeBlk, fmtRoot x ver)) ∨
      (∃ b < x.sitBlks, w = (191 + b, fmtSit x b)) ∨ (x.nat0 ≤ w.1 ∧ w.1 < x.main0) ∨ w ∈ fmtPacks x ver := by
  have hsit := ok.sitNat
  have hnat := ok.natArea
  have hsum := ok.ssaArea
  have hmain := ok.main
  obtain ⟨hnat0, hssa0, hmain0, hfits, hsmall, hhot⟩ := pl
  rcases mem_fmtBlocks h with h | h | h | h | h | h
  · exact Or.inl h
  · exact Or.inr (Or.inl h)
  · obtain ⟨b, hb, rfl | rfl⟩ := mem_fmtTable h
    · exact Or.inr (Or.inr (Or.inl ⟨b, hb, rfl⟩))
    · refine Or.inr (Or.inr (Or.inr (Or.inl ?_)))
      change x.nat0 ≤ x.nat0 + b ∧ x.nat0 + b < _
      omega
  · refine Or.inr (Or.inr (Or.inr (Or.inl ?_)))
    obtain ⟨b, hb, rfl | rfl⟩ := mem_fmtTable h
    · dsimp only
      omega
    · change x.nat0 ≤ x.ssa0 + b ∧ x.ssa0 + b < _
      omega
  · refine Or.inr (Or.inr (Or.inr (Or.inl ?_)))
    rcases h with rfl | rfl
    · dsimp only
      omega
    · dsimp only
      omega
  · exact Or.inr (Or.inr (Or.inr (Or.inr h)))

theorem rootBlks (x : FmtSizes) : x.rootDentryBlk = x.main0 + x.cdHot * 64 ∧ x.rootInodeBlk = x.main0 + 1 := ⟨rfl, rfl⟩

theorem FmtOk.apart (ok : FmtOk T x) (pl : Placed x V) (h : w ∈ fmtBlocks x T V ver) :
    w = (0, fmtSb x T V) ∨ (w ∈ fmtPacks x ver ∧ 63 ≤ w.1 ∧ w.1 < 191) ∨
      (191 ≤ w.1 ∧ w.1 < 536870912 ∧ (w.1 < x.nat0 → ∃ b < x.sitBlks, w = (191 + b, fmtSit x b)) ∧
        (w.1 = x.main0 + 1 → w.2 = fmtRoot x ver)) := by
  have harea := ok.sitArea
  have hmain := ok.main
  have hroot := rootBlks x
  obtain ⟨hnat0, hssa0, hmain0, hfits, hsmall, hhot⟩ := pl
  rcases ok.blocks ⟨hnat0, hssa0, hmain0, hfits, hsmall, hhot⟩ h with h | (rfl | rfl) | ⟨b, hb, rfl⟩ | h | h
  · exact Or.inl h
  · refine Or.inr (Or.inr ⟨?_, ?_, fun hlt => ?_, fun he => ?_⟩) <;> dsimp only at * <;> omega
  · refine Or.inr (Or.inr ⟨?_, ?_, fun hlt => ?_, fun he => rfl⟩) <;> dsimp only at * <;> omega
  · refine Or.inr (Or.inr ⟨?_, ?_, fun hlt => ⟨b, hb, rfl⟩, fun he => ?_⟩) <;> dsimp only at * <;> omega
  · refine Or.inr (Or.inr ⟨?_, ?_, fun hlt => ?_, fun he => ?_⟩) <;> omega
  · have hlt : ∀ a ∈ [63, 68, 64, 65, 66, 67, 127, 132], 63 ≤ a ∧ a < 191 := by decide
    exact Or.inr (Or.inl ⟨h, hlt _ (fst_fmtPacks h)⟩)

theorem FmtOk.blocks_lt (ok : FmtOk T x) (pl : Placed x V) (h : w ∈ fmtBlocks x T V ver) : w.1 < 536870912 := by
  rcases ok.apart pl h with rfl | h | h
  · exact Nat.zero_lt_succ _
  · omega
  · exact h.2.1

variable (ok : FmtOk T x) (pl : Placed x V) {part : U32} {d : Device}
include ok pl

theorem FmtOk.read_sb {a : Nat} (ha : a < 4096) :
    f2ReadBlock (putBlocks part (fmtBlocks x T V ver) d) part 0 a = fmtSb x T V a := by
  have hmem : (0, fmtSb x T V) ∈ fmtBlocks x T V ver := List.mem_cons_self
  refine f2ReadBlock_putBlocks (fun w hw => ok.blocks_lt pl hw) hmem (fun w hw hzero => ?_) ha
  rcases ok.apart pl hw with rfl | h | h
  · rfl
  · omega
  · omega

theorem FmtOk.read_pack {b : Nat} {m : Mem} (hmem : (b, m) ∈ fmtPacks x ver) {a : Nat} (ha : a < 4096) :
    f2ReadBlock (putBlocks part (fmtBlocks x T V ver) d) part (BitVec.ofNat 32 b) a = m a := by
  have hlt : ∀ a ∈ [63, 68, 64, 65, 66, 67, 127, 132], 63 ≤ a ∧ a < 191 := by decide
  have hb := hlt _ (fst_fmtPacks hmem)
  have hmem' : (b, m) ∈ fmtBlocks x T V ver := by
    unfold fmtBlocks
    exact List.mem_append_right _ (List.mem_append_right _ (List.mem_append_right _ (List.mem_append_right _ hmem)))
  refine f2ReadBlock_putBlocks (fun w hw => ok.blocks_lt pl hw) hmem' (fun w hw he => ?_) ha
  rcases ok.apart pl hw with rfl | ⟨h, _⟩ | h
  · dsimp only at he hb
    omega
  · have hnodup : ((fmtPacks x ver).map Prod.fst).Nodup := by
      have hmap : (fmtPacks x ver).map Prod.fst = [63, 68, 64, 65, 66, 67, 127, 132] := rfl
      rw [hmap]
      decide
    exact congrArg Prod.snd (List.inj_on_of_nodup_map hnodup h hmem he)
  · dsimp only at hb
    omega

theorem FmtOk.read_sit {b : Nat} (hb : b < x.sitBlks) {a : Nat} (ha : a < 4096) :
    f2ReadBlock (putBlocks part (fmtBlocks x T V ver) d) part (BitVec.ofNat 32 (191 + b)) a = fmtSit x b a := by
  have harea := ok.sitArea
  have hnat0 := pl.nat0
  have hmem : (191 + b, fmtSit x b) ∈ fmtBlocks x T V ver := by
    unfold fmtBlocks fmtTable
    exact List.mem_append_right _ (List.mem_append_left _ (List.mem_append_left _
      (List.mem_map.mpr ⟨b, List.mem_range.mpr hb, rfl⟩)))
  refine f2ReadBlock_putBlocks (fun w hw => ok.blocks_lt pl hw) hmem (fun w hw he => ?_) ha
  rcases ok.apart pl hw with rfl | h | h
  · dsimp only at he
    omega
  · omega
  · obtain ⟨b', _, rfl⟩ := h.2.2.1 (by omega)
    have hbb : b' = b := by
      dsimp only at he
      omega
    rw [hbb]

theorem FmtOk.read_nat {a : Nat} (ha : a < 4096) :
    f2ReadBlock (putBlocks part (fmtBlocks x T V ver) d) part (BitVec.ofNat 32 x.nat0) a = fmtNat x 0 a := by
  have hpos : 0 < x.natBlks := by
    have := ok.nat
    have := ok.main
    omega
  have hnat0 := pl.nat0
  have htwo := ok.natSegs
  unfold fmtBlocks
  rw [putBlocks_append, putBlocks_append]
  have hmem : (x.nat0, fmtNat x 0) ∈ fmtTable x.nat0 (x.natSegs * fmtBps) x.natBlks (fmtNat x) ++
      ([(x.ssa0, fmtSum 1 1), (x.ssa0 + x.cdHot, fmtSum 0 0)] ++ fmtPacks x ver) :=
    List.mem_append_left _ (List.mem_append_left _ (List.mem_map.mpr ⟨0, List.mem_range.mpr hpos, rfl⟩))
  have hlt : ∀ w ∈ fmtBlocks x T V ver, w.1 < 536870912 := fun w hw => ok.blocks_lt pl hw
  refine f2ReadBlock_putBlocks (fun w hw => hlt w ?_) hmem (fun w hw he => ?_) ha
  · unfold fmtBlocks
    exact List.mem_append_right _ (List.mem_append_right _ hw)
  · have hssa0 := pl.ssa0
    rcases List.mem_append.mp hw with h | h
    · obtain ⟨b, hb, rfl | rfl⟩ := mem_fmtTable h
      · have hzero : b = 0 := by
          dsimp only at he
          omega
        rw [hzero]
      · change x.ssa0 + b = x.nat0 at he
        omega
    · rcases List.mem_append.mp h with h | h
      · have hlow : x.ssa0 ≤ w.1 := by
          rcases List.mem_cons.mp h with rfl | h
          · exact Nat.le_refl _
          · rw [List.mem_singleton.mp h]
            exact Nat.le_add_right _ _
        omega
      · have hlt : ∀ a ∈ [63, 68, 64, 65, 66, 67, 127, 132], 63 ≤ a ∧ a < 191 := by decide
        have := hlt _ (fst_fmtPacks h)
        omega

theorem FmtOk.read_root {a : Nat} (ha : a < 4096) :
    f2ReadBlock (putBlocks part (fmtBlocks x T V ver) d) part (BitVec.ofNat 32 (x.main0 + 1)) a = fmtRoot x ver a := by
  obtain ⟨hnat0, hssa0, hmain0, hfits, hsmall, hhot⟩ := pl
  have hmem : (x.main0 + 1, fmtRoot x ver) ∈ fmtBlocks x T V ver := by
    unfold fmtBlocks
    exact List.mem_append_left _ (List.mem_cons_of_mem _ (List.mem_cons_of_mem _ List.mem_cons_self))
  have pl : Placed x V := ⟨hnat0, hssa0, hmain0, hfits, hsmall, hhot⟩
  refine f2ReadBlock_putBlocks (fun w hw => ok.blocks_lt pl hw) hmem (fun w hw he => ?_) ha
  rcases ok.apart pl hw with rfl | h | h
  · dsimp only at he
    omega
  · omega
  · exact h.2.2.2 he

end

end Ezos.F2fs
