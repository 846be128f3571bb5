import Ezos.Exfat.Format
import Ezos.Lib.Run

/-!
# The cached FAT sector over calls, drives and disks that fail

The cache is one sector under its number on the disk, and 0xFFFFFFFF when there is none. Here every drive has its disk, and each
access is answered as `replies` says: it comes through, or it fails, and a write that fails may leave something else in the sector.
-/

namespace Ezos.Exfat.FatCache

open Lib Lib.Memory

set_option autoImplicit false

inductive Reply where
  | done
  | fails (left : Option Mem)

structure Machine where
  disk : U8 → U32 → Mem
  capacity : U8 → U32
  drive : U8
  info : Info
  partitionStart : U32
  bitmapCluster : U32
  bitmapBytes : U32
  ready : Bool
  fatSectorNo : U32
  fatSector : Mem
  replies : Nat → Reply

def noSector : U32 := 0xFFFFFFFF

def Machine.answered (m : Machine) : Machine := { m with replies := fun i => m.replies (i + 1) }

def Machine.put (m : Machine) (lba : U32) (c : Mem) : Machine :=
  { m with disk := fun d s => if d = m.drive ∧ s = lba then c else m.disk d s }

def Machine.cap (m : Machine) : U32 := m.capacity m.drive

def readSector (m : Machine) (lba : U32) : Option Mem × Machine :=
  match m.replies 0 with
  | .done => (if lba < m.cap then some (m.disk m.drive lba) else none, m.answered)
  | .fails _ => (none, m.answered)

def wrote (m : Machine) (lba : U32) (c : Mem) : Option Mem × Bool :=
  if ¬ lba < m.cap then (none, false) else
  match m.replies 0 with
  | .done => (some (sectorOf c 0), true)
  | .fails left => (left, false)

def writeSector (m : Machine) (lba : U32) (c : Mem) : Bool × Machine :=
  match wrote m lba c with
  | (none, ok) => (ok, m.answered)
  | (some c, ok) => (ok, m.answered.put lba c)

def dropCache (m : Machine) : Machine := { m with fatSectorNo := noSector }

def fatSectorOf (m : Machine) (cluster : U32) : U32 := m.partitionStart + m.info.fatOffset + cluster / 128

def readFatEntry (m : Machine) (cluster : U32) : U32 × Machine :=
  let s := fatSectorOf m cluster
  if m.fatSectorNo = s then (read32 m.fatSector (fatByteOf cluster), m) else
  match readSector m s with
  | (none, m) => (0xFFFFFFFF, dropCache m)
  | (some p, m) => (read32 p (fatByteOf cluster), { m with fatSector := p, fatSectorNo := s })

def writeFatEntry (m : Machine) (cluster value : U32) : Bool × Machine :=
  match readSector m (fatSectorOf m cluster) with
  | (none, m) => (false, m)
  | (some p, m) =>
    match writeSector m (fatSectorOf m cluster) (write32 p (fatByteOf cluster) value) with
    | (false, m) => (false, m)
    | (true, m) => (true, dropCache m)

def setDrive (m : Machine) (drive : U8) : Machine :=
  { (if drive ≠ m.drive then dropCache m else m) with drive := drive }

/-- An access of a call that gives up at the first one that fails; what is written may depend on what was read. -/
inductive Access where
  | read (lba : U32)
  | write (lba : U32) (c : List Mem → Mem)

def perform : List Access → List Mem → Machine → Bool × Machine
  | [], _, m => (true, m)
  | .read lba :: as, got, m =>
    match readSector m lba with
    | (none, m) => (false, m)
    | (some p, m) => perform as (got ++ [p]) m
  | .write lba c :: as, got, m =>
    match writeSector m lba (c got) with
    | (false, m) => (false, m)
    | (true, m) => perform as got m

def regionOf (got : List Mem) : Mem := fun x => got.getD (x / 512) zeros (x % 512)

def bootAccesses (part : U32) (info : Info) (volumeLength : U32) : List Access :=
  [.write 0 fun _ => mbrSector part volumeLength, .write part fun _ => vbrSector part info] ++
  ((List.range 11).map fun s => .read (part + BitVec.ofNat 32 s)) ++
  [.write (part + 11) fun got => bootChecksumSector (regionOf got), .write (part + 12) fun _ => vbrSector part info,
    .write (part + 23) fun got => bootChecksumSector (regionOf got)]

def fatAccesses (part : U32) (info : Info) : List Access :=
  (List.range info.fatLength.toNat).map fun s =>
    .write (part + info.fatOffset + BitVec.ofNat 32 s) fun _ => formatFatSector info.clusterCount s

def writeCluster (m : Machine) (cluster : U32) (buf : Mem) : Bool × Machine :=
  if ¬ (2 ≤ cluster ∧ cluster < m.info.clusterCount + 2) then (false, m) else
  let first := m.partitionStart + m.info.clusterHeapOffset + (cluster - 2) * BitVec.ofNat 32 m.info.sectorsPerCluster
  perform ((List.range m.info.sectorsPerCluster).map fun i =>
    .write (first + BitVec.ofNat 32 i) fun _ => sectorOf buf (i * 512)) [] m

def writeClusters : List (U32 × Mem) → Machine → Bool × Machine
  | [], m => (true, m)
  | (cluster, buf) :: cs, m =>
    match writeCluster m cluster buf with
    | (false, m) => (false, m)
    | (true, m) => writeClusters cs m

def metadataClusters (clusterCount : U32) : List (U32 × Mem) :=
  [(2, rootCluster clusterCount)] ++
  ((List.range (bmpClusters clusterCount).toNat).map fun i => (bmpFirst + BitVec.ofNat 32 i, formatBitmap clusterCount i)) ++
  [(upcaseFirst clusterCount, upcaseCluster)]

def formatPrepared (m : Machine) (part : U32) : Machine :=
  { m with
    partitionStart := part
    info := { m.info with fatOffset := fatOffset, rootDirCluster := 2, sectorsPerCluster := 1, spc_pos := Nat.one_pos,
                          spc_le := one_le_spc } }

def formatPlanned (m : Machine) (volumeLength : U32) : Machine :=
  { m with info := { m.info with
      fatLength := formatFatLength volumeLength
      clusterHeapOffset := formatHeap volumeLength
      clusterCount := formatClusterCount volumeLength
      volumeLength := volumeLength.setWidth 64 } }

def firstAccesses (m : Machine) (volumeLength : U32) : List Access :=
  bootAccesses m.partitionStart m.info volumeLength ++ fatAccesses m.partitionStart m.info

def formatWrites (m : Machine) (volumeLength : U32) : Bool × Machine :=
  match perform (firstAccesses m volumeLength) [] m with
  | (false, m) => (false, m)
  | (true, m) =>
    match writeClusters (metadataClusters m.info.clusterCount) (dropCache m) with
    | (false, m) => (false, m)
    | (true, m) =>
      (true, { m with bitmapCluster := bmpFirst, bitmapBytes := bmpBytes m.info.clusterCount, ready := true })

def formatRefused (cap partStart : U32) : Prop :=
  cap = 0 ∨ cap ≤ formatPartStart partStart + 64 ∨ formatClusterCount (formatVolumeLength cap partStart) < 16

instance (cap partStart : U32) : Decidable (formatRefused cap partStart) := inferInstanceAs (Decidable (_ ∨ _))

def format (m : Machine) (partStart : U32) : Bool × Machine :=
  let volumeLength := formatVolumeLength m.cap partStart
  let prepared := formatPrepared m (formatPartStart partStart)
  if formatRefused m.cap partStart then (false, prepared)
  else formatWrites (formatPlanned prepared volumeLength) volumeLength

/-! ## Mounting -/

def isVbr (p : Mem) : Bool := p 0 == 0xEB && p 1 == 0x76 && p 2 == 0x90

def findVolume (mbr : Mem) : List Nat → Machine → Option U32 × Machine
  | [], m => (none, m)
  | i :: is, m =>
    let e := 446 + i * 16
    if mbr (e + 4) = 0 then findVolume mbr is m else
    match readSector m (read32 mbr (e + 8)) with
    | (none, m) => findVolume mbr is m
    | (some p, m) => if isVbr p then (some (read32 mbr (e + 8)), m) else findVolume mbr is m

def findWhole (m : Machine) : Option U32 × Machine :=
  match readSector m 0 with
  | (none, m) => (none, m)
  | (some p, m) => (if isVbr p then some 0 else none, m)

def readSectors (first : U32) (buf : Mem) (off : Nat) : List Nat → Machine → Bool × Mem × Machine
  | [], m => (true, buf, m)
  | i :: is, m =>
    match readSector m (first + BitVec.ofNat 32 i) with
    | (none, m) => (false, buf, m)
    | (some p, m) => readSectors first (copyIn buf (off + i * 512) 512 p) off is m

def readCluster (m : Machine) (cluster : U32) (buf : Mem) (off : Nat) : Bool × Mem × Machine :=
  if ¬ (2 ≤ cluster ∧ cluster < m.info.clusterCount + 2) then (false, buf, m) else
  readSectors (m.partitionStart + m.info.clusterHeapOffset + (cluster - 2) * BitVec.ofNat 32 m.info.sectorsPerCluster) buf off
    (List.range m.info.sectorsPerCluster) m

/-- The loop of `exfat_read_dir_chain` with `n` clusters read and room for `k` more. -/
def readDirChain (m : Machine) (cur : U32) (buf : Mem) (n : Nat) : Nat → Nat × Mem × Machine
  | 0 => (n, buf, m)
  | k + 1 =>
    if 2 ≤ cur ∧ cur < m.info.clusterCount + 2 ∧ n < (m.info.clusterCount + 2).toNat ∧ (n + 1) * m.info.clusterSize ≤ 8192 then
      match readCluster m cur buf (n * m.info.clusterSize) with
      | (false, buf, m) => (n, buf, m)
      | (true, buf, m) =>
        match readFatEntry m cur with
        | (cur, m) => if 0xFFFFFFF8 ≤ cur then (n + 1, buf, m) else readDirChain m cur buf (n + 1) k
    else (n, buf, m)

def findBitmap (buf : Mem) (total : Nat) : List Nat → Option (U32 × U32)
  | [] => none
  | i :: is =>
    let off := i * 32
    if buf off = 0 then none
    else if buf off = 0x81 then
      let p := if off + 64 ≤ total ∧ buf (off + 32) = 0xC0 then off + 32 else off
      let dl := read64 buf (p + 0x18)
      some (read32 buf (p + 0x14), if dl ≤ 0xFFFFFFFF then dl.setWidth 32 else 0)
    else findBitmap buf total is

def noteBitmap (m : Machine) : Option (U32 × U32) → Machine
  | none => m
  | some (cluster, bytes) =>
    { m with
      bitmapCluster := if 2 ≤ cluster ∧ cluster < m.info.clusterCount + 2 then cluster else m.bitmapCluster
      bitmapBytes := bytes }

theorem shift_pos (n : Nat) : 0 < 2 ^ n := Nat.two_pow_pos n

theorem shift_le {n : Nat} (h : n ≤ 4) : 2 ^ n ≤ 16 := Nat.pow_le_pow_right (by decide) h

def infoOf (vbr : Mem) (h : (vbr 0x6D).toNat ≤ 4) : Info where
  volumeLength := read64 vbr 0x48
  fatOffset := read32 vbr 0x50
  fatLength := read32 vbr 0x54
  clusterHeapOffset := read32 vbr 0x58
  clusterCount := read32 vbr 0x5C
  rootDirCluster := read32 vbr 0x60
  sectorsPerCluster := 2 ^ (vbr 0x6D).toNat
  spc_pos := shift_pos _
  spc_le := shift_le h

def mountVolume (vbr : Mem) (m : Machine) : Int × Machine :=
  if isVbr vbr = false then (-1, m)
  else if vbr 0x6C < 9 ∨ 12 < vbr 0x6C then (-1, m)
  else if h : (vbr 0x6D).toNat ≤ 4 then
    let m := { m with info := infoOf vbr h }
    -- the geometry is noted before other sector sizes are refused
    if vbr 0x6C ≠ 9 then (-1, m) else
    match readDirChain m m.info.rootDirCluster zeros 0 16 with
    | (n, buf, m) =>
      let total := n * m.info.clusterSize
      (0, { noteBitmap m (findBitmap buf total (List.range ((total + 31) / 32))) with ready := true })
  else (-1, m)

def init (m : Machine) : Int × Machine :=
  let m := { dropCache m with bitmapBytes := 0 }
  match readSector m 0 with
  | (none, m) => (-1, m)
  | (some mbr, m) =>
    let (found, m) := if mbr 510 = 0x55 ∧ mbr 511 = 0xAA then findVolume mbr [0, 1, 2, 3] m else (none, m)
    let (found, m) := match found with
      | some part => (some part, m)
      | none => findWhole m
    match found with
    | none => (-2, m)
    | some part =>
      match readSector { m with partitionStart := part } part with
      | (none, m) => (-1, m)
      | (some vbr, m) => mountVolume vbr m

inductive Op where
  | readFat (cluster : U32)
  | writeFat (cluster value : U32)
  | format (partStart : U32)
  | init
  | setDrive (drive : U8)

def Op.run (m : Machine) : Op → Machine
  | .readFat c => (readFatEntry m c).2
  | .writeFat c value => (writeFatEntry m c value).2
  | .format partStart => (FatCache.format m partStart).2
  | .init => (FatCache.init m).2
  | .setDrive drive => FatCache.setDrive m drive

def stored (m : Machine) (cluster : U32) : U32 := read32 (m.disk m.drive (fatSectorOf m cluster)) (fatByteOf cluster)

def ReadsTrue (m : Machine) (cluster : U32) : Prop :=
  (readFatEntry m cluster).1 = stored m cluster ∨
    ((readSector m (fatSectorOf m cluster)).1 = none ∧ (readFatEntry m cluster).1 = 0xFFFFFFFF)

def Coherent (m : Machine) : Prop := m.fatSectorNo ≠ noSector → m.fatSector = m.disk m.drive m.fatSectorNo

variable {m m' : Machine} {lba s c : U32} {p : Mem} {as : List Access} {got : List Mem}

structure SameCache (m m' : Machine) : Prop where
  drive : m'.drive = m.drive
  no : m'.fatSectorNo = m.fatSectorNo
  sector : m'.fatSector = m.fatSector

theorem SameCache.refl (m : Machine) : SameCache m m := ⟨rfl, rfl, rfl⟩

theorem SameCache.trans {m'' : Machine} (h : SameCache m m') (h' : SameCache m' m'') : SameCache m m'' :=
  ⟨h'.drive.trans h.drive, h'.no.trans h.no, h'.sector.trans h.sector⟩

theorem SameCache.coherent (h : SameCache m m')
    (hdisk : m.fatSectorNo ≠ noSector → m'.disk m.drive m.fatSectorNo = m.disk m.drive m.fatSectorNo) (hm : Coherent m) :
    Coherent m' := by
  intro hno
  rw [h.no] at hno
  rw [h.sector, h.drive, h.no, hdisk hno]
  exact hm hno

theorem coherent_dropCache (m : Machine) : Coherent (dropCache m) := fun h => absurd rfl h

theorem readSector_snd (m : Machine) (lba : U32) : (readSector m lba).2 = m.answered := by
  rw [readSector]
  split <;> rfl

theorem readSector_some (h : (readSector m lba).1 = some p) : p = m.disk m.drive lba ∧ lba < m.cap := by
  rw [readSector] at h
  split at h
  · rw [Option.ite_none_right_eq_some] at h
    exact ⟨(Option.some.inj h.2).symm, h.1⟩
  · cases h

theorem coherent_answered (h : Coherent m) : Coherent m.answered := h

theorem readFatEntry_cases (m : Machine) (c : U32) :
    (m.fatSectorNo = fatSectorOf m c ∧ readFatEntry m c = (read32 m.fatSector (fatByteOf c), m)) ∨
    (m.fatSectorNo ≠ fatSectorOf m c ∧ (readSector m (fatSectorOf m c)).1 = none ∧
      readFatEntry m c = (0xFFFFFFFF, dropCache m.answered)) ∨
    (m.fatSectorNo ≠ fatSectorOf m c ∧ fatSectorOf m c < m.cap ∧ readFatEntry m c = (stored m c,
      { m.answered with fatSector := m.disk m.drive (fatSectorOf m c), fatSectorNo := fatSectorOf m c })) := by
  by_cases hno : m.fatSectorNo = fatSectorOf m c
  · refine .inl ⟨hno, ?_⟩
    rw [readFatEntry]
    exact if_pos hno
  · have hsnd := readSector_snd m (fatSectorOf m c)
    have hread : readFatEntry m c = match readSector m (fatSectorOf m c) with
        | (none, m) => (0xFFFFFFFF, dropCache m)
        | (some p, m') => (read32 p (fatByteOf c), { m' with fatSector := p, fatSectorNo := fatSectorOf m c }) := by
      rw [readFatEntry]
      exact if_neg hno
    rw [hread]
    cases hr : readSector m (fatSectorOf m c) with
    | mk r m1 =>
      rw [hr] at hsnd
      obtain rfl : m1 = m.answered := hsnd
      cases r with
      | none => exact .inr (.inl ⟨hno, rfl, rfl⟩)
      | some p =>
        have hsome : (readSector m (fatSectorOf m c)).1 = some p := by rw [hr]
        obtain ⟨rfl, hlt⟩ := readSector_some hsome
        exact .inr (.inr ⟨hno, hlt, rfl⟩)

theorem Coherent.readFatEntry (h : Coherent m) (c : U32) : Coherent (FatCache.readFatEntry m c).2 := by
  rcases readFatEntry_cases m c with ⟨-, hr⟩ | ⟨-, -, hr⟩ | ⟨-, -, hr⟩
  · rw [hr]
    exact h
  · rw [hr]
    exact coherent_dropCache _
  · rw [hr]
    exact fun _ => rfl

theorem Coherent.readsTrue (h : Coherent m) (hc : fatSectorOf m c ≠ noSector ∨ m.fatSectorNo ≠ noSector) : ReadsTrue m c := by
  rcases readFatEntry_cases m c with ⟨hno, hr⟩ | ⟨-, hnone, hr⟩ | ⟨-, -, hr⟩
  · have hcached : m.fatSectorNo ≠ noSector := by
      rcases hc with hc | hc
      · rw [hno]
        exact hc
      · exact hc
    refine .inl ?_
    rw [hr, stored, ← hno, ← h hcached]
  · exact .inr ⟨hnone, by rw [hr]⟩
  · exact .inl (by rw [hr])

/-! ## Writes -/

def changed : List Access → List Mem → Machine → List U32
  | [], _, _ => []
  | .read lba :: as, got, m =>
    match readSector m lba with
    | (none, _) => []
    | (some p, m) => changed as (got ++ [p]) m
  | .write lba c :: as, got, m =>
    (if (wrote m lba (c got)).1.isSome then [lba] else []) ++
      match writeSector m lba (c got) with
      | (false, _) => []
      | (true, m) => changed as got m

theorem writeSector_cases (m : Machine) (lba : U32) (c : Mem) :
    ((wrote m lba c).1 = none ∧ writeSector m lba c = ((wrote m lba c).2, m.answered)) ∨
    (∃ left, (wrote m lba c).1 = some left ∧ lba < m.cap ∧ writeSector m lba c = ((wrote m lba c).2, m.answered.put lba left)) := by
  have hpast : ¬ lba < m.cap → (wrote m lba c).1 = none := by
    intro h
    rw [wrote, if_pos h]
  rw [writeSector]
  cases hw : wrote m lba c with
  | mk left ok =>
    rw [hw] at hpast
    cases left with
    | none => exact .inl ⟨rfl, rfl⟩
    | some left =>
      refine .inr ⟨left, rfl, Decidable.byContradiction fun h => ?_, rfl⟩
      cases hpast h

theorem disk_put_of_ne {left : Mem} {d : U8} (h : s ≠ lba) : (m.put lba left).disk d s = m.disk d s :=
  if_neg fun hand => h hand.2

theorem sameCache_writeSector (m : Machine) (lba : U32) (c : Mem) : SameCache m (writeSector m lba c).2 := by
  rcases writeSector_cases m lba c with ⟨-, hw⟩ | ⟨left, -, -, hw⟩
  · rw [hw]
    exact ⟨rfl, rfl, rfl⟩
  · rw [hw]
    exact ⟨rfl, rfl, rfl⟩

theorem disk_writeSector (d : U8) (c : Mem) (hs : s ∉ if (wrote m lba c).1.isSome then [lba] else []) :
    (writeSector m lba c).2.disk d s = m.disk d s := by
  rcases writeSector_cases m lba c with ⟨-, hw⟩ | ⟨left, hleft, -, hw⟩
  · rw [hw]
    rfl
  · rw [hleft, Option.isSome_some, if_pos rfl] at hs
    rw [hw]
    exact disk_put_of_ne fun he => hs (he ▸ List.mem_singleton_self lba)

theorem sameCache_perform (as : List Access) (got : List Mem) (m : Machine) : SameCache m (perform as got m).2 := by
  induction as generalizing got m with
  | nil => exact .refl m
  | cons a as ih =>
    cases a with
    | read lba =>
      have hsnd := readSector_snd m lba
      rw [perform]
      cases hr : readSector m lba with
      | mk r m1 =>
        rw [hr] at hsnd
        obtain rfl : m1 = m.answered := hsnd
        cases r with
        | none => exact ⟨rfl, rfl, rfl⟩
        | some p => exact (⟨rfl, rfl, rfl⟩ : SameCache m m.answered).trans (ih _ _)
    | write lba c =>
      have hsame := sameCache_writeSector m lba (c got)
      rw [perform]
      cases hw : writeSector m lba (c got) with
      | mk ok m1 =>
        rw [hw] at hsame
        cases ok with
        | false => exact hsame
        | true => exact hsame.trans (ih _ _)

theorem disk_perform (d : U8) (hs : s ∉ changed as got m) : (perform as got m).2.disk d s = m.disk d s := by
  induction as generalizing got m with
  | nil => rfl
  | cons a as ih =>
    cases a with
    | read lba =>
      have hsnd := readSector_snd m lba
      rw [changed] at hs
      rw [perform]
      cases hr : readSector m lba with
      | mk r m1 =>
        rw [hr] at hsnd hs
        obtain rfl : m1 = m.answered := hsnd
        cases r with
        | none => rfl
        | some p => exact ih hs
    | write lba c =>
      rw [changed, List.mem_append, not_or] at hs
      have hdisk := disk_writeSector d (c got) hs.1
      have hrest := hs.2
      rw [perform]
      cases hw : writeSector m lba (c got) with
      | mk ok m1 =>
        rw [hw] at hdisk hrest
        cases ok with
        | false => exact hdisk
        | true => exact (ih hrest).trans hdisk

theorem coherent_writeClusters (cs : List (U32 × Mem)) (h : m.fatSectorNo = noSector) :
    (writeClusters cs m).2.fatSectorNo = noSector := by
  induction cs generalizing m with
  | nil => exact h
  | cons x cs ih =>
    obtain ⟨cluster, buf⟩ := x
    have hno : (writeCluster m cluster buf).2.fatSectorNo = noSector := by
      rw [writeCluster]
      split
      · exact h
      · exact (sameCache_perform _ _ _).no.trans h
    rw [writeClusters]
    cases hw : writeCluster m cluster buf with
    | mk ok m1 =>
      rw [hw] at hno
      cases ok with
      | false => exact hno
      | true => exact ih hno

/-- When a call keeps the cache true: an entry is not written by a write that fails and yet changes the cached sector, and
formatting either comes to the end of the FAT or puts nothing into the cached sector. -/
def Op.Safe (m : Machine) : Op → Prop
  | .readFat _ => True
  | .writeFat c value =>
    let s := fatSectorOf m c
    m.fatSectorNo = s → ∀ p, (readSector m s).1 = some p →
      ∀ left, wrote m.answered s (write32 p (fatByteOf c) value) ≠ (some left, false)
  | .format partStart =>
    let volumeLength := formatVolumeLength m.cap partStart
    let planned := formatPlanned (formatPrepared m (formatPartStart partStart)) volumeLength
    formatRefused m.cap partStart ∨ (perform (firstAccesses planned volumeLength) [] planned).1 = true ∨
      m.fatSectorNo ∉ changed (firstAccesses planned volumeLength) [] planned
  | .init => True
  | .setDrive _ => True

theorem Coherent.writeFatEntry (h : Coherent m) {value : U32} (hsafe : Op.Safe m (.writeFat c value)) :
    Coherent (FatCache.writeFatEntry m c value).2 := by
  have hsnd := readSector_snd m (fatSectorOf m c)
  rw [FatCache.writeFatEntry]
  cases hr : readSector m (fatSectorOf m c) with
  | mk r m1 =>
    rw [hr] at hsnd
    obtain rfl : m1 = m.answered := hsnd
    cases r with
    | none => exact coherent_answered h
    | some p =>
      dsimp only
      have hsame := sameCache_writeSector m.answered (fatSectorOf m c) (write32 p (fatByteOf c) value)
      rcases writeSector_cases m.answered (fatSectorOf m c) (write32 p (fatByteOf c) value) with
        ⟨-, hw⟩ | ⟨left, hleft, -, hw⟩
      · rw [show fatSectorOf m.answered c = fatSectorOf m c from rfl, hw]
        cases (wrote m.answered (fatSectorOf m c) (write32 p (fatByteOf c) value)).2 with
        | false => exact h
        | true => exact coherent_dropCache _
      · rw [show fatSectorOf m.answered c = fatSectorOf m c from rfl, hw]
        cases hok : (wrote m.answered (fatSectorOf m c) (write32 p (fatByteOf c) value)).2 with
        | true => exact coherent_dropCache _
        | false =>
          have hother : m.fatSectorNo ≠ fatSectorOf m c := fun hno =>
            hsafe hno p (by rw [hr]) left (Prod.ext hleft hok)
          exact (⟨rfl, rfl, rfl⟩ : SameCache m (m.answered.put (fatSectorOf m c) left)).coherent
            (fun _ => disk_put_of_ne hother) h

theorem Coherent.setDrive (h : Coherent m) (drive : U8) : Coherent (FatCache.setDrive m drive) := by
  by_cases hd : drive = m.drive
  · subst hd
    have hsame : FatCache.setDrive m m.drive = m := by
      rw [FatCache.setDrive, if_neg (fun hne => hne rfl)]
    rw [hsame]
    exact h
  · rw [FatCache.setDrive, if_pos hd]
    exact fun hno => absurd rfl hno

theorem Coherent.formatWrites (h : Coherent m) {volumeLength : U32}
    (hsafe : (perform (firstAccesses m volumeLength) [] m).1 = true ∨ m.fatSectorNo ∉ changed (firstAccesses m volumeLength) [] m) :
    Coherent (FatCache.formatWrites m volumeLength).2 := by
  have hsame := sameCache_perform (firstAccesses m volumeLength) [] m
  have hdisk : m.fatSectorNo ∉ changed (firstAccesses m volumeLength) [] m →
      Coherent (perform (firstAccesses m volumeLength) [] m).2 :=
    fun hno => hsame.coherent (fun _ => disk_perform m.drive hno) h
  rw [FatCache.formatWrites]
  cases hp : perform (firstAccesses m volumeLength) [] m with
  | mk ok m1 =>
    rw [hp] at hsafe hdisk
    cases ok with
    | false => exact hdisk (hsafe.resolve_left Bool.false_ne_true)
    | true =>
      have hno := coherent_writeClusters (metadataClusters m1.info.clusterCount) (m := dropCache m1) rfl
      dsimp only
      cases hc : writeClusters (metadataClusters m1.info.clusterCount) (dropCache m1) with
      | mk ok m2 =>
        rw [hc] at hno
        cases ok with
        | false => exact fun hne => absurd hno hne
        | true => exact fun hne => absurd hno hne

theorem Coherent.format (h : Coherent m) {partStart : U32} (hsafe : Op.Safe m (.format partStart)) :
    Coherent (FatCache.format m partStart).2 := by
  rw [FatCache.format]
  by_cases hrefused : formatRefused m.cap partStart
  · rw [if_pos hrefused]
    exact h
  · rw [if_neg hrefused]
    exact Coherent.formatWrites (m := formatPlanned (formatPrepared m (formatPartStart partStart)) _) h
      (hsafe.resolve_left hrefused)

/-! ## Mounting reads only -/

theorem Coherent.readSector (h : Coherent m) (lba : U32) : Coherent (FatCache.readSector m lba).2 := by
  rw [readSector_snd]
  exact coherent_answered h

theorem Coherent.findVolume (h : Coherent m) (mbr : Mem) (is : List Nat) : Coherent (FatCache.findVolume mbr is m).2 := by
  induction is generalizing m with
  | nil => exact h
  | cons i is ih =>
    rw [FatCache.findVolume]
    split
    · exact ih h
    · have hread := h.readSector (read32 mbr (446 + i * 16 + 8))
      cases hr : FatCache.readSector m (read32 mbr (446 + i * 16 + 8)) with
      | mk r m1 =>
        rw [hr] at hread
        cases r with
        | none => exact ih hread
        | some p =>
          dsimp only
          split
          · exact hread
          · exact ih hread

theorem Coherent.findWhole (h : Coherent m) : Coherent (FatCache.findWhole m).2 := by
  have hread := h.readSector 0
  rw [FatCache.findWhole]
  cases hr : FatCache.readSector m 0 with
  | mk r m1 =>
    rw [hr] at hread
    cases r with
    | none => exact hread
    | some p => exact hread

theorem Coherent.readSectors (h : Coherent m) (first : U32) (buf : Mem) (off : Nat) (is : List Nat) :
    Coherent (FatCache.readSectors first buf off is m).2.2 := by
  induction is generalizing m buf with
  | nil => exact h
  | cons i is ih =>
    have hread := h.readSector (first + BitVec.ofNat 32 i)
    rw [FatCache.readSectors]
    cases hr : FatCache.readSector m (first + BitVec.ofNat 32 i) with
    | mk r m1 =>
      rw [hr] at hread
      cases r with
      | none => exact hread
      | some p => exact ih hread _

theorem Coherent.readCluster (h : Coherent m) (cluster : U32) (buf : Mem) (off : Nat) :
    Coherent (FatCache.readCluster m cluster buf off).2.2 := by
  rw [FatCache.readCluster]
  split
  · exact h
  · exact h.readSectors _ _ _ _

theorem Coherent.readDirChain (h : Coherent m) (cur : U32) (buf : Mem) (n k : Nat) :
    Coherent (FatCache.readDirChain m cur buf n k).2.2 := by
  induction k generalizing m cur buf n with
  | zero => exact h
  | succ k ih =>
    rw [FatCache.readDirChain]
    split
    · have hread := h.readCluster cur buf (n * m.info.clusterSize)
      cases hr : FatCache.readCluster m cur buf (n * m.info.clusterSize) with
      | mk ok r =>
        obtain ⟨buf', m1⟩ := r
        rw [hr] at hread
        cases ok with
        | false => exact hread
        | true =>
          have hentry := Coherent.readFatEntry (m := m1) hread cur
          dsimp only
          cases hf : FatCache.readFatEntry m1 cur with
          | mk next m2 =>
            rw [hf] at hentry
            dsimp only
            split
            · exact hentry
            · exact ih hentry _ _ _
    · exact h

theorem Coherent.mountVolume (h : Coherent m) (vbr : Mem) : Coherent (FatCache.mountVolume vbr m).2 := by
  rw [FatCache.mountVolume]
  split
  · exact h
  · split
    · exact h
    · split
      · rename_i hshift
        dsimp only
        split
        · exact h
        · have hchain := Coherent.readDirChain (m := { m with info := infoOf vbr hshift }) h (infoOf vbr hshift).rootDirCluster zeros 0 16
          cases hr : FatCache.readDirChain { m with info := infoOf vbr hshift } (infoOf vbr hshift).rootDirCluster zeros 0 16 with
          | mk n r =>
            obtain ⟨buf, m1⟩ := r
            rw [hr] at hchain
            dsimp only
            cases findBitmap buf (n * m1.info.clusterSize) (List.range ((n * m1.info.clusterSize + 31) / 32)) with
            | none => exact hchain
            | some found => exact hchain
      · exact h

theorem Coherent.init (m : Machine) : Coherent (FatCache.init m).2 := by
  have h : Coherent { dropCache m with bitmapBytes := 0 } := coherent_dropCache m
  have hread := h.readSector 0
  rw [FatCache.init]
  dsimp only
  cases hr : FatCache.readSector { dropCache m with bitmapBytes := 0 } 0 with
  | mk r m1 =>
    rw [hr] at hread
    cases r with
    | none => exact hread
    | some mbr =>
      dsimp only
      have hfind : Coherent (if mbr 510 = 0x55 ∧ mbr 511 = 0xAA then FatCache.findVolume mbr [0, 1, 2, 3] m1 else (none, m1)).2 := by
        split
        · exact hread.findVolume _ _
        · exact hread
      generalize (if mbr 510 = 0x55 ∧ mbr 511 = 0xAA then FatCache.findVolume mbr [0, 1, 2, 3] m1 else (none, m1)) = found at hfind ⊢
      obtain ⟨found, m2⟩ := found
      have hmount : ∀ (part : U32) (m3 : Machine), Coherent m3 → Coherent
          (match FatCache.readSector { m3 with partitionStart := part } part with
            | (none, m) => ((-1 : Int), m)
            | (some vbr, m) => FatCache.mountVolume vbr m).2 := by
        intro part m3 h3
        have h4 := Coherent.readSector (m := { m3 with partitionStart := part }) h3 part
        cases hv : FatCache.readSector { m3 with partitionStart := part } part with
        | mk r m4 =>
          rw [hv] at h4
          cases r with
          | none => exact h4
          | some vbr => exact h4.mountVolume vbr
      cases found with
      | some part => exact hmount part m2 hfind
      | none =>
        have hwhole := Coherent.findWhole (m := m2) hfind
        dsimp only
        cases hw : FatCache.findWhole m2 with
        | mk found m3 =>
          rw [hw] at hwhole
          cases found with
          | none => exact hwhole
          | some part => exact hmount part m3 hwhole

theorem Coherent.step (h : Coherent m) (op : Op) (hsafe : op.Safe m) : Coherent (op.run m) := by
  cases op with
  | readFat c => exact Coherent.readFatEntry h c
  | writeFat c value => exact Coherent.writeFatEntry h hsafe
  | format partStart => exact Coherent.format h hsafe
  | init => exact Coherent.init m
  | setDrive drive => exact Coherent.setDrive h drive

/-- After any calls that leave no cached sector behind, and on any drives, an entry is read as the selected drive has it: only an
entry in sector 0xFFFFFFFF, asked for while nothing is cached, is taken from a cache that holds nothing. -/
theorem readFatEntry_after_calls (m : Machine) (hm : m.fatSectorNo = noSector) (ops : List Op)
    (hsafe : Plays (fun m op => op.Safe m) Op.run m ops) (c : U32)
    (hc : fatSectorOf (ops.foldl Op.run m) c ≠ noSector ∨ (ops.foldl Op.run m).fatSectorNo ≠ noSector) :
    ReadsTrue (ops.foldl Op.run m) c := by
  have hrun : Lib.Run (fun m op m' => op.Safe m ∧ m' = op.run m) m ops (ops.foldl Op.run m) :=
    Lib.Run.of_plays (fun _ _ h => ⟨h, rfl⟩) hsafe
  have h : Coherent (ops.foldl Op.run m) := by
    refine hrun.invariant (I := Coherent) ?_ fun hne => absurd hm hne
    rintro m1 op m2 h1 ⟨hsafe, rfl⟩
    exact Coherent.step h1 op hsafe
  exact h.readsTrue hc

def blank (replies : Nat → Reply) : Machine where
  disk := fun _ _ => zeros
  capacity := fun _ => 200
  drive := 0
  info := { volumeLength := 199, fatOffset := 25, fatLength := 2, clusterHeapOffset := 27, clusterCount := 172,
            rootDirCluster := 2, sectorsPerCluster := 1, spc_pos := Nat.one_pos, spc_le := one_le_spc }
  partitionStart := 1
  bitmapCluster := 3
  bitmapBytes := 22
  ready := true
  fatSectorNo := noSector
  fatSector := zeros
  replies := replies

theorem readFatEntry_after_calls_written :
    ReadsTrue ([Op.readFat 5, .writeFat 5 0xFFFFFFFF, .setDrive 1, .setDrive 0].foldl Op.run (blank fun _ => .done)) 5 := by
  refine readFatEntry_after_calls (blank fun _ => .done) rfl [Op.readFat 5, .writeFat 5 0xFFFFFFFF, .setDrive 1, .setDrive 0]
    ⟨trivial, ?_, trivial, trivial, trivial⟩ 5 (.inl (by decide))
  intro _ p _ left hw
  cases hw

/-- Formatting fails at the second sector of the FAT, and the first one, which it has written, is read as it was before. -/
theorem readFatEntry_stale :
    let m := [Op.readFat 0, .format 1].foldl Op.run (blank fun i => if i = 18 then .fails none else .done)
    (readFatEntry m 0).1 = 0 ∧ stored m 0 = 0xFFFFFFF8 ∧ ¬ ReadsTrue m 0 := by
  intro m
  have hread : (readFatEntry m 0).1 = 0 := by decide
  have hstored : stored m 0 = 0xFFFFFFF8 := by decide
  refine ⟨hread, hstored, ?_⟩
  rintro (htrue | ⟨-, hnone⟩)
  · rw [hread, hstored] at htrue
    exact absurd htrue (by decide)
  · rw [hread] at hnone
    exact absurd hnone (by decide)

end Ezos.Exfat.FatCache
