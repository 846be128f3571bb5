import Ezos.Ntfs.Attributes
import Ezos.Ntfs.RunCodec

/-!
# Update sequences of new records and index blocks (`nt_build_record`, `nt_indx_init`)

The array of a record begins at 0x30 and grows with the record, while its first attribute stands at 0x36. That of an index block
ends in front of the entries at 0x40 for every size.
-/

namespace Ezos.Ntfs

open Lib.Memory Lib.FaultyStore Exfat

set_option autoImplicit false

/-! ## A new record -/

def ntAtStandardInfo : U32 := 0x10
def ntMagicEnd : U32 := 0xFFFFFFFF

def align8 (x : Nat) : Nat := (x + 7) / 8 * 8

/-- `nt_build_filename_key`, at `k`. A name that does not make `nameLen` units leaves an empty key. -/
def ntBuildFilenameKey (rec : Mem) (k : Nat) (parent : U32) (name : List U8) (nameLen : U8) (isDir : Bool) (allocSz realSz : U32) :
    Mem :=
  let blank := fill rec k (0x42 + nameLen.toNat * 2) 0
  let m := write64 blank k (parent.setWidth 64 ||| 0x1000000000000)
  let m := write64 (write64 m (k + 0x20) (allocSz.setWidth 64)) (k + 0x28) (realSz.setWidth 64)
  let m := write32 m (k + 0x38) (if isDir then ntAttrDirectory else 0)
  let m := write8 (write8 m (k + 0x40) nameLen) (k + 0x41) 1
  match utf8ToUtf16 name nameLen.toNat with
  | none => blank
  | some us =>
    if us.length = nameLen.toNat then writeBytes m (k + 0x42) (us.flatMap fun (u : U16) => [u.setWidth 8, (u >>> 8).setWidth 8])
    else blank

def attrHead (rec : Mem) (a : Nat) (type len : U32) (nonResident nameLen : U8) (nameOff : U16) : Mem :=
  let m := write32 (write32 rec a type) (a + 4) len
  write16 (write16 (write8 (write8 m (a + 8) nonResident) (a + 9) nameLen) (a + 0xA) nameOff) (a + 0xC) 0

def attrValue (rec : Mem) (a : Nat) (len off : U32) : Mem := write32 (write32 rec (a + 0x10) len) (a + 0x14) off

inductive Body where
  | dir
  | file (data : Nat → U8) (size : U32) (runs : List Run)

def Body.isDir : Body → Bool
  | .dir => true
  | .file _ _ _ => false

def Body.size : Body → U32
  | .dir => 0
  | .file _ size _ => size

def indexRootAttr (m : Mnt) (rec : Mem) (a : Nat) : Mem × Nat :=
  let len := align8 (0x20 + 0x20 + 0x10)
  let r := attrValue (attrHead rec a ntAtIndexRoot (BitVec.ofNat 32 len) 0 4 0x18) a (0x20 + 0x10) 0x20
  let r := writeBytes r (a + 0x18) (i30.flatMap fun c => [c, 0])
  let ir := a + 0x20
  let r := write32 (write32 (write32 r ir ntAtFilename) (ir + 4) 1) (ir + 8) (BitVec.ofNat 32 m.idxBytes)
  let r := write8 r (ir + 12) 1
  let ih := ir + 0x10
  let r := write32 (write32 (write32 (write32 r ih 0x10) (ih + 4) 0x20) (ih + 8) 0x20) (ih + 12) 0
  (write16 (write16 r (ir + 0x20 + 8) 0x10) (ir + 0x20 + 0xC) 2, len)

def residentData (rec : Mem) (a : Nat) (data : Nat → U8) (size : U32) : Mem × Nat :=
  let len := align8 (0x18 + size.toNat)
  let r := attrValue (attrHead rec a ntAtData (BitVec.ofNat 32 len) 0 0 0) a size 0x18
  (copyIn r (a + 0x18) size.toNat data, len)

def runData (m : Mnt) (rec : Mem) (a : Nat) (size : U32) (runs : List Run) : Mem × Nat :=
  let nclu := runs.foldl (fun n r => n + r.len) (0 : U32)
  let r := attrHead rec a ntAtData (0x40 + 48) 1 0 0
  let r := write64 (write64 r (a + 0x10) 0) (a + 0x18) ((nclu - 1).setWidth 64)
  let r := write16 (write16 r (a + 0x20) 0x40) (a + 0x22) 0
  let r := write64 r (a + 0x28) (nclu.setWidth 64 * BitVec.ofNat 64 m.clusterBytes)
  let r := write64 (write64 r (a + 0x30) (size.setWidth 64)) (a + 0x38) (size.setWidth 64)
  let r := writeBytes r (a + 0x40) (ntRunList runs)
  let len := 0x40 + (ntRunList runs).length
  (write32 r (a + 4) (BitVec.ofNat 32 len), len)

def bodyAttr (m : Mnt) (rec : Mem) (a : Nat) : Body → Mem × Nat
  | .dir => indexRootAttr m rec a
  | .file data size runs => if size ≤ 700 then residentData rec a data size else runData m rec a size runs

def recHeader (m : Mnt) (old : Mem) (mftno : U32) (isDir : Bool) : Mem :=
  let r := write32 (fill old 0 m.recBytes 0) 0 fileMagic
  let r := write16 (write16 r 4 0x30) 6 (BitVec.ofNat 16 (m.recBytes / 512 + 1))
  let r := write16 (write16 (write16 r 0x10 1) 0x12 1) 0x14 0x36
  let r := write16 r 0x16 (if isDir then 3 else 1)
  write32 (write32 r 0x1C (BitVec.ofNat 32 m.recBytes)) 0x20 mftno

def standardInfo (rec : Mem) (a : Nat) : Mem :=
  attrValue (attrHead rec a ntAtStandardInfo (0x18 + 48) 0 0 0) a 48 0x18

def filenameLen (nameLen : U8) : Nat := align8 (0x18 + (0x42 + nameLen.toNat * 2))

def filenameAttr (rec : Mem) (a : Nat) (parent : U32) (name : List U8) (nameLen : U8) (body : Body) : Mem :=
  let keylen := 0x42 + nameLen.toNat * 2
  let r := attrHead rec a ntAtFilename (BitVec.ofNat 32 (filenameLen nameLen)) 0 0 0
  let r := attrValue r a (BitVec.ofNat 32 keylen) 0x18
  ntBuildFilenameKey r (a + 0x18) parent name nameLen body.isDir body.size body.size

def recEnd (rec : Mem) (off : Nat) : Mem :=
  write32 (write32 (write32 rec off ntMagicEnd) (off + 4) 8) 0x18 (BitVec.ofNat 32 (off + 8))

def ntBuildRecord (m : Mnt) (old : Mem) (mftno : U32) (name : List U8) (nameLen : U8) (parent : U32) (body : Body) : Mem :=
  let r := standardInfo (recHeader m old mftno body.isDir) 0x36
  let a := 0x36 + (0x18 + 48)
  let r := filenameAttr r a parent name nameLen body
  let (r, len) := bodyAttr m r (a + filenameLen nameLen) body
  recEnd r (a + filenameLen nameLen + len)

def ntIndxInit (m : Mnt) (old : Mem) (vcn : U64) : Mem :=
  let b := write32 (fill old 0 m.idxBytes 0) 0 indxMagic
  let b := write16 (write16 b 4 0x28) 6 (BitVec.ofNat 16 (m.idxBytes / 512 + 1))
  let b := write64 b 0x10 vcn
  let b := write32 (write32 b 0x18 0x28) 0x1C (0x28 + 0x10)
  let b := write32 (write32 b 0x20 (BitVec.ofNat 32 (m.idxBytes - 0x18))) 0x24 0
  write16 (write16 b (0x40 + 8) 0x10) (0x40 + 0xC) 2

variable {m : Mnt} {rec old : Mem} {a x : Nat} {body : Body} {name : List U8} {nameLen : U8} {parent mftno : U32}

theorem write64_of_disjoint {r : Mem} {a x : Nat} {v : BitVec 64} (h : x < a ∨ a + 8 ≤ x) : write64 r a v x = r x := by
  rw [write64, write32_of_disjoint (by omega), write32_of_disjoint (by omega)]

theorem write8_below {r : Mem} {a x : Nat} {v : U8} (h : x < a) : write8 r a v x = r x := if_neg (by omega)

theorem fill_below {r : Mem} {a n x : Nat} {v : U8} (h : x < a) : fill r a n v x = r x := if_neg (by omega)

theorem copyIn_below {r : Mem} {a n x : Nat} {src : Nat → U8} (h : x < a) : copyIn r a n src x = r x := if_neg (by omega)

theorem attrHead_below {type len : U32} {nr nl : U8} {off : U16} (h : x < a) : attrHead rec a type len nr nl off x = rec x := by
  unfold attrHead
  rw [write16_of_disjoint (by omega), write16_of_disjoint (by omega), write8_below (by omega), write8_below (by omega),
    write32_of_disjoint (by omega), write32_of_disjoint (by omega)]

theorem attrValue_below {len off : U32} (h : x < a + 0x10) : attrValue rec a len off x = rec x := by
  unfold attrValue
  rw [write32_of_disjoint (by omega), write32_of_disjoint (by omega)]

theorem attrHead_len (rec : Mem) (a : Nat) (type len : U32) (nr nl : U8) (off : U16) :
    read32 (attrHead rec a type len nr nl off) (a + 4) = len := by
  rw [attrHead, read32_write16_of_disjoint _ (by omega), read32_write16_of_disjoint _ (by omega),
    read32_congr fun x _ hx => write8_below (by omega), read32_congr fun x _ hx => write8_below (by omega), read32_write32_self]

theorem ntBuildFilenameKey_below {isDir : Bool} {allocSz realSz : U32} (h : x < a) :
    ntBuildFilenameKey rec a parent name nameLen isDir allocSz realSz x = rec x := by
  have hblank : fill rec a (0x42 + nameLen.toNat * 2) 0 x = rec x := fill_below h
  rw [ntBuildFilenameKey]
  cases utf8ToUtf16 name nameLen.toNat with
  | none => exact hblank
  | some us =>
    dsimp only
    by_cases hlen : us.length = nameLen.toNat
    · rw [if_pos hlen, writeBytes_of_disjoint (by omega), write8_below (by omega), write8_below (by omega),
        write32_of_disjoint (by omega), write64_of_disjoint (by omega), write64_of_disjoint (by omega),
        write64_of_disjoint (by omega), hblank]
    · rw [if_neg hlen, hblank]

theorem filenameAttr_below (h : x < a) : filenameAttr rec a parent name nameLen body x = rec x := by
  unfold filenameAttr
  rw [ntBuildFilenameKey_below (by omega), attrValue_below (by omega), attrHead_below h]

theorem indexRootAttr_below (h : x < a) : (indexRootAttr m rec a).1 x = rec x := by
  unfold indexRootAttr
  dsimp only
  rw [write16_of_disjoint (by omega), write16_of_disjoint (by omega), write32_of_disjoint (by omega),
    write32_of_disjoint (by omega), write32_of_disjoint (by omega), write32_of_disjoint (by omega), write8_below (by omega),
    write32_of_disjoint (by omega), write32_of_disjoint (by omega), write32_of_disjoint (by omega),
    writeBytes_of_disjoint (by omega), attrValue_below (by omega), attrHead_below h]

theorem residentData_below {data : Nat → U8} {size : U32} (h : x < a) : (residentData rec a data size).1 x = rec x := by
  unfold residentData
  dsimp only
  rw [copyIn_below (by omega), attrValue_below (by omega), attrHead_below h]

theorem runData_below {size : U32} {runs : List Run} (h : x < a) : (runData m rec a size runs).1 x = rec x := by
  unfold runData
  dsimp only
  rw [write32_of_disjoint (by omega), writeBytes_of_disjoint (by omega), write64_of_disjoint (by omega),
    write64_of_disjoint (by omega), write64_of_disjoint (by omega), write16_of_disjoint (by omega), write16_of_disjoint (by omega),
    write64_of_disjoint (by omega), write64_of_disjoint (by omega), attrHead_below h]

theorem bodyAttr_below (h : x < a) : (bodyAttr m rec a body).1 x = rec x := by
  cases body with
  | dir => exact indexRootAttr_below h
  | file data size runs =>
    rw [bodyAttr]
    split
    · exact residentData_below h
    · exact runData_below h

theorem ntBuildRecord_below (hx : x < 0x36 + (0x18 + 48)) (hused : x < 0x18 ∨ 0x1C ≤ x) :
    ntBuildRecord m old mftno name nameLen parent body x = standardInfo (recHeader m old mftno body.isDir) 0x36 x := by
  unfold ntBuildRecord recEnd
  dsimp only
  rw [write32_of_disjoint (by omega), write32_of_disjoint (by omega), write32_of_disjoint (by omega), bodyAttr_below (by omega),
    filenameAttr_below hx]

theorem standardInfo_below (h : x < a) : standardInfo rec a x = rec x := by
  rw [standardInfo, attrValue_below (by omega), attrHead_below h]

inductive AttrAt (rec : Mem) : Nat → Prop
  | first : AttrAt rec (firstAttr rec)
  | next {a : Nat} : AttrAt rec a → read32 rec a ≠ ntMagicEnd → AttrAt rec (a + attrLen rec a)

def InAttrs (rec : Mem) (x : Nat) : Prop := ∃ a, AttrAt rec a ∧ a ≤ x ∧ x < a + attrLen rec a

def InEntries (blk : Mem) (x : Nat) : Prop := 0x18 + (read32 blk 0x18).toNat ≤ x

theorem AttrAt.first_le (h : AttrAt rec a) : firstAttr rec ≤ a := by
  induction h with
  | first => exact Nat.le_refl _
  | next _ _ ih => exact Nat.le_trans ih (Nat.le_add_right _ _)

/-- The update sequence does what it is for: `sent` comes back as `buf` but for the array, the array is apart from what the buffer
keeps, and a sector of another write is noticed. -/
structure Sequenced (n : Nat) (magic : U32) (buf sent : Mem) (Keeps : Nat → Prop) : Prop where
  back : ∀ raw, (∀ x < n * 512, raw x = sent x) →
    ∃ b, ntFixup raw (n * 512) magic = some b ∧ ∀ x < n * 512, ¬ InUsa buf x → b x = buf x
  apart : ∀ x, InUsa buf x → ¬ Keeps x
  torn : ∀ (raw old : Mem), ∀ j < n, read16 old (j * 512 + 510) ≠ read16 sent (usaOff buf) →
    (∀ x < n * 512, raw x = if x / 512 = j then old x else sent x) → ntFixup raw (n * 512) magic = none

variable {n : Nat} {magic usn : U32} {buf raw sent : Mem}

theorem restoreTails_none {pu : Nat} {us : U16} {l : List Nat} {b : Mem} {j : Nat} (hj : j ∈ l) (hnd : l.Nodup)
    (hne : read16 b (j * 512 + 510) ≠ us) : restoreTails pu us l b = none := by
  induction l generalizing b with
  | nil => cases hj
  | cons i l ih =>
    rw [List.nodup_cons] at hnd
    rw [restoreTails]
    split
    · rfl
    · rename_i heq
      rcases List.mem_cons.mp hj with rfl | hj
      · exact (heq hne).elim
      · refine ih hj hnd.2 ?_
        have hij : j ≠ i := fun h => hnd.1 (h ▸ hj)
        rw [read16_congr fun x hlo hhi => copy2_other b (by omega) (by omega)]
        exact hne

theorem ntFixup_none_of_tail {j : Nat} (hj : j < n) (hne : read16 raw (j * 512 + 510) ≠ read16 raw (usaOff raw)) :
    ntFixup raw (n * 512) magic = none := by
  unfold ntFixup
  dsimp only
  split
  · rfl
  split
  · rfl
  rename_i hcount
  exact restoreTails_none (List.mem_range.mpr (by omega)) List.nodup_range hne

theorem UsaOk.torn_none (h : UsaOk n buf) (htwo : 2 ≤ n) {old : Mem} {j : Nat} (hj : j < n)
    (hne : read16 old (j * 512 + 510) ≠ read16 (armed buf usn) (usaOff buf))
    (hraw : ∀ x < n * 512, raw x = if x / 512 = j then old x else armed buf usn x) : ntFixup raw (n * 512) magic = none := by
  have hhi := h.hi
  rw [h.armed_usn] at hne
  have htail : ∀ i < n, read16 raw (i * 512 + 510) = if i = j then read16 old (i * 512 + 510) else usn.setWidth 16 := by
    intro i hi
    by_cases hij : i = j
    · rw [if_pos hij]
      exact read16_congr fun x hlo hhi => by rw [hraw x (lt_of_tail hi hhi), if_pos (by omega)]
    · rw [if_neg hij, ← h.armed_tail hi]
      exact read16_congr fun x hlo hhi => by rw [hraw x (lt_of_tail hi hhi), if_neg (by omega)]
  by_cases hfirst : j = 0
  · -- the array is that of the old sector: its number is not that of the second sector, or not that of the first
    by_cases hnum : read16 raw (usaOff raw) = usn.setWidth 16
    · refine ntFixup_none_of_tail hj ?_
      rw [htail j hj, if_pos rfl, hnum]
      exact hne
    · refine ntFixup_none_of_tail (j := 1) (by omega) ?_
      rw [htail 1 (by omega), if_neg (by omega)]
      exact fun he => hnum he.symm
  · have hlow : ∀ x < 8, raw x = buf x := by
      intro x hx
      rw [hraw x (by omega), if_neg (by omega)]
      exact h.armed_low hx
    refine ntFixup_none_of_tail hj ?_
    have hnum : read16 raw (usaOff buf) = read16 (armed buf usn) (usaOff buf) :=
      read16_congr fun x _ hx => by rw [hraw x (by omega), if_neg (by omega)]
    rw [htail j hj, if_pos rfl, (usa_congr hlow).1, hnum, h.armed_usn]
    exact hne

theorem UsaOk.lost_whole (h : UsaOk 1 buf) (hmagic : read32 buf 0 = magic) (usn : U32) :
    ∃ raw old : Mem, read16 old 510 ≠ read16 (armed buf usn) (usaOff buf) ∧
      (∀ x < 512, raw x = if x / 512 = 0 then old x else armed buf usn x) ∧ ntFixup raw 512 magic ≠ none := by
  have hsame : ∀ x < 1 * 512, armed buf (usn + 1) x = armed buf (usn + 1) x := fun _ _ => rfl
  obtain ⟨b, hb, -⟩ := h.fixup_armed hmagic hsame
  refine ⟨armed buf (usn + 1), armed buf (usn + 1), ?_, fun x hx => by rw [if_pos (by omega)], ?_⟩
  · have htail : read16 (armed buf (usn + 1)) (0 * 512 + 510) = (usn + 1).setWidth 16 := h.armed_tail (by omega)
    rw [Nat.zero_mul, Nat.zero_add] at htail
    rw [htail, h.armed_usn]
    intro he
    have hnat := congrArg BitVec.toNat he
    have hone : (1 : U32).toNat = 1 := rfl
    rw [BitVec.toNat_setWidth, BitVec.toNat_setWidth, BitVec.toNat_add, hone] at hnat
    omega
  · rw [Nat.one_mul] at hb
    rw [hb]
    exact Option.some_ne_none _

theorem sequenced_iff (h : UsaOk n buf) (hmagic : read32 buf 0 = magic) (Keeps : Nat → Prop) :
    Sequenced n magic buf (armed buf usn) Keeps ↔ 2 ≤ n ∧ ∀ x, InUsa buf x → ¬ Keeps x := by
  constructor
  · intro hs
    refine ⟨?_, hs.apart⟩
    by_contra hlt
    have hpos := h.pos
    have hone : n = 1 := by omega
    subst hone
    obtain ⟨raw, old, hne, hraw, hfix⟩ := h.lost_whole hmagic usn
    refine hfix ?_
    have := hs.torn raw old 0 (by omega) (by simpa using hne) (by simpa using hraw)
    rwa [Nat.one_mul] at this
  · rintro ⟨htwo, hapart⟩
    refine ⟨fun raw hraw => ?_, hapart, fun raw old j hj hne hraw => h.torn_none htwo hj hne hraw⟩
    obtain ⟨b, hb, hsame, -⟩ := h.fixup_armed hmagic hraw
    exact ⟨b, hb, hsame⟩

theorem recHeader_fields (m : Mnt) (old : Mem) (mftno : U32) (isDir : Bool) :
    read32 (recHeader m old mftno isDir) 0 = fileMagic ∧ read16 (recHeader m old mftno isDir) 4 = 0x30 ∧
      read16 (recHeader m old mftno isDir) 6 = BitVec.ofNat 16 (m.recBytes / 512 + 1) ∧
      read16 (recHeader m old mftno isDir) 0x14 = 0x36 := by
  unfold recHeader
  refine ⟨?_, ?_, ?_, ?_⟩
  · simp (disch := omega) only [read32_write32_of_disjoint, read32_write16_of_disjoint, read32_write32_self]
  · simp (disch := omega) only [read16_write32_of_disjoint, read16_write16_of_disjoint, read16_write16_self]
  · simp (disch := omega) only [read16_write32_of_disjoint, read16_write16_of_disjoint, read16_write16_self]
  · simp (disch := omega) only [read16_write32_of_disjoint, read16_write16_of_disjoint, read16_write16_self]

theorem ntBuildRecord_fields (m : Mnt) (old : Mem) (mftno : U32) (name : List U8) (nameLen : U8) (parent : U32) (body : Body) :
    read32 (ntBuildRecord m old mftno name nameLen parent body) 0 = fileMagic ∧
      usaOff (ntBuildRecord m old mftno name nameLen parent body) = 0x30 ∧
      usaCount (ntBuildRecord m old mftno name nameLen parent body) = (m.recBytes / 512 + 1) % 65536 ∧
      firstAttr (ntBuildRecord m old mftno name nameLen parent body) = 0x36 ∧
      attrLen (ntBuildRecord m old mftno name nameLen parent body) 0x36 = 0x48 := by
  obtain ⟨hmagic, hoff, hcount, hfirst⟩ := recHeader_fields m old mftno body.isDir
  have hlow : ∀ x < 0x36, x < 0x18 ∨ 0x1C ≤ x →
      ntBuildRecord m old mftno name nameLen parent body x = recHeader m old mftno body.isDir x :=
    fun x hx hused => (ntBuildRecord_below (by omega) hused).trans (standardInfo_below hx)
  refine ⟨?_, ?_, ?_, ?_, ?_⟩
  · rw [← hmagic]
    exact read32_congr fun x _ hx => hlow x (by omega) (by omega)
  · rw [usaOff, read16_congr fun x _ hx => hlow x (by omega) (by omega), hoff]
    rfl
  · rw [usaCount, read16_congr fun x _ hx => hlow x (by omega) (by omega), hcount, BitVec.toNat_ofNat]
  · rw [firstAttr, read16_congr fun x _ hx => hlow x (by omega) (by omega), hfirst]
    rfl
  · have hlen : read32 (ntBuildRecord m old mftno name nameLen parent body) 0x3A = 0x48 := by
      rw [read32_congr fun x _ hx => ntBuildRecord_below (by omega) (by omega), standardInfo,
        read32_congr fun x _ hx => attrValue_below (by omega)]
      exact attrHead_len _ 0x36 _ _ _ _ _
    rw [attrLen, hlen]
    rfl

/-- The blocks that come from a new one by edits: all of them write the length of the index at 0x1C and what is behind it. -/
inductive IndxBlock (m : Mnt) : Mem → Prop
  | init (old : Mem) (vcn : U64) : IndxBlock m (ntIndxInit m old vcn)
  | edit {blk blk' : Mem} : IndxBlock m blk → (∀ x < 0x1C, blk' x = blk x) → IndxBlock m blk'

theorem ntIndxInit_fields (m : Mnt) (old : Mem) (vcn : U64) :
    read32 (ntIndxInit m old vcn) 0 = indxMagic ∧ read16 (ntIndxInit m old vcn) 4 = 0x28 ∧
      read16 (ntIndxInit m old vcn) 6 = BitVec.ofNat 16 (m.idxBytes / 512 + 1) ∧ read32 (ntIndxInit m old vcn) 0x18 = 0x28 := by
  unfold ntIndxInit write64
  refine ⟨?_, ?_, ?_, ?_⟩
  · simp (disch := omega) only [read32_write32_of_disjoint, read32_write16_of_disjoint, read32_write32_self]
  · simp (disch := omega) only [read16_write32_of_disjoint, read16_write16_of_disjoint, read16_write16_self]
  · simp (disch := omega) only [read16_write32_of_disjoint, read16_write16_of_disjoint, read16_write16_self]
  · simp (disch := omega) only [read32_write32_of_disjoint, read32_write16_of_disjoint, read32_write32_self]

theorem IndxBlock.fields {blk : Mem} (h : IndxBlock m blk) :
    read32 blk 0 = indxMagic ∧ usaOff blk = 0x28 ∧ usaCount blk = (m.idxBytes / 512 + 1) % 65536 ∧ read32 blk 0x18 = 0x28 := by
  induction h with
  | init old vcn =>
    obtain ⟨hmagic, hoff, hcount, hstart⟩ := ntIndxInit_fields m old vcn
    refine ⟨hmagic, ?_, ?_, hstart⟩
    · rw [usaOff, hoff]
      rfl
    · rw [usaCount, hcount, BitVec.toNat_ofNat]
  | edit _ hsame ih =>
    obtain ⟨hmagic, hoff, hcount, hstart⟩ := ih
    obtain ⟨hoff', hcount'⟩ := usa_congr fun x hx => hsame x (by omega)
    exact ⟨(read32_congr fun x _ hx => hsame x (by omega)).trans hmagic, hoff'.trans hoff, hcount'.trans hcount,
      (read32_congr fun x _ hx => hsame x (by omega)).trans hstart⟩

theorem ntWriteRecord_sends (g : m.Geometry) {st : St} {no : U32} (h : UsaOk m.recSecs buf) (hmagic : read32 buf 0 = fileMagic) :
    (ntWriteRecord m st no buf).2.1 = armed buf (st.usn + 1) := by
  have hcount : ¬ (usaCount buf = 0 ∨ (usaCount buf - 1) * 512 ≠ m.recBytes) := by
    rw [h.count, g.record]
    omega
  unfold ntWriteRecord
  rw [if_neg (not_not.mpr hmagic)]
  dsimp only
  rw [if_neg hcount]
  rfl

theorem record_sequenced_iff (g : m.Geometry) (old : Mem) (mftno : U32) (name : List U8) (nameLen : U8) (parent : U32) (body : Body)
    (usn : U32) :
    Sequenced m.recSecs fileMagic (ntBuildRecord m old mftno name nameLen parent body)
      (armed (ntBuildRecord m old mftno name nameLen parent body) usn)
      (InAttrs (ntBuildRecord m old mftno name nameLen parent body)) ↔ m.recSecs = 2 := by
  have hmax : ntMaxRec = 4096 := rfl
  have hrec := g.record
  have hpos := g.recPos
  have hrecMax := g.recMax
  obtain ⟨hmagic, hoff, hcount, hfirst, hlen⟩ := ntBuildRecord_fields m old mftno name nameLen parent body
  generalize ntBuildRecord m old mftno name nameLen parent body = new at hmagic hoff hcount hfirst hlen ⊢
  have husa : UsaOk m.recSecs new := ⟨hpos, by omega, by omega, by omega⟩
  rw [sequenced_iff husa hmagic]
  constructor
  · rintro ⟨htwo, hapart⟩
    by_contra hne
    refine hapart 0x36 ⟨by omega, by rw [hoff, hcount]; omega⟩ ⟨0x36, ?_, Nat.le_refl _, by omega⟩
    rw [← hfirst]
    exact .first
  · intro htwo
    refine ⟨by omega, ?_⟩
    rintro x ⟨-, hhi⟩ ⟨a, ha, hlo, -⟩
    have := ha.first_le
    omega

theorem indx_sequenced_iff (g : m.Geometry) {blk : Mem} (h : IndxBlock m blk) (usn : U32) :
    Sequenced m.idxSecs indxMagic blk (armed blk usn) (InEntries blk) ↔ 2 ≤ m.idxSecs := by
  have hmax : ntMaxIdx = 4096 := rfl
  have hidx := g.index
  have hidxMax := g.idxMax
  obtain ⟨hmagic, hoff, hcount, hstart⟩ := h.fields
  have husa : UsaOk m.idxSecs blk := ⟨g.idxPos, by omega, by omega, by omega⟩
  rw [sequenced_iff husa hmagic]
  refine ⟨And.left, fun htwo => ⟨htwo, ?_⟩⟩
  rintro x ⟨-, hhi⟩ hin
  have hentries : (0x28 : U32).toNat = 40 := rfl
  rw [InEntries, hstart, hentries] at hin
  omega

/-- Of the sizes of a record two sectors are the one for which the array does all it is for; an index block may have any from two
on. -/
theorem update_sequence_iff (g : m.Geometry) :
    (∀ old mftno name nameLen parent body (st : St) no,
      let new := ntBuildRecord m old mftno name nameLen parent body
      Sequenced m.recSecs fileMagic new (ntWriteRecord m st no new).2.1 (InAttrs new) ↔ m.recSecs = 2) ∧
    ∀ blk usn, IndxBlock m blk → (Sequenced m.idxSecs indxMagic blk (armed blk usn) (InEntries blk) ↔ 2 ≤ m.idxSecs) := by
  refine ⟨fun old mftno name nameLen parent body st no => ?_, fun blk usn hblk => indx_sequenced_iff g hblk usn⟩
  have hmax : ntMaxRec = 4096 := rfl
  have hrec := g.record
  have hrecMax := g.recMax
  obtain ⟨hmagic, hoff, hcount, -⟩ := ntBuildRecord_fields m old mftno name nameLen parent body
  dsimp only
  rw [ntWriteRecord_sends g ⟨g.recPos, by omega, by omega, by omega⟩ hmagic]
  exact record_sequenced_iff g old mftno name nameLen parent body (st.usn + 1)

theorem wideVolume_geometry_long : (wideVolume 4096).Geometry :=
  ⟨by decide, by decide, by decide, by decide, by decide, by decide, by decide, by decide⟩

theorem wideVolume_geometry_usual : (wideVolume 1024).Geometry :=
  ⟨by decide, by decide, by decide, by decide, by decide, by decide, by decide, by decide⟩

/-- The array of a new directory's record of 4096 bytes reaches into its first attribute. -/
theorem update_sequence_overlaps : ¬ ∀ (m : Mnt), m.Geometry → ∀ old mftno name nameLen parent body (st : St) no,
    let new := ntBuildRecord m old mftno name nameLen parent body
    Sequenced m.recSecs fileMagic new (ntWriteRecord m st no new).2.1 (InAttrs new) := by
  intro h
  have hseq := h (wideVolume 4096) wideVolume_geometry_long zeros 24 [0x64] 1 5 .dir ⟨⟨fun _ => zeros, none⟩, 3⟩ 24
  obtain ⟨-, hoff, hcount, hfirst, hlen⟩ := ntBuildRecord_fields (wideVolume 4096) zeros 24 [0x64] 1 5 .dir
  have hbytes : (wideVolume 4096).recBytes = 4096 := rfl
  rw [hbytes] at hcount
  refine hseq.apart 0x36 ⟨by omega, by omega⟩ ⟨0x36, ?_, Nat.le_refl _, by omega⟩
  rw [← hfirst]
  exact .first

theorem update_sequence_usual :
    Sequenced 2 fileMagic (ntBuildRecord (wideVolume 1024) zeros 24 [0x64] 1 5 .dir)
      (ntWriteRecord (wideVolume 1024) ⟨⟨fun _ => zeros, none⟩, 3⟩ 24 (ntBuildRecord (wideVolume 1024) zeros 24 [0x64] 1 5 .dir)).2.1
      (InAttrs (ntBuildRecord (wideVolume 1024) zeros 24 [0x64] 1 5 .dir)) :=
  ((update_sequence_iff wideVolume_geometry_usual).1 zeros 24 [0x64] 1 5 .dir ⟨⟨fun _ => zeros, none⟩, 3⟩ 24).mpr rfl

end Ezos.Ntfs
