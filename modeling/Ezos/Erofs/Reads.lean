import Ezos.Erofs.DirWalk
import Ezos.Lib.Segments

/-!
# Mounting, listing and reading an image

A well-formed image mounts, its directories are walked whole and its uncompressed files are read, each under a condition of its
own that the driver adds to the format.
-/

namespace Ezos.Erofs

open Lib.Memory Lib.Segments

set_option autoImplicit false

structure DirSound (v : Vol) (nid : U32) : Prop where
  isDir : (inodeAt v nid).isDir = true
  flat : FlatSound v (inodeAt v nid)
  pos : 0 < (inodeAt v nid).size
  room : (inodeAt v nid).size ≤ dirbufSize
  bytes : DirBytes (content v (inodeAt v nid)) v.blksz (inodeAt v nid).size

def dirList (v : Vol) (nid : U32) : List Dirent :=
  realEntries (content v (inodeAt v nid)) v.blksz (inodeAt v nid).size

def Walked (v : Vol) (nid : U32) : Prop :=
  ∀ (σ : Type) (cb : σ → Dirent → σ × Bool) (s : σ) (z : Inflate), erDirWalk v nid cb s z = (z, erPass cb (dirList v nid) s)

def DirFits (v : Vol) (nid : U32) : Prop := WalkFits (content v (inodeAt v nid)) v.blksz (inodeAt v nid).size

variable {v : Vol} {nid cur : U32}

theorem DirSound.load (h : DirSound v nid) : erLoadInode v nid = some (inodeAt v nid) :=
  erLoadInode_of_le (Nat.le_trans h.room (by decide))

theorem erReadFileData_of_flat {ino : Inode} (h : FlatSound v ino) (buf : Mem) (max : Nat) (z : Inflate) :
    erReadFileData v ino buf max z = (z, some (copyIn buf 0 (min ino.size max) (content v ino), min ino.size max)) := by
  rw [erReadFileData, if_pos h.layout, erReadFlat_eq h]

theorem DirSound.walk_eq (h : DirSound v nid) {σ : Type} (cb : σ → Dirent → σ × Bool) (s : σ) (z : Inflate) :
    erDirWalk v nid cb s z =
      (erDirents (content v (inodeAt v nid)) (inodeAt v nid).size).elim (z, s, false) fun l => (z, erPass cb l s) := by
  have hdlen : min (inodeAt v nid).size dirbufSize = (inodeAt v nid).size := Nat.min_eq_left h.room
  have hpos := h.pos
  have hsame : erDirents (copyIn zeros 0 (inodeAt v nid).size (content v (inodeAt v nid))) (inodeAt v nid).size =
      erDirents (content v (inodeAt v nid)) (inodeAt v nid).size :=
    erDirents_congr fun x hx => copyIn_inside hx
  unfold erDirWalk
  rw [h.load]
  dsimp only
  rw [if_neg (not_not.mpr h.isDir), if_neg (by omega), hdlen, erReadFileData_of_flat h.flat, Nat.min_self]
  dsimp only
  rw [if_neg (Nat.lt_irrefl _), hsame]
  cases erDirents (content v (inodeAt v nid)) (inodeAt v nid).size with
  | none => rfl
  | some l => rfl

def note (l : List Dirent) (e : Dirent) : List Dirent × Bool := (l ++ [e], false)

theorem erPass_note (l s : List Dirent) : erPass note l s = (s ++ l, true) := by
  induction l generalizing s with
  | nil => rw [erPass, List.append_nil]
  | cons e l ih =>
    rw [erPass, note]
    dsimp only
    rw [ih, List.append_assoc]
    rfl

theorem walked_iff (h : DirSound v nid) : Walked v nid ↔ DirFits v nid := by
  rw [DirFits, ← erDirents_eq_iff h.bytes v.blksz_pos h.pos]
  constructor
  · intro hw
    have hnote := hw (List Dirent) note [] ⟨⟨fun _ => 0, fun _ => 0⟩, ⟨fun _ => 0, fun _ => 0⟩, false⟩
    rw [h.walk_eq, erPass_note, List.nil_append] at hnote
    cases hents : erDirents (content v (inodeAt v nid)) (inodeAt v nid).size with
    | none =>
      rw [hents] at hnote
      cases congrArg (fun r => r.2.2) hnote
    | some l =>
      rw [hents, Option.elim_some, erPass_note, List.nil_append] at hnote
      exact congrArg some (congrArg (fun r => r.2.1) hnote)
  · intro hents σ cb s z
    rw [h.walk_eq, hents]
    rfl

/-! ## Paths -/

/-- The segments lead from one inode to another through directories that are walked whole, and each of them names one entry,
up to the case of letters. -/
def Leads (v : Vol) : List (List Byte) → U32 → U32 → Prop
  | [], cur, nid => nid = cur
  | seg :: segs, cur, nid =>
    DirSound v cur ∧ DirFits v cur ∧
      ∃ e ∈ dirList v cur, sameName e.name seg = true ∧
        (∀ e' ∈ dirList v cur, sameName e'.name seg = true → e' = e) ∧ Leads v segs e.nid nid

theorem erPass_lookup (seg : List Byte) (l : List Dirent) (s : Option Dirent) :
    erPass (erLookupCb seg) l s = (l.foldl (fun found e => (erLookupCb seg found e).1) s, true) := by
  induction l generalizing s with
  | nil => rfl
  | cons e l ih =>
    rw [erPass, erLookupCb]
    dsimp only
    rw [ih]
    rfl

theorem lookup_eq {seg : List Byte} {e : Dirent} {l : List Dirent} {s : Option Dirent} (hfit : sameName e.name seg = true)
    (hone : ∀ e' ∈ l, sameName e'.name seg = true → e' = e) (hs : s = some e ∨ e ∈ l) :
    l.foldl (fun found e => (erLookupCb seg found e).1) s = some e := by
  induction l generalizing s with
  | nil => exact hs.resolve_right List.not_mem_nil
  | cons e' l ih =>
    rw [List.foldl_cons]
    apply ih fun x hx => hone x (List.mem_cons_of_mem _ hx)
    by_cases hfit' : sameName e'.name seg = true
    · left
      rw [erLookupCb, hone e' List.mem_cons_self hfit']
      exact if_pos hfit
    · rw [erLookupCb, if_neg hfit']
      rcases hs with hs | hmem
      · exact Or.inl hs
      · rcases List.mem_cons.mp hmem with rfl | hmem
        · exact absurd hfit hfit'
        · exact Or.inr hmem

theorem length_of_sameName {a b : List Byte} (h : sameName a b = true) : a.length = b.length := by
  have hmap := congrArg List.length (eq_of_beq h)
  rwa [List.length_map, List.length_map] at hmap

theorem DirSound.length_name_le (h : DirSound v nid) {e : Dirent} (he : e ∈ dirList v nid) : e.name.length ≤ 255 := by
  obtain ⟨hmem, _⟩ := List.mem_filter.mp he
  obtain ⟨b, hb, hin⟩ := List.mem_flatMap.mp hmem
  obtain ⟨i, hi, rfl⟩ := List.mem_map.mp hin
  have hblock := h.bytes.blocks b ((lt_blocks_iff v.blksz_pos).mp (List.mem_range.mp hb))
  exact (hblock.name i (List.mem_range.mp hi)).2

theorem erResolveFrom_sep (n : Nat) (ino : Inode) (r : List Byte) (z : Inflate) :
    erResolveFrom v (n + 1) cur ino (slash :: r) z = erResolveFrom v (n + 1) cur ino r z := by
  have hdrop : (slash :: r).dropWhile (· == slash) = r.dropWhile (· == slash) := List.dropWhile_cons_of_pos (by decide)
  rw [erResolveFrom, erResolveFrom, hdrop]

theorem erResolveFrom_nil (n : Nat) (ino : Inode) (z : Inflate) :
    erResolveFrom v (n + 1) cur ino [] z = (z, some (cur, ino)) := rfl

theorem erResolveFrom_seg {w r : List Byte} (hw : IsSeg slash w) (hr : r = [] ∨ ∃ r', r = slash :: r') (hd : DirSound v cur)
    (hf : DirFits v cur) {e : Dirent} (he : e ∈ dirList v cur) (hfit : sameName e.name w = true)
    (hone : ∀ e' ∈ dirList v cur, sameName e'.name w = true → e' = e) (n : Nat) (z : Inflate) :
    erResolveFrom v (n + 1) cur (inodeAt v cur) (w ++ r) z =
      (erLoadInode v e.nid).elim (z, none) fun ino => erResolveFrom v n e.nid ino r z := by
  have hin : ∀ c ∈ w, (c != slash) = true := fun c hc => bne_iff_ne.mpr fun h => hw.2 (h ▸ hc)
  have htake : (w ++ r).takeWhile (· != slash) = w := by
    rw [List.takeWhile_append_of_pos hin]
    rcases hr with rfl | ⟨r', rfl⟩
    · exact List.append_nil w
    · rw [List.takeWhile_cons_of_neg (by decide), List.append_nil]
  have hrest : (w ++ r).dropWhile (· != slash) = r := by
    rw [List.dropWhile_append_of_pos hin]
    rcases hr with rfl | ⟨r', rfl⟩
    · rfl
    · exact List.dropWhile_cons_of_neg (by decide)
  have hlong : w.length ≤ 255 := length_of_sameName hfit ▸ hd.length_name_le he
  have hwalk := (walked_iff hd).mpr hf _ (erLookupCb w) none z
  rw [erPass_lookup, lookup_eq hfit hone (Or.inr he)] at hwalk
  obtain ⟨c, w', rfl⟩ := List.exists_cons_of_ne_nil hw.1
  have hstart : (c :: w' ++ r).dropWhile (· == slash) = c :: (w' ++ r) :=
    List.dropWhile_cons_of_neg fun h => hw.2 (eq_of_beq h ▸ List.mem_cons_self)
  rw [List.cons_append] at htake hrest
  rw [erResolveFrom, hstart]
  dsimp only
  rw [htake, hrest, if_neg (by omega), if_neg (not_not.mpr hd.isDir), hwalk]
  dsimp only
  rw [if_neg (not_not.mpr rfl)]
  cases erLoadInode v e.nid with
  | none => rfl
  | some ino => rfl

theorem elim_load_eq {e : U32} {segs : List (List Byte)} {z : Inflate} {F : Inode → Inflate × Option (U32 × Inode)}
    (h : Leads v segs e nid)
    (hF : erLoadInode v e = some (inodeAt v e) → F (inodeAt v e) = (z, (erLoadInode v nid).map fun ino => (nid, ino))) :
    (erLoadInode v e).elim (z, none) F = (z, (erLoadInode v nid).map fun ino => (nid, ino)) := by
  cases hload : erLoadInode v e with
  | some ino =>
    obtain ⟨rfl, _⟩ := erLoadInode_some hload
    exact hF hload
  | none =>
    cases segs with
    | nil =>
      obtain rfl : nid = e := h
      rw [hload]
      rfl
    | cons seg segs =>
      have hd : DirSound v e := h.1
      rw [hd.load] at hload
      cases hload

theorem erResolveFrom_eq {path : List Byte} {n : Nat} (hn : path.length < n) (hload : erLoadInode v cur = some (inodeAt v cur))
    (h : Leads v (segs slash path) cur nid) (z : Inflate) :
    erResolveFrom v n cur (inodeAt v cur) path z = (z, (erLoadInode v nid).map fun ino => (nid, ino)) := by
  induction path using segs_induction slash generalizing cur n with
  | hnil =>
    obtain ⟨n, rfl⟩ : ∃ n', n = n' + 1 := ⟨n - 1, by omega⟩
    rw [segs_nil] at h
    obtain rfl : nid = cur := h
    rw [erResolveFrom_nil, hload]
    rfl
  | hsep r ih =>
    obtain ⟨n, rfl⟩ : ∃ n', n = n' + 1 := ⟨n - 1, by omega⟩
    rw [segs_cons_sep] at h
    rw [List.length_cons] at hn
    rw [erResolveFrom_sep]
    exact ih (by omega) hload h
  | hlast w hw =>
    obtain ⟨n, rfl⟩ : ∃ n', n = n' + 1 := ⟨n - 1, by omega⟩
    rw [segs_of_isSeg hw] at h
    obtain ⟨hd, hf, e, he, hfit, hone, hnext⟩ := h
    have hpos := List.length_pos_of_ne_nil hw.1
    have hseg := erResolveFrom_seg hw (Or.inl rfl) hd hf he hfit hone n z
    rw [List.append_nil] at hseg
    rw [hseg]
    apply elim_load_eq hnext
    intro hnload
    obtain rfl : nid = e.nid := hnext
    obtain ⟨n, rfl⟩ : ∃ n', n = n' + 1 := ⟨n - 1, by omega⟩
    rw [erResolveFrom_nil, hnload]
    rfl
  | hcons w r hw ih =>
    obtain ⟨n, rfl⟩ : ∃ n', n = n' + 1 := ⟨n - 1, by omega⟩
    rw [segs_isSeg_append hw] at h
    obtain ⟨hd, hf, e, he, hfit, hone, hnext⟩ := h
    have hpos := List.length_pos_of_ne_nil hw.1
    rw [List.length_append, List.length_cons] at hn
    rw [erResolveFrom_seg hw (Or.inr ⟨r, rfl⟩) hd hf he hfit hone]
    apply elim_load_eq hnext
    intro hnload
    obtain ⟨n, rfl⟩ : ∃ n', n = n' + 1 := ⟨n - 1, by omega⟩
    rw [erResolveFrom_sep]
    exact ih (by omega) hnload hnext

theorem erofsReadFile_eq {path : List Byte} (hroot : erLoadInode v v.rootNid = some (inodeAt v v.rootNid))
    (h : Leads v (segs slash path) v.rootNid nid) (buf : Mem) (max : Nat) (z : Inflate) :
    erofsReadFile v path buf max z =
      if nid = 0 ∨ sizeMax < (inodeAt v nid).size ∨ (inodeAt v nid).isReg = false then (z, none)
      else erReadFileData v (inodeAt v nid) buf max z := by
  unfold erofsReadFile erResolve
  rw [hroot]
  dsimp only
  rw [erResolveFrom_eq (Nat.lt_succ_self _) hroot h z]
  by_cases hsize : sizeMax < (inodeAt v nid).size
  · rw [erLoadInode, if_pos hsize, if_pos (Or.inr (Or.inl hsize))]
    rfl
  · rw [erLoadInode, if_neg hsize, Option.map_some]
    dsimp only
    by_cases hnid : nid = 0
    · rw [if_pos hnid, if_pos (Or.inl hnid)]
    · rw [if_neg hnid]
      dsimp only
      cases hreg : (inodeAt v nid).isReg with
      | false => rw [if_pos Bool.false_ne_true, if_pos (Or.inr (Or.inr rfl))]
      | true => rw [if_neg (not_not.mpr rfl), if_neg (not_or.mpr ⟨hnid, not_or.mpr ⟨hsize, Bool.noConfusion⟩⟩)]

structure FileSound (v : Vol) (nid : U32) : Prop where
  isReg : (inodeAt v nid).isReg = true
  layout : FlatSound v (inodeAt v nid) ∨ ChunksSound v (inodeAt v nid)

def ReadsBack (v : Vol) (path : List Byte) (nid : U32) : Prop :=
  ∀ (buf : Mem) (max : Nat) (z : Inflate), ∃ out,
    (erofsReadFile v path buf max z).2 = some (out, min (inodeAt v nid).size max) ∧
      ∀ k < min (inodeAt v nid).size max, out k = content v (inodeAt v nid) k

/-- The nid is not the one that tells of a failure, the file has at most 1 GB, and its table is where the driver looks, or its
bytes are those of the start of the volume, over and over. -/
structure FileFits (v : Vol) (nid : U32) : Prop where
  named : nid ≠ 0
  size : (inodeAt v nid).size ≤ sizeMax
  table : (inodeAt v nid).datalayout = chunkBased → TableAligned (inodeAt v nid) ∨
    ∀ k < (inodeAt v nid).size, content v (inodeAt v nid) k = v.byte (k % chunksize v (inodeAt v nid))

theorem ReadsBack.fits {path : List Byte} (hroot : erLoadInode v v.rootNid = some (inodeAt v v.rootNid))
    (hbits : 2 ≤ v.blkszbits) (h : Leads v (segs slash path) v.rootNid nid) (hfile : FileSound v nid)
    (hback : ReadsBack v path nid) : FileFits v nid := by
  obtain ⟨out, hout, hbytes⟩ :=
    hback zeros (inodeAt v nid).size ⟨⟨fun _ => 0, fun _ => 0⟩, ⟨fun _ => 0, fun _ => 0⟩, false⟩
  rw [erofsReadFile_eq hroot h] at hout
  by_cases hno : nid = 0 ∨ sizeMax < (inodeAt v nid).size ∨ (inodeAt v nid).isReg = false
  · rw [if_pos hno] at hout
    cases hout
  · rw [if_neg hno] at hout
    obtain ⟨hnid, hno⟩ := not_or.mp hno
    refine ⟨hnid, Nat.le_of_not_lt (not_or.mp hno).1, fun hlayout => ?_⟩
    by_cases ha : TableAligned (inodeAt v nid)
    · exact Or.inl ha
    · right
      intro k hk
      have hchunks : ChunksSound v (inodeAt v nid) := hfile.layout.resolve_left fun hflat => by
        rcases hflat.layout with hl | hl <;> rw [hl] at hlayout <;> revert hlayout <;> decide
      rw [erReadFileData, hlayout, if_neg (by decide), if_pos rfl, erReadChunk_eq, Nat.min_self] at hout
      obtain ⟨rfl, _⟩ := Prod.mk.inj (Option.some.inj hout)
      rw [Nat.min_self] at hbytes
      rw [← hbytes k hk, copyIn_inside hk, chunkRead_eq hchunks (tail_mod hbits nid) hk, if_neg ha]

theorem FileFits.readsBack {path : List Byte} (hroot : erLoadInode v v.rootNid = some (inodeAt v v.rootNid))
    (hbits : 2 ≤ v.blkszbits) (h : Leads v (segs slash path) v.rootNid nid) (hfile : FileSound v nid) (hfits : FileFits v nid) :
    ReadsBack v path nid := by
  intro buf max z
  have hreg : ¬ (inodeAt v nid).isReg = false := by rw [hfile.isReg]; decide
  have hsize := hfits.size
  rw [erofsReadFile_eq hroot h, if_neg (not_or.mpr ⟨hfits.named, not_or.mpr ⟨by omega, hreg⟩⟩)]
  rcases hfile.layout with hflat | hchunks
  · refine ⟨_, congrArg Prod.snd (erReadFileData_of_flat hflat buf max z), fun k hk => copyIn_inside hk⟩
  · have hdata : erReadFileData v (inodeAt v nid) buf max z = (z, some (erReadChunk v (inodeAt v nid) buf max)) := by
      rw [erReadFileData, hchunks.layout, if_neg (by decide), if_pos rfl]
    refine ⟨_, congrArg Prod.snd (hdata.trans (by rw [erReadChunk_eq])), fun k hk => ?_⟩
    have hlt : k < (inodeAt v nid).size := Nat.lt_of_lt_of_le hk (Nat.min_le_left _ _)
    rw [copyIn_inside hk, chunkRead_eq hchunks (tail_mod hbits nid) hlt]
    by_cases ha : TableAligned (inodeAt v nid)
    · rw [if_pos ha]
    · rw [if_neg ha, (hfits.table hchunks.layout).resolve_left ha k hlt]

structure Accepted (sb : Mem) : Prop where
  magic : read32 sb 0 = erofsMagic
  blkszbits : 9 ≤ sb 12 ∧ sb 12 ≤ 12
  incompat : read32 sb 80 &&& ~~~incompatOk = 0
  devices : read16 sb 86 = 0

structure WellFormed (d : Device) (part : U32) : Prop where
  accepted : Accepted (d (part + 2))
  root : (inodeAt (volumeOf d part) (volumeOf d part).rootNid).isDir = true

/-- The place of the root among the slots for inodes is less than the number of inodes, the sum is the one that the driver
takes, and the root has at most 1 GB. -/
structure MountFits (d : Device) (part : U32) : Prop where
  inos : (volumeOf d part).rootNid.setWidth 64 < (volumeOf d part).inos
  chksum : read32 (d (part + 2)) 8 &&& compatChksum ≠ 0 →
    erCrc32c 0 (chksumBytes (d (part + 2))) 128 = read32 (d (part + 2)) 4
  size : (inodeAt (volumeOf d part) (volumeOf d part).rootNid).size ≤ sizeMax

variable {d : Device} {part : U32}

theorem Accepted.super_eq (h : Accepted (d (part + 2))) :
    erSuper d part =
      if read32 (d (part + 2)) 8 &&& compatChksum ≠ 0 ∧
          erCrc32c 0 (chksumBytes (d (part + 2))) 128 ≠ read32 (d (part + 2)) 4 then none
      else some (volumeOf d part) := by
  have hbits : ¬ (d (part + 2) 12 < 9 ∨ 12 < d (part + 2) 12) :=
    not_or.mpr ⟨BitVec.not_lt.mpr h.blkszbits.1, BitVec.not_lt.mpr h.blkszbits.2⟩
  have hdev : ¬ 0 < read16 (d (part + 2)) 86 := by
    rw [h.devices]
    decide
  unfold erSuper
  dsimp only
  rw [if_neg (not_not.mpr h.magic), if_neg hbits, if_neg (not_not.mpr h.incompat), if_neg hdev]

theorem erLoadInode_isSome_iff : (erLoadInode v nid).isSome ↔ (inodeAt v nid).size ≤ sizeMax := by
  rw [erLoadInode]
  by_cases hlt : sizeMax < (inodeAt v nid).size
  · rw [if_pos hlt]
    exact iff_of_false Bool.false_ne_true (Nat.not_le.mpr hlt)
  · rw [if_neg hlt]
    exact iff_of_true rfl (Nat.le_of_not_lt hlt)

theorem WellFormed.mount_iff (h : WellFormed d part) :
    erofsMount d part = some v ↔ v = volumeOf d part ∧ MountFits d part := by
  have hload := @erLoadInode_isSome_iff (volumeOf d part) (volumeOf d part).rootNid
  have hno : ∀ {P : Prop}, ¬ P → ((none : Option Vol) = some v ↔ v = volumeOf d part ∧ P) := fun hp =>
    iff_of_false (Option.some_ne_none v).symm fun hc => hp hc.2
  unfold erofsMount
  rw [h.accepted.super_eq]
  by_cases hsum : read32 (d (part + 2)) 8 &&& compatChksum ≠ 0 ∧
      erCrc32c 0 (chksumBytes (d (part + 2))) 128 ≠ read32 (d (part + 2)) 4
  · rw [if_pos hsum]
    exact hno fun hfits => hsum.2 (hfits.chksum hsum.1)
  · rw [if_neg hsum]
    dsimp only
    by_cases hinos : (volumeOf d part).inos ≤ (volumeOf d part).rootNid.setWidth 64
    · rw [if_pos hinos]
      exact hno fun hfits => BitVec.not_lt.mpr hinos hfits.inos
    · rw [if_neg hinos]
      cases hroot : erLoadInode (volumeOf d part) (volumeOf d part).rootNid with
      | none =>
        rw [hroot] at hload
        exact hno fun hfits => Bool.false_ne_true (hload.mpr hfits.size)
      | some root =>
        obtain ⟨rfl, hsize⟩ := erLoadInode_some hroot
        have hfits : MountFits d part :=
          ⟨BitVec.not_le.mp hinos, fun hbit => not_not.mp fun hne => hsum ⟨hbit, hne⟩, hsize⟩
        dsimp only
        rw [if_pos h.root, Option.some_inj]
        exact ⟨fun hv => ⟨hv.symm, hfits⟩, fun hv => hv.1.symm⟩

/-- An image mounts, a directory of it is walked whole, and a file behind directories that are walked whole is read, each exactly
when it fits what the driver asks beyond the format. -/
theorem image_served_iff (h : WellFormed d part) :
    ((∃ v, erofsMount d part = some v) ↔ MountFits d part) ∧
      ∀ v, erofsMount d part = some v →
        (∀ dir, DirSound v dir → (Walked v dir ↔ DirFits v dir)) ∧
          ∀ path nid, Leads v (segs slash path) v.rootNid nid → FileSound v nid → (ReadsBack v path nid ↔ FileFits v nid) := by
  constructor
  · constructor
    · rintro ⟨v, hv⟩
      exact (h.mount_iff.mp hv).2
    · exact fun hfits => ⟨_, h.mount_iff.mpr ⟨rfl, hfits⟩⟩
  · intro v hv
    obtain ⟨rfl, hfits⟩ := h.mount_iff.mp hv
    have hroot := erLoadInode_of_le hfits.size
    have hbits : 2 ≤ (volumeOf d part).blkszbits := Nat.le_trans (by decide : 2 ≤ 9) h.accepted.blkszbits.1
    refine ⟨fun dir hdir => walked_iff hdir, fun path nid hpath hfile => ?_⟩
    exact ⟨fun hback => hback.fits hroot hbits hpath hfile, fun hfile' => hfile'.readsBack hroot hbits hpath hfile⟩

/-! ## Images -/

/-- A directory with `.`, `..` and `a` at the nid `root`, its entries behind its inode; the inode of `a` is three slots further
on. -/
def inodeArea (root : Byte) (a : List Byte) : List Byte :=
  [4, 0, 0, 0, 0xED, 0x41, 1, 0, 40, 0, 0, 0, 0, 0, 0, 0] ++ List.replicate 16 0 ++
  [root, 0, 0, 0, 0, 0, 0, 0, 36, 0, 2, 0] ++ [root, 0, 0, 0, 0, 0, 0, 0, 37, 0, 2, 0] ++
  [root + 3, 0, 0, 0, 0, 0, 0, 0, 39, 0, 1, 0] ++ [dot, dot, dot, 0x61] ++ List.replicate 24 0 ++ a

def inlineFile : List Byte :=
  [4, 0, 0, 0, 0xA4, 0x81, 1, 0, 2, 0, 0, 0, 0, 0, 0, 0] ++ List.replicate 16 0 ++ [0x68, 0x69]

def superBytes (blkszbits root metaBlk : Byte) : List Byte :=
  [0xE2, 0xE1, 0xF5, 0xE0, 0, 0, 0, 0, 0, 0, 0, 0, blkszbits, 0, root, 0, 2, 0, 0, 0] ++ List.replicate 20 0 ++
  [metaBlk, 0, 0, 0]

def smallImage : Device := fun lba =>
  if lba = 2 then writeBytes zeros 0 (superBytes 12 1 1)
  else if lba = 8 then writeBytes zeros 32 (inodeArea 1 inlineFile)
  else zeros

def denseImage : Device := fun lba =>
  if lba = 2 then writeBytes (writeBytes zeros 0 (superBytes 12 36 0)) 128 (inodeArea 36 inlineFile) else zeros

structure SmallSound (d : Device) (root : U32) : Prop where
  accepted : Accepted (d 2)
  rootNid : (volumeOf d 0).rootNid = root
  blksz : 40 ≤ (volumeOf d 0).blksz
  isDir : (inodeAt (volumeOf d 0) root).isDir = true
  layout : (inodeAt (volumeOf d 0) root).datalayout = flatInline
  blocks : (inodeAt (volumeOf d 0) root).iU = 0
  size : (inodeAt (volumeOf d 0) root).size = 40
  offs : (List.range 3).map (nameoff (content (volumeOf d 0) (inodeAt (volumeOf d 0) root))) = [36, 37, 39]
  high : (List.range 3).map (fun i => read32 (content (volumeOf d 0) (inodeAt (volumeOf d 0) root)) (i * 12 + 4)) = [0, 0, 0]
  entries : entriesIn (content (volumeOf d 0) (inodeAt (volumeOf d 0) root)) 40 =
    [⟨[dot], root, true⟩, ⟨[dot, dot], root, true⟩, ⟨[0x61], root + 3, false⟩]

theorem smallImage_sound : SmallSound smallImage 1 :=
  ⟨⟨by decide, by decide, by decide, by decide⟩, by decide, by decide,
    by decide +kernel, by decide +kernel, by decide +kernel, by decide +kernel, by decide +kernel, by decide +kernel,
    by decide +kernel⟩

theorem denseImage_sound : SmallSound denseImage 36 :=
  ⟨⟨by decide, by decide, by decide, by decide⟩, by decide, by decide,
    by decide +kernel, by decide +kernel, by decide +kernel, by decide +kernel, by decide +kernel, by decide +kernel,
    by decide +kernel⟩

section Small

variable {root : U32}

theorem SmallSound.wellFormed (h : SmallSound d root) : WellFormed d 0 := ⟨h.accepted, h.rootNid ▸ h.isDir⟩

theorem SmallSound.blocks_eq (h : SmallSound d root) : (40 + (volumeOf d 0).blksz - 1) / (volumeOf d 0).blksz = 1 := by
  have hle := h.blksz
  rw [Nat.div_eq_iff (volumeOf d 0).blksz_pos]
  omega

theorem SmallSound.dirEntries_eq (h : SmallSound d root) :
    dirEntries (content (volumeOf d 0) (inodeAt (volumeOf d 0) root)) (volumeOf d 0).blksz 40 =
      [⟨[dot], root, true⟩, ⟨[dot, dot], root, true⟩, ⟨[0x61], root + 3, false⟩] := by
  rw [dirEntries, h.blocks_eq, List.range_one, List.flatMap_singleton, blockMem_zero, blockLen_zero,
    Nat.min_eq_right h.blksz]
  exact h.entries

theorem SmallSound.dirList_eq (h : SmallSound d root) : dirList (volumeOf d 0) root = [⟨[0x61], root + 3, false⟩] := by
  rw [dirList, realEntries, h.size, h.dirEntries_eq]
  rfl

theorem SmallSound.count (h : SmallSound d root) :
    direntCount (content (volumeOf d 0) (inodeAt (volumeOf d 0) root)) = 3 := by
  have hlen := congrArg List.length h.entries
  rwa [entriesIn, List.length_map, List.length_range] at hlen

theorem SmallSound.names (h : SmallSound d root) :
    nameIn (content (volumeOf d 0) (inodeAt (volumeOf d 0) root)) 40 0 = [dot] ∧
      nameIn (content (volumeOf d 0) (inodeAt (volumeOf d 0) root)) 40 1 = [dot, dot] ∧
      nameIn (content (volumeOf d 0) (inodeAt (volumeOf d 0) root)) 40 2 = [0x61] := by
  have hents := h.entries
  simp only [entriesIn, h.count, List.range_succ, List.range_zero, List.nil_append, List.map_cons,
    List.map_nil, List.cons_append, List.cons.injEq, entryIn, Dirent.mk.injEq] at hents
  exact ⟨hents.1.1, hents.2.1.1, hents.2.2.1.1⟩

theorem SmallSound.places (h : SmallSound d root) :
    nameoff (content (volumeOf d 0) (inodeAt (volumeOf d 0) root)) 0 = 36 ∧
      nameoff (content (volumeOf d 0) (inodeAt (volumeOf d 0) root)) 1 = 37 ∧
      nameoff (content (volumeOf d 0) (inodeAt (volumeOf d 0) root)) 2 = 39 := by
  simpa [List.range_succ] using h.offs

theorem SmallSound.dirSound (h : SmallSound d root) (hroot : root ≠ root + 3) : DirSound (volumeOf d 0) root := by
  have hnblocks : nblocks (volumeOf d 0) (inodeAt (volumeOf d 0) root) - 1 = 0 := by
    rw [nblocks, h.size, h.blocks_eq]
  have hcount := h.count
  have hhigh := h.high
  have hall := h.dirEntries_eq
  obtain ⟨h0, h1, h2⟩ := h.places
  obtain ⟨n0, n1, n2⟩ := h.names
  refine ⟨h.isDir, ⟨Or.inr h.layout, by rw [h.blocks, hnblocks]; decide⟩, by rw [h.size]; decide, by rw [h.size]; decide, ?_⟩
  rw [h.size]
  have hmin := Nat.min_eq_right h.blksz
  have hblksz := h.blksz
  generalize content (volumeOf d 0) (inodeAt (volumeOf d 0) root) = f at *
  generalize (volumeOf d 0).blksz = bs at *
  have hthree : ∀ {i : Nat}, i < direntCount f → i = 0 ∨ i = 1 ∨ i = 2 := fun hi => by omega
  have htwo : ∀ {i : Nat}, i + 1 < direntCount f → i = 0 ∨ i = 1 := fun hi => by omega
  constructor
  · intro b hb
    obtain rfl : b = 0 := by
      rcases Nat.eq_zero_or_pos b with hz | hpos
      · exact hz
      · have hle := Nat.le_mul_of_pos_left bs hpos
        omega
    rw [blockMem_zero, blockLen_zero, hmin]
    constructor
    · rw [hcount]
      decide
    · rw [hcount, h0]
      rfl
    · intro i hi
      rcases htwo hi with rfl | rfl
      · rw [h0, h1]
        decide
      · rw [h1, h2]
        decide
    · intro i hi
      rcases hthree hi with rfl | rfl | rfl
      · rw [h0]
        decide
      · rw [h1]
        decide
      · rw [h2]
        decide
    · intro i hi
      rcases hthree hi with rfl | rfl | rfl
      · rw [n0]
        decide
      · rw [n1]
        decide
      · rw [n2]
        decide
    · intro i hi
      rcases htwo hi with rfl | rfl
      · rw [n0, h0, h1]
        rfl
      · rw [n1, h1, h2]
        rfl
    · obtain ⟨z0, z1, z2⟩ : read32 f 4 = 0 ∧ read32 f 16 = 0 ∧ read32 f 28 = 0 := by
        simpa [List.range_succ] using hhigh
      intro i hi
      rcases hthree hi with rfl | rfl | rfl
      · exact z0
      · exact z1
      · exact z2
  · rw [hall]
    have hdots : ∀ e ∈ [(⟨[dot], root, true⟩ : Dirent), ⟨[dot, dot], root, true⟩, ⟨[0x61], root + 3, false⟩],
        e.nid = if dotName e.name then root else root + 3 := by
      intro e he
      simp only [List.mem_cons, List.not_mem_nil, or_false] at he
      rcases he with rfl | rfl | rfl
      · rfl
      · rfl
      · rfl
    intro e he e' he' hdot hdot'
    rw [hdots e he, hdots e' he', hdot, hdot', if_pos rfl, if_neg Bool.false_ne_true]
    exact hroot.symm

theorem SmallSound.dirFits (h : SmallSound d root) : DirFits (volumeOf d 0) root := by
  have hcount := h.count
  obtain ⟨_, _, h2⟩ := h.places
  obtain ⟨_, _, n2⟩ := h.names
  have hmin := Nat.min_eq_right h.blksz
  have hblksz := h.blksz
  rw [DirFits, h.size]
  generalize content (volumeOf d 0) (inodeAt (volumeOf d 0) root) = f at *
  generalize (volumeOf d 0).blksz = bs at *
  constructor
  · intro b hpos hb
    have hle := Nat.le_mul_of_pos_left bs hpos
    omega
  · have hdot : dotName [0x61] = false := rfl
    rw [LastNameFits, hcount, hmin, n2, h2, hdot]
    exact ⟨by decide, Or.inl rfl⟩

theorem SmallSound.leads (h : SmallSound d root) (hroot : root ≠ root + 3) :
    Leads (volumeOf d 0) (segs slash [slash, 0x61]) root (root + 3) := by
  rw [segs_cons_sep, segs_of_isSeg ⟨List.cons_ne_nil _ _, by decide⟩]
  refine ⟨h.dirSound hroot, h.dirFits, ⟨[0x61], root + 3, false⟩, h.dirList_eq ▸ List.mem_singleton_self _, rfl, ?_, rfl⟩
  intro e he _
  rw [h.dirList_eq] at he
  exact List.mem_singleton.mp he

end Small

/-- The image whose inodes fill the first slots of their block mounts, and its directory and its file are read. -/
theorem smallImage_served :
    (∃ v, erofsMount smallImage 0 = some v) ∧ Walked (volumeOf smallImage 0) 1 ∧
      ReadsBack (volumeOf smallImage 0) [slash, 0x61] 4 := by
  have hroot : (volumeOf smallImage 0).rootNid = 1 := smallImage_sound.rootNid
  have hserved := image_served_iff smallImage_sound.wellFormed
  have hmount : ∃ v, erofsMount smallImage 0 = some v :=
    hserved.1.mpr ⟨by decide, fun h => absurd (by decide) h, by rw [hroot, smallImage_sound.size]; decide⟩
  have hv : erofsMount smallImage 0 = some (volumeOf smallImage 0) := by
    obtain ⟨v, hv⟩ := hmount
    rw [hv, (smallImage_sound.wellFormed.mount_iff.mp hv).1]
  obtain ⟨hdirs, hfiles⟩ := hserved.2 _ hv
  have hdir := smallImage_sound.dirSound (by decide)
  refine ⟨hmount, (hdirs 1 hdir).mpr smallImage_sound.dirFits, (hfiles [slash, 0x61] 4 ?_ ?_).mpr ?_⟩
  · rw [hroot]
    exact smallImage_sound.leads (by decide)
  · exact ⟨by decide +kernel, Or.inl ⟨by decide +kernel, by decide +kernel⟩⟩
  · exact ⟨by decide, by decide +kernel, fun h => absurd h (by decide +kernel)⟩

/-- An image with two inodes whose root is in the slot 36 does not mount. -/
theorem denseImage_refused :
    WellFormed denseImage 0 ∧ DirSound (volumeOf denseImage 0) (volumeOf denseImage 0).rootNid ∧
      ¬ ∃ v, erofsMount denseImage 0 = some v := by
  have hroot : (volumeOf denseImage 0).rootNid = 36 := denseImage_sound.rootNid
  refine ⟨denseImage_sound.wellFormed, hroot ▸ denseImage_sound.dirSound (by decide), ?_⟩
  rintro ⟨v, hv⟩
  have hfits := (denseImage_sound.wellFormed.mount_iff.mp hv).2
  exact absurd hfits.inos (by decide)

end Ezos.Erofs
