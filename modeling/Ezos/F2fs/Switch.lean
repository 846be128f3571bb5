import Ezos.F2fs.Packs

/-!
# Crashes during a commit (`f2_cp_commit`, `f2fs_mount`)

A commit writes the pack that is not in use, its first and last block first. From then on the pack passes and is the newer
one, and its journals are still on the way.
-/

namespace Ezos.F2fs

open Lib.Memory Lib.FaultyStore

set_option autoImplicit false

structure SameLayout (cp cp' : Mem) : Prop where
  flags : read32 cp cpOffCkptFlags = read32 cp' cpOffCkptFlags
  total : read32 cp cpOffPackTotal = read32 cp' cpOffPackTotal
  startSum : read32 cp cpOffPackStartSum = read32 cp' cpOffPackStartSum
  sitVerBytes : read32 cp cpOffSitVerBytes = read32 cp' cpOffSitVerBytes

/-- The blocks that the checkpoint names, and the three summaries of the node logs, lie inside its pack and apart, and its
bitmaps inside its block. -/
structure Roomy (g : Geometry) (cp : Mem) : Prop extends PacksFit g where
  summaries : 5 ≤ g.bps.toNat
  sumPos : 0 < (read32 cp cpOffPackStartSum).toNat
  sumApart : (read32 cp cpOffPackStartSum).toNat = 1 ∨ 5 ≤ (read32 cp cpOffPackStartSum).toNat
  lastApart : read32 cp cpOffPackTotal - 1 ≠ read32 cp cpOffPackStartSum
  lastBehind : (read32 cp cpOffPackTotal - 1).toNat ≤ 1 ∨ 5 ≤ (read32 cp cpOffPackTotal - 1).toNat
  sumFits : (read32 cp cpOffPackStartSum).toNat < g.bps.toNat
  journalFits : (f2JournalOff cp).toNat < g.bps.toNat
  bitmapFits : ¬ 3903 < read32 cp cpOffSitVerBytes

structure Standing (v : Vol) : Prop where
  geometry : f2Geometry v.disk v.part = some v.geo
  start : v.startCp = packOf v.geo (read64 v.cp cpOffVer)
  valid : f2ValidateCp v.disk v.part v.geo.bps v.startCp = some (read64 v.cp cpOffVer)
  newer : ∀ w, f2ValidateCp v.disk v.part v.geo.bps (packOf v.geo (read64 v.cp cpOffVer + 1)) = some w →
    w ≤ read64 v.cp cpOffVer
  layout : SameLayout (f2ReadBlock v.disk v.part v.startCp) v.cp
  room : Roomy v.geo v.cp

/-- The work between two commits: it writes neither the packs nor the superblock, and the checkpoint in memory keeps what it
says of its pack. -/
structure Works (v v' : Vol) : Prop where
  part : v'.part = v.part
  geo : v'.geo = v.geo
  startCp : v'.startCp = v.startCp
  superblock : f2Geometry v'.disk v.part = f2Geometry v.disk v.part
  packs : ∀ ver (j : U32), j.toNat < v.geo.bps.toNat →
    f2ReadBlock v'.disk v.part (packOf v.geo ver + j) = f2ReadBlock v.disk v.part (packOf v.geo ver + j)
  ver : read64 v'.cp cpOffVer = read64 v.cp cpOffVer
  layout : SameLayout v.cp v'.cp

inductive Running : Vol → Prop
  | mounted {d : Device} {part payload : U32} {v : Vol} (hmount : f2fsMount d part payload = some v)
      (hfits : ParityFits d part v.geo) (hroom : Roomy v.geo v.cp) : Running v
  | worked {v v' : Vol} (h : Running v) (hworks : Works v v') : Running v'
  | committed {v : Vol} (h : Running v) (dBlocks dNodes dInodes : Int) (hmore : read64 v.cp cpOffVer ≠ BitVec.allOnes 64) :
      Running (f2CpCommit v dBlocks dNodes dInodes)

variable {v : Vol} {cp : Mem}

theorem sumWrites_eq (n : Nat) : ∃ tl, sumWrites v cp n = packWrites v cp ++ tl ∧
    ∀ w ∈ tl, ∃ t < n, ∃ buf, w ∈ blockWrites v.part (packOf v.geo (read64 cp cpOffVer) + 2 + BitVec.ofNat 32 t) buf := by
  induction n with
  | zero => exact ⟨[], (List.append_nil _).symm, fun _ h => absurd h List.not_mem_nil⟩
  | succ n ih =>
    obtain ⟨tl, heq, hmem⟩ := ih
    refine ⟨tl ++ blockWrites v.part (packOf v.geo (read64 cp cpOffVer) + 2 + BitVec.ofNat 32 n)
      (nodeSum (put (sumWrites v cp n) v.disk) v cp n), ?_, fun w hw => ?_⟩
    · rw [← List.append_assoc, ← heq]
      rfl
    · rcases List.mem_append.mp hw with hw | hw
      · obtain ⟨t, ht, hbuf⟩ := hmem w hw
        exact ⟨t, by omega, hbuf⟩
      · exact ⟨n, by omega, _, hw⟩

theorem mem_cpWrites {w : U32 × Mem} (h : w ∈ cpWrites v cp) :
    w ∈ blockWrites v.part (packOf v.geo (read64 cp cpOffVer)) cp ∨
    w ∈ blockWrites v.part (packOf v.geo (read64 cp cpOffVer) + read32 cp cpOffPackTotal - 1) cp ∨
    w ∈ blockWrites v.part (packOf v.geo (read64 cp cpOffVer) + read32 cp cpOffPackStartSum) (compactSum v.natj v.sitj) ∨
    ∃ t < 3, ∃ buf, w ∈ blockWrites v.part (packOf v.geo (read64 cp cpOffVer) + 2 + BitVec.ofNat 32 t) buf := by
  obtain ⟨tl, heq, hmem⟩ := @sumWrites_eq v cp 3
  rw [cpWrites, heq, packWrites, List.mem_append, List.mem_append, List.mem_append] at h
  rcases h with (h | h | h) | h
  · exact Or.inl h
  · exact Or.inr (Or.inl h)
  · exact Or.inr (Or.inr (Or.inl h))
  · exact Or.inr (Or.inr (Or.inr (hmem w h)))

def InPack (g : Geometry) (ver : U64) (b : U32) : Prop := ∃ j : U32, j.toNat < g.bps.toNat ∧ b = packOf g ver + j

theorem targets_cpWrites (hroom : Roomy v.geo cp) (htotal : read32 cp cpOffPackTotal ≠ 0)
    (hfew : (read32 cp cpOffPackTotal).toNat ≤ v.geo.bps.toNat) :
    Targets v.part (InPack v.geo (read64 cp cpOffVer)) (cpWrites v cp) := by
  intro w hw
  have hsegs := hroom.summaries
  have htwo : (2 : U32).toNat = 2 := rfl
  rcases mem_cpWrites hw with h | h | h | ⟨t, ht, buf, h⟩
  · obtain ⟨i, hi, rfl⟩ := mem_blockWrites.mp h
    have hpos : (0 : U32).toNat < v.geo.bps.toNat := Nat.lt_of_lt_of_le (by decide) hsegs
    exact ⟨_, i, ⟨0, hpos, (BitVec.add_zero _).symm⟩, hi, rfl⟩
  · obtain ⟨i, hi, rfl⟩ := mem_blockWrites.mp h
    obtain ⟨heq, hlt⟩ := last_block htotal hfew (packOf v.geo (read64 cp cpOffVer))
    exact ⟨_, i, ⟨_, hlt, heq⟩, hi, rfl⟩
  · obtain ⟨i, hi, rfl⟩ := mem_blockWrites.mp h
    exact ⟨_, i, ⟨_, hroom.sumFits, rfl⟩, hi, rfl⟩
  · obtain ⟨i, hi, rfl⟩ := mem_blockWrites.mp h
    refine ⟨_, i, ⟨2 + BitVec.ofNat 32 t, ?_, BitVec.add_assoc _ _ _⟩, hi, rfl⟩
    rw [BitVec.toNat_add, BitVec.toNat_ofNat, htwo]
    omega

variable {g : Geometry} {ver : U64}

theorem packOf_succ_succ : packOf g (ver + 1 + 1) = packOf g ver := by
  by_cases hodd : OddVer ver
  · rw [packOf_odd hodd, packOf_odd ((oddVer_succ _).mpr fun h => (oddVer_succ ver).mp h hodd)]
  · rw [packOf_even hodd, packOf_even fun h => (oddVer_succ _).mp h ((oddVer_succ ver).mpr hodd)]

theorem PacksFit.apart (h : PacksFit g) {j : U32} (hj : j.toNat < g.bps.toNat) :
    ¬ InPack g (ver + 1) (packOf g ver + j) := by
  have hfits := h.fits
  rintro ⟨j', hj', heq⟩
  have hnat := congrArg BitVec.toNat heq
  by_cases hodd : OddVer ver
  · rw [packOf_odd hodd, packOf_even fun h => (oddVer_succ ver).mp h hodd, BitVec.toNat_add, BitVec.toNat_add,
      BitVec.toNat_add] at hnat
    omega
  · rw [packOf_even hodd, packOf_odd ((oddVer_succ ver).mpr hodd), BitVec.toNat_add, BitVec.toNat_add,
      BitVec.toNat_add] at hnat
    omega

theorem InPack.bounds (h : PacksFit g) {b : U32} (hb : InPack g ver b) : 0 < b.toNat ∧ b.toNat < 536870912 := by
  obtain ⟨j, hj, rfl⟩ := hb
  exact h.pack_lt hj

variable {dBlocks dNodes dInodes : Int} {k : Nat} {payload : U32}

theorem SameLayout.trans {a b c : Mem} (h : SameLayout a b) (h' : SameLayout b c) : SameLayout a c :=
  ⟨h.flags.trans h'.flags, h.total.trans h'.total, h.startSum.trans h'.startSum,
    h.sitVerBytes.trans h'.sitVerBytes⟩

theorem SameLayout.symm {a b : Mem} (h : SameLayout a b) : SameLayout b a :=
  ⟨h.flags.symm, h.total.symm, h.startSum.symm, h.sitVerBytes.symm⟩

theorem SameLayout.journalOff {a b : Mem} (h : SameLayout a b) : f2JournalOff a = f2JournalOff b := by
  unfold f2JournalOff
  rw [h.flags, h.startSum, h.total]

theorem SameLayout.journals {a b : Mem} (h : SameLayout a b) (d : Device) (part startCp : U32) :
    f2LoadNatJournal d part startCp a = f2LoadNatJournal d part startCp b := by
  unfold f2LoadNatJournal
  rw [h.journalOff, h.flags]

theorem Roomy.congr {a b : Mem} (h : Roomy g a) (hf : SameLayout a b) : Roomy g b where
  toPacksFit := h.toPacksFit
  summaries := h.summaries
  sumPos := hf.startSum ▸ h.sumPos
  sumApart := hf.startSum ▸ h.sumApart
  lastApart := hf.startSum ▸ hf.total ▸ h.lastApart
  lastBehind := hf.total ▸ h.lastBehind
  sumFits := hf.startSum ▸ h.sumFits
  journalFits := hf.journalOff ▸ h.journalFits
  bitmapFits := hf.sitVerBytes ▸ h.bitmapFits

theorem cpNext_layout (cp : Mem) (dBlocks dNodes dInodes : Int) : SameLayout cp (cpNext cp dBlocks dNodes dInodes) :=
  ⟨(read32_cpNext (by decide)).symm, (read32_cpNext (by decide)).symm, (read32_cpNext (by decide)).symm,
    (read32_cpNext (by decide)).symm⟩

theorem f2ValidateCp_total {d : Device} {part bps a : U32} {w : U64} (h : f2ValidateCp d part bps a = some w) :
    read32 (f2ReadBlock d part a) cpOffPackTotal ≠ 0 ∧
      (read32 (f2ReadBlock d part a) cpOffPackTotal).toNat ≤ bps.toNat := by
  unfold f2ValidateCp at h
  dsimp only at h
  by_cases hs : ¬ CpSound (f2ReadBlock d part a)
  · rw [if_pos hs] at h
    cases h
  rw [if_neg hs] at h
  by_cases ht : read32 (f2ReadBlock d part a) cpOffPackTotal = 0 ∨ bps < read32 (f2ReadBlock d part a) cpOffPackTotal
  · rw [if_pos ht] at h
    cases h
  obtain ⟨hzero, hbig⟩ := not_or.mp ht
  exact ⟨hzero, BitVec.le_def.mp (BitVec.not_lt.mp hbig)⟩

section Standing

variable (h : Standing v)
include h

theorem Standing.total : read32 v.cp cpOffPackTotal ≠ 0 ∧ (read32 v.cp cpOffPackTotal).toNat ≤ v.geo.bps.toNat := by
  have htotal := f2ValidateCp_total h.valid
  rwa [h.layout.total] at htotal

theorem Standing.targets (k : Nat) : Targets v.part (InPack v.geo (read64 v.cp cpOffVer + 1))
    ((cpWrites v (cpNext v.cp dBlocks dNodes dInodes)).take k) := by
  have hlay := cpNext_layout v.cp dBlocks dNodes dInodes
  have hall := @targets_cpWrites v (cpNext v.cp dBlocks dNodes dInodes) (h.room.congr hlay) (hlay.total ▸ h.total.1)
    (hlay.total ▸ h.total.2)
  rw [read64_cpNext_ver] at hall
  exact hall.take k

theorem Standing.crash_kept {j : U32} (hj : j.toNat < v.geo.bps.toNat) :
    f2ReadBlock (f2CpCrash v dBlocks dNodes dInodes k) v.part (v.startCp + j) = f2ReadBlock v.disk v.part (v.startCp + j) := by
  rw [h.start]
  exact (h.targets k).readBlock (fun b hb => (hb.bounds h.room.toPacksFit).2) (h.room.toPacksFit.pack_lt hj).2
    (h.room.toPacksFit.apart hj)

theorem Standing.crash_geometry : f2Geometry (f2CpCrash v dBlocks dNodes dInodes k) v.part = some v.geo :=
  ((h.targets k).geometry fun _ hb => hb.bounds h.room.toPacksFit).trans h.geometry

theorem Standing.segs_pos : (0 : U32).toNat < v.geo.bps.toNat := Nat.lt_of_lt_of_le (by decide) h.room.summaries

theorem Standing.crash_valid : f2ValidateCp (f2CpCrash v dBlocks dNodes dInodes k) v.part v.geo.bps v.startCp =
    some (read64 v.cp cpOffVer) :=
  (f2ValidateCp_congr (fun _ hj => h.crash_kept hj) h.segs_pos).trans h.valid

theorem Standing.crash_head : f2ReadBlock (f2CpCrash v dBlocks dNodes dInodes k) v.part v.startCp =
    f2ReadBlock v.disk v.part v.startCp := by
  have hzero : v.startCp + 0 = v.startCp := BitVec.add_zero _
  have hkept : f2ReadBlock (f2CpCrash v dBlocks dNodes dInodes k) v.part (v.startCp + 0) = _ := h.crash_kept h.segs_pos
  rwa [hzero] at hkept

theorem Standing.crash_journals : f2LoadNatJournal (f2CpCrash v dBlocks dNodes dInodes k) v.part v.startCp v.cp =
    f2LoadNatJournal v.disk v.part v.startCp v.cp := by
  unfold f2LoadNatJournal
  rw [h.crash_kept h.room.journalFits]

end Standing

/-! ## What is loaded -/

theorem f2Load_eq {d : Device} {part startCp a : U32} (hg : f2Geometry d part = some g)
    (hstart : f2StartCp d part g = some startCp) (hpick : f2PickCp d part g = some a)
    (hver : read64 (f2ReadBlock d part a) cpOffVer = ver)
    (hsit : ¬ 3903 < read32 (f2ReadBlock d part startCp) cpOffSitVerBytes) :
    f2Load d part payload = some (loaded d part payload g ver startCp) := by
  have hfits : ¬ (payload = 0 ∧ 3903 < read32 (f2ReadBlock d part startCp) cpOffSitVerBytes) := fun hbad => hsit hbad.2
  unfold f2Load
  simp only [hg, hstart, hpick, hver, Option.bind_eq_bind, Option.bind_some]
  rw [if_neg hfits]

structure SameCommit (l m : Vol) : Prop where
  cp : ∀ x < 4096, l.cp x = m.cp x
  natj : ∀ x < sumJournalSize, l.natj x = m.natj x
  sitj : ∀ x < sumJournalSize, l.sitj x = m.sitj x

def Switches (v : Vol) (dBlocks dNodes dInodes : Int) (k : Nat) (payload : U32) : Prop :=
  ∃ l, f2Load (f2CpCrash v dBlocks dNodes dInodes k) v.part payload = some l ∧
    (f2ValidateCp (f2CpCrash v dBlocks dNodes dInodes k) v.part l.geo.bps l.startCp).isSome ∧
    (SameCommit l (f2CpCommit v dBlocks dNodes dInodes) ∨
      ∃ p, f2Load v.disk v.part payload = some p ∧ SameCommit l p)

structure Stored (v : Vol) (dBlocks dNodes dInodes : Int) (d : Device) : Prop where
  cp : ∀ x < 4096, f2ReadBlock d v.part (packOf v.geo (read64 v.cp cpOffVer + 1)) x = cpNext v.cp dBlocks dNodes dInodes x
  natj : ∀ x < sumJournalSize,
    (f2LoadNatJournal d v.part (packOf v.geo (read64 v.cp cpOffVer + 1)) v.cp).1 x = v.natj x
  sitj : ∀ x < sumJournalSize,
    (f2LoadNatJournal d v.part (packOf v.geo (read64 v.cp cpOffVer + 1)) v.cp).2 x = v.sitj x

def SwitchPoint (v : Vol) (dBlocks dNodes dInodes : Int) (k : Nat) : Prop :=
  k = 0 ∨ read64 v.cp cpOffVer = BitVec.allOnes 64 ∨
    f2ValidateCp (f2CpCrash v dBlocks dNodes dInodes k) v.part v.geo.bps (packOf v.geo (read64 v.cp cpOffVer + 1)) = none ∨
    Stored v dBlocks dNodes dInodes (f2CpCrash v dBlocks dNodes dInodes k)

section Switch

variable (h : Standing v)
include h

theorem Standing.load : f2Load v.disk v.part payload =
    some (loaded v.disk v.part payload v.geo (read64 v.cp cpOffVer) v.startCp) := by
  have hvalid := h.valid
  rw [h.start] at hvalid
  obtain ⟨hstart, a, hpick, hver⟩ := startCp_of_newer hvalid h.newer
  rw [← h.start] at hstart
  exact f2Load_eq h.geometry hstart hpick hver (by rw [h.layout.sitVerBytes]; exact h.room.bitmapFits)

theorem Standing.switches_old (hold : ∀ w, f2ValidateCp (f2CpCrash v dBlocks dNodes dInodes k) v.part v.geo.bps
    (packOf v.geo (read64 v.cp cpOffVer + 1)) = some w → w ≤ read64 v.cp cpOffVer) :
    Switches v dBlocks dNodes dInodes k payload := by
  have hvalid := @Standing.crash_valid v dBlocks dNodes dInodes k h
  have hhead := @Standing.crash_head v dBlocks dNodes dInodes k h
  rw [h.start] at hvalid
  obtain ⟨hstart, a, hpick, hver⟩ := startCp_of_newer hvalid hold
  rw [← h.start] at hstart hvalid
  have hload := @f2Load_eq _ _ payload _ _ _ _ h.crash_geometry hstart hpick hver
    (by rw [hhead, h.layout.sitVerBytes]; exact h.room.bitmapFits)
  refine ⟨_, hload, Option.isSome_iff_exists.mpr ⟨_, hvalid⟩, Or.inr ⟨_, h.load, ?_⟩⟩
  have hjournals : f2LoadNatJournal (f2CpCrash v dBlocks dNodes dInodes k) v.part v.startCp
        (f2ReadBlock (f2CpCrash v dBlocks dNodes dInodes k) v.part v.startCp) =
      f2LoadNatJournal v.disk v.part v.startCp (f2ReadBlock v.disk v.part v.startCp) := by
    rw [hhead, h.layout.journals, h.layout.journals, h.crash_journals]
  constructor
  · intro x _
    exact congrFun hhead x
  · intro x _
    exact congrFun (congrArg Prod.fst hjournals) x
  · intro x _
    exact congrFun (congrArg Prod.snd hjournals) x

theorem Standing.writes_to {w : U32 × Mem} (hw : w ∈ cpWrites v (cpNext v.cp dBlocks dNodes dInodes)) {j : U32} {i : Nat}
    (hj : j.toNat < v.geo.bps.toNat) (hi : i < 8)
    (haddr : w.1 = sectorOf v.part (packOf v.geo (read64 v.cp cpOffVer + 1) + j) i) :
    ((j = 0 ∨ j = read32 v.cp cpOffPackTotal - 1) ∧ w.2 = fun x => cpNext v.cp dBlocks dNodes dInodes (i * 512 + x)) ∨
    (j = read32 v.cp cpOffPackStartSum ∧ w.2 = fun x => compactSum v.natj v.sitj (i * 512 + x)) ∨
    2 ≤ j.toNat ∧ j.toNat < 5 := by
  have hlay := cpNext_layout v.cp dBlocks dNodes dInodes
  have hroom := h.room
  have hsegs := hroom.summaries
  have hoff : ∀ {j' : U32} {i' : Nat}, j'.toNat < v.geo.bps.toNat → i' < 8 →
      sectorOf v.part (packOf v.geo (read64 v.cp cpOffVer + 1) + j') i' =
        sectorOf v.part (packOf v.geo (read64 v.cp cpOffVer + 1) + j) i → j' = j ∧ i' = i := by
    intro j' i' hj' hi' he
    obtain ⟨hblk, hi⟩ := sectorOf_inj (hroom.toPacksFit.pack_lt hj').2 (hroom.toPacksFit.pack_lt hj).2 hi' hi he
    exact ⟨(BitVec.add_right_inj _).mp hblk, hi⟩
  rcases mem_cpWrites hw with h1 | h1 | h1 | ⟨t, ht, buf, h1⟩
  all_goals
    rw [read64_cpNext_ver] at h1
    obtain ⟨i', hi', rfl⟩ := mem_blockWrites.mp h1
  · have hzero : packOf v.geo (read64 v.cp cpOffVer + 1) + 0 = packOf v.geo (read64 v.cp cpOffVer + 1) :=
      BitVec.add_zero _
    have hfirst : sectorOf v.part (packOf v.geo (read64 v.cp cpOffVer + 1) + 0) i' =
        sectorOf v.part (packOf v.geo (read64 v.cp cpOffVer + 1) + j) i := by
      rw [hzero]
      exact haddr
    obtain ⟨rfl, rfl⟩ := hoff h.segs_pos hi' hfirst
    exact Or.inl ⟨Or.inl rfl, rfl⟩
  · obtain ⟨heq, hlt⟩ := last_block (hlay.total ▸ h.total.1) (hlay.total ▸ h.total.2)
      (packOf v.geo (read64 v.cp cpOffVer + 1))
    obtain ⟨rfl, rfl⟩ := hoff hlt hi' (heq ▸ haddr)
    exact Or.inl ⟨Or.inr (by rw [← hlay.total]), rfl⟩
  · rw [← hlay.startSum] at haddr
    obtain ⟨rfl, rfl⟩ := hoff hroom.sumFits hi' haddr
    exact Or.inr (Or.inl ⟨rfl, rfl⟩)
  · have htwo : (2 : U32).toNat = 2 := rfl
    have hnat : (2 + BitVec.ofNat 32 t : U32).toNat = 2 + t := by
      rw [BitVec.toNat_add, BitVec.toNat_ofNat, htwo]
      omega
    rw [BitVec.add_assoc] at haddr
    obtain ⟨rfl, rfl⟩ := hoff (by omega) hi' haddr
    exact Or.inr (Or.inr (by omega))

theorem Standing.mem_take {i : Nat} (hi : i < 8) :
    (i < k → (sectorOf v.part (packOf v.geo (read64 v.cp cpOffVer + 1) + 0) i,
      fun x => cpNext v.cp dBlocks dNodes dInodes (i * 512 + x)) ∈ (cpWrites v (cpNext v.cp dBlocks dNodes dInodes)).take k) ∧
    (8 + i < k → (sectorOf v.part (packOf v.geo (read64 v.cp cpOffVer + 1) + (read32 v.cp cpOffPackTotal - 1)) i,
      fun x => cpNext v.cp dBlocks dNodes dInodes (i * 512 + x)) ∈ (cpWrites v (cpNext v.cp dBlocks dNodes dInodes)).take k) ∧
    (16 + i < k → (sectorOf v.part (packOf v.geo (read64 v.cp cpOffVer + 1) + read32 v.cp cpOffPackStartSum) i,
      fun x => compactSum v.natj v.sitj (i * 512 + x)) ∈ (cpWrites v (cpNext v.cp dBlocks dNodes dInodes)).take k) := by
  have hlay := cpNext_layout v.cp dBlocks dNodes dInodes
  have hlast := (last_block h.total.1 h.total.2 (packOf v.geo (read64 v.cp cpOffVer + 1))).1
  have hzero : packOf v.geo (read64 v.cp cpOffVer + 1) + 0 = packOf v.geo (read64 v.cp cpOffVer + 1) := BitVec.add_zero _
  have hlen : ∀ blk buf, (blockWrites v.part blk buf).length = 8 := fun _ _ => by
    rw [blockWrites, List.length_map, List.length_range]
  have hget : ∀ blk buf, (blockWrites v.part blk buf)[i]? = some (sectorOf v.part blk i, fun x => buf (i * 512 + x)) := by
    intro blk buf
    rw [blockWrites, List.getElem?_map, List.getElem?_range hi, Option.map_some]
  have hmem : ∀ {n : Nat} {w : U32 × Mem}, (cpWrites v (cpNext v.cp dBlocks dNodes dInodes))[n]? = some w → n < k →
      w ∈ (cpWrites v (cpNext v.cp dBlocks dNodes dInodes)).take k := fun hw hn =>
    List.mem_of_getElem? ((List.getElem?_take_of_lt hn).trans hw)
  obtain ⟨tl, heq, -⟩ := @sumWrites_eq v (cpNext v.cp dBlocks dNodes dInodes) 3
  have heq : cpWrites v (cpNext v.cp dBlocks dNodes dInodes) = _ := heq
  rw [packWrites, read64_cpNext_ver, ← hlay.total, ← hlay.startSum, hlast] at heq
  refine ⟨fun hk => hmem ?_ hk, fun hk => hmem ?_ hk, fun hk => hmem ?_ hk⟩
  · rw [heq, hzero, List.append_assoc, List.getElem?_append_left (by rw [hlen]; exact hi), hget]
  · rw [heq, List.append_assoc, List.getElem?_append_right (by rw [hlen]; omega), hlen, Nat.add_sub_cancel_left,
      List.append_assoc, List.getElem?_append_left (by rw [hlen]; exact hi), hget]
  · have hdiff : 16 + i - 8 - 8 = i := by omega
    rw [heq, List.append_assoc, List.getElem?_append_right (by rw [hlen]; omega), hlen, List.append_assoc,
      List.getElem?_append_right (by rw [hlen]; omega), hlen, hdiff, List.getElem?_append_left (by rw [hlen]; exact hi), hget]

theorem Standing.crash_block {j : U32} (hj : j.toNat < v.geo.bps.toNat) {buf : Mem} {n x : Nat} (hx : x < n * 512) (hn : n ≤ 8)
    (hmem : ∀ i < n, (sectorOf v.part (packOf v.geo (read64 v.cp cpOffVer + 1) + j) i, fun x => buf (i * 512 + x)) ∈
      (cpWrites v (cpNext v.cp dBlocks dNodes dInodes)).take k)
    (hnodes : ¬ (2 ≤ j.toNat ∧ j.toNat < 5))
    (hcp : j = 0 ∨ j = read32 v.cp cpOffPackTotal - 1 → buf = cpNext v.cp dBlocks dNodes dInodes)
    (hsum : j = read32 v.cp cpOffPackStartSum → buf = compactSum v.natj v.sitj) :
    f2ReadBlock (f2CpCrash v dBlocks dNodes dInodes k) v.part (packOf v.geo (read64 v.cp cpOffVer + 1) + j) x = buf x := by
  have hi : x / 512 < n := by omega
  have hback : x / 512 * 512 + x % 512 = x := by omega
  have hone : ∀ w ∈ cpWrites v (cpNext v.cp dBlocks dNodes dInodes),
      w.1 = sectorOf v.part (packOf v.geo (read64 v.cp cpOffVer + 1) + j) (x / 512) →
        w.2 = fun y => buf (x / 512 * 512 + y) := by
    intro w hw haddr
    rcases h.writes_to hw hj (by omega) haddr with ⟨hblk, hw2⟩ | ⟨hblk, hw2⟩ | hblk
    · rw [hw2, hcp hblk]
    · rw [hw2, hsum hblk]
    · exact absurd hblk hnodes
  unfold f2ReadBlock
  rw [if_pos (by omega), f2CpCrash, put_of_mem_same (hmem _ hi) fun w hw => hone w (List.mem_of_mem_take hw)]
  dsimp only
  rw [hback]

theorem Standing.sum_ne_zero : (0 : U32) ≠ read32 v.cp cpOffPackStartSum := by
  intro he
  have hpos := h.room.sumPos
  rw [← he] at hpos
  exact absurd hpos (by decide)

theorem Standing.crash_first {n x : Nat} (hn : n ≤ 8) (hk : n ≤ k) (hx : x < n * 512) :
    f2ReadBlock (f2CpCrash v dBlocks dNodes dInodes k) v.part (packOf v.geo (read64 v.cp cpOffVer + 1)) x =
      cpNext v.cp dBlocks dNodes dInodes x := by
  have hzero : packOf v.geo (read64 v.cp cpOffVer + 1) + 0 = packOf v.geo (read64 v.cp cpOffVer + 1) := BitVec.add_zero _
  rw [← hzero]
  exact h.crash_block h.segs_pos hx hn (fun i hi => (h.mem_take (by omega)).1 (by omega)) (by decide) (fun _ => rfl)
    fun he => absurd he h.sum_ne_zero

theorem Standing.crash_last {x : Nat} (hk : 16 ≤ k) (hx : x < 4096) :
    f2ReadBlock (f2CpCrash v dBlocks dNodes dInodes k) v.part
      (packOf v.geo (read64 v.cp cpOffVer + 1) + (read32 v.cp cpOffPackTotal - 1)) x = cpNext v.cp dBlocks dNodes dInodes x := by
  have hlast := (last_block h.total.1 h.total.2 0).2
  have hbehind := h.room.lastBehind
  exact h.crash_block hlast (n := 8) hx (Nat.le_refl 8) (fun i hi => (h.mem_take hi).2.1 (by omega)) (by omega) (fun _ => rfl)
    fun he => absurd he h.room.lastApart

theorem Standing.crash_sum {n x : Nat} (hn : n ≤ 8) (hk : 16 + n ≤ k) (hx : x < n * 512) :
    f2ReadBlock (f2CpCrash v dBlocks dNodes dInodes k) v.part
      (packOf v.geo (read64 v.cp cpOffVer + 1) + read32 v.cp cpOffPackStartSum) x = compactSum v.natj v.sitj x := by
  have hapart := h.room.sumApart
  refine h.crash_block h.room.sumFits hx hn (fun i hi => (h.mem_take (by omega)).2.2 (by omega)) (by omega) (fun he => ?_)
    fun _ => rfl
  rcases he with he | he
  · exact absurd he.symm h.sum_ne_zero
  · exact absurd he.symm h.room.lastApart

theorem Standing.crash_layout (hk : 0 < k) : SameLayout v.cp
    (f2ReadBlock (f2CpCrash v dBlocks dNodes dInodes k) v.part (packOf v.geo (read64 v.cp cpOffVer + 1))) := by
  have hword : ∀ {a}, a + 4 ≤ 512 → read32 (f2ReadBlock (f2CpCrash v dBlocks dNodes dInodes k) v.part
      (packOf v.geo (read64 v.cp cpOffVer + 1))) a = read32 (cpNext v.cp dBlocks dNodes dInodes) a := fun ha =>
    read32_congr fun x _ hx => h.crash_first (by decide : 1 ≤ 8) hk (by omega)
  exact (cpNext_layout v.cp dBlocks dNodes dInodes).trans
    ⟨(hword (by decide)).symm, (hword (by decide)).symm, (hword (by decide)).symm, (hword (by decide)).symm⟩

theorem Standing.crash_ver (hk : 0 < k) {w : U64} (hw : f2ValidateCp (f2CpCrash v dBlocks dNodes dInodes k) v.part v.geo.bps
    (packOf v.geo (read64 v.cp cpOffVer + 1)) = some w) : w = read64 v.cp cpOffVer + 1 := by
  have hver : read64 (cpNext v.cp dBlocks dNodes dInodes) cpOffVer = read64 v.cp cpOffVer + 1 := read64_cpNext_ver
  have hread : read64 (f2ReadBlock (f2CpCrash v dBlocks dNodes dInodes k) v.part
      (packOf v.geo (read64 v.cp cpOffVer + 1))) cpOffVer = read64 (cpNext v.cp dBlocks dNodes dInodes) cpOffVer :=
    read64_congr fun x _ hx => h.crash_first (by decide : 1 ≤ 8) hk (Nat.lt_trans hx (by decide))
  rw [← f2ValidateCp_head hw, hread, hver]

theorem Standing.switches_new (hk : 0 < k) (hmore : read64 v.cp cpOffVer ≠ BitVec.allOnes 64) {w : U64}
    (hw : f2ValidateCp (f2CpCrash v dBlocks dNodes dInodes k) v.part v.geo.bps
      (packOf v.geo (read64 v.cp cpOffVer + 1)) = some w) :
    Switches v dBlocks dNodes dInodes k payload ↔ Stored v dBlocks dNodes dInodes (f2CpCrash v dBlocks dNodes dInodes k) := by
  obtain rfl := h.crash_ver hk hw
  have hnat := ver_succ_nat hmore
  have hlay := @Standing.crash_layout v dBlocks dNodes dInodes k h hk
  have hcur := @Standing.crash_valid v dBlocks dNodes dInodes k h
  rw [h.start] at hcur
  have hnewer : ∀ w, f2ValidateCp (f2CpCrash v dBlocks dNodes dInodes k) v.part v.geo.bps
      (packOf v.geo (read64 v.cp cpOffVer + 1 + 1)) = some w → w ≤ read64 v.cp cpOffVer + 1 := by
    intro w hw
    rw [packOf_succ_succ, hcur] at hw
    rw [← Option.some.inj hw, BitVec.le_def, hnat]
    exact Nat.le_succ _
  obtain ⟨hstart, a, hpick, hver⟩ := startCp_of_newer hw hnewer
  have hload := @f2Load_eq _ _ payload _ _ _ _ h.crash_geometry hstart hpick hver
    (by rw [← hlay.sitVerBytes]; exact h.room.bitmapFits)
  have hjournals := hlay.journals (f2CpCrash v dBlocks dNodes dInodes k) v.part
    (packOf v.geo (read64 v.cp cpOffVer + 1))
  constructor
  · rintro ⟨l, hl, -, hsame⟩
    obtain rfl := Option.some.inj (hload.symm.trans hl)
    rcases hsame with hsame | ⟨p, hp, hsame⟩
    · refine ⟨hsame.cp, ?_, ?_⟩
      · rw [hjournals]
        exact hsame.natj
      · rw [hjournals]
        exact hsame.sitj
    -- The commit before has another version.
    · obtain rfl := Option.some.inj (h.load.symm.trans hp)
      have hold := f2ValidateCp_head h.valid
      have hread : read64 (f2ReadBlock (f2CpCrash v dBlocks dNodes dInodes k) v.part
          (packOf v.geo (read64 v.cp cpOffVer + 1))) cpOffVer = read64 (f2ReadBlock v.disk v.part v.startCp) cpOffVer := by
        apply read64_congr
        intro x _ hx
        exact hsame.cp x (Nat.lt_trans hx (by decide))
      rw [f2ValidateCp_head hw, hold] at hread
      have := congrArg BitVec.toNat hread
      omega
  · rintro ⟨hcp, hnatj, hsitj⟩
    refine ⟨_, hload, Option.isSome_iff_exists.mpr ⟨_, hw⟩, Or.inl ⟨hcp, ?_, ?_⟩⟩
    · rw [hjournals] at hnatj
      exact hnatj
    · rw [hjournals] at hsitj
      exact hsitj

theorem Standing.switches_iff : Switches v dBlocks dNodes dInodes k payload ↔ SwitchPoint v dBlocks dNodes dInodes k := by
  by_cases hold : ∀ w, f2ValidateCp (f2CpCrash v dBlocks dNodes dInodes k) v.part v.geo.bps
      (packOf v.geo (read64 v.cp cpOffVer + 1)) = some w → w ≤ read64 v.cp cpOffVer
  · refine iff_of_true (h.switches_old hold) ?_
    by_cases hk : k = 0
    · exact Or.inl hk
    by_cases hmore : read64 v.cp cpOffVer = BitVec.allOnes 64
    · exact Or.inr (Or.inl hmore)
    refine Or.inr (Or.inr (Or.inl (Option.eq_none_iff_forall_ne_some.mpr fun w hw => ?_)))
    have hle := hold w hw
    obtain rfl := h.crash_ver (Nat.pos_of_ne_zero hk) hw
    rw [BitVec.le_def, ver_succ_nat hmore] at hle
    omega
  · obtain ⟨w, hw⟩ := not_forall.mp hold
    obtain ⟨hw, hgt⟩ := Classical.not_imp.mp hw
    have hk : 0 < k := by
      refine Nat.pos_of_ne_zero fun hzero => hgt (h.newer w ?_)
      rw [← hw, hzero]
      rfl
    have hmore : read64 v.cp cpOffVer ≠ BitVec.allOnes 64 := by
      intro hall
      refine hgt (BitVec.le_def.mpr ?_)
      rw [hall, BitVec.toNat_allOnes]
      exact Nat.le_sub_one_of_lt w.isLt
    rw [h.switches_new hk hmore hw]
    constructor
    · exact fun hs => Or.inr (Or.inr (Or.inr hs))
    · rintro (h0 | h0 | h0 | h0)
      · exact absurd h0 (Nat.ne_of_gt hk)
      · exact absurd h0 hmore
      · exact absurd (h0.symm.trans hw).symm (Option.some_ne_none w)
      · exact h0

theorem Standing.crash_passes (hk : 16 ≤ k) : f2ValidateCp (f2CpCrash v dBlocks dNodes dInodes k) v.part v.geo.bps
    (packOf v.geo (read64 v.cp cpOffVer + 1)) = some (read64 v.cp cpOffVer + 1) := by
  have hlay := @Standing.crash_layout v dBlocks dNodes dInodes k h (by omega)
  have hfirst : ∀ x < 4096, f2ReadBlock (f2CpCrash v dBlocks dNodes dInodes k) v.part
      (packOf v.geo (read64 v.cp cpOffVer + 1)) x = cpNext v.cp dBlocks dNodes dInodes x := fun x hx =>
    h.crash_first (Nat.le_refl 8) (by omega) hx
  have hlast : ∀ x < 4096, f2ReadBlock (f2CpCrash v dBlocks dNodes dInodes k) v.part
      (packOf v.geo (read64 v.cp cpOffVer + 1) + (read32 v.cp cpOffPackTotal - 1)) x =
        cpNext v.cp dBlocks dNodes dInodes x := fun x hx => h.crash_last hk hx
  have hver : ∀ {m : Mem}, (∀ x < 4096, m x = cpNext v.cp dBlocks dNodes dInodes x) →
      read64 m cpOffVer = read64 v.cp cpOffVer + 1 := fun hm =>
    (read64_congr fun x _ hx => hm x (Nat.lt_trans hx (by decide))).trans read64_cpNext_ver
  have hpass := @f2ValidateCp_eq_some v.part (f2CpCrash v dBlocks dNodes dInodes k) v.geo.bps
    (packOf v.geo (read64 v.cp cpOffVer + 1)) (cpSound_cpNext.congr hfirst) (hlay.total ▸ h.total.1) (hlay.total ▸ h.total.2)
  rw [← hlay.total, hver hfirst] at hpass
  exact hpass (cpSound_cpNext.congr hlast) (hver hlast)

theorem Standing.stored_late (hcompact : read32 v.cp cpOffCkptFlags &&& cpCompactSumFlag ≠ 0) (hk : 18 ≤ k) :
    Stored v dBlocks dNodes dInodes (f2CpCrash v dBlocks dNodes dInodes k) := by
  have hoff : f2JournalOff v.cp = read32 v.cp cpOffPackStartSum := if_pos hcompact
  have hsum : ∀ x < 1014, f2ReadBlock (f2CpCrash v dBlocks dNodes dInodes k) v.part
      (packOf v.geo (read64 v.cp cpOffVer + 1) + f2JournalOff v.cp) x = compactSum v.natj v.sitj x := by
    intro x hx
    rw [hoff]
    exact h.crash_sum (n := 2) (by omega) (by omega) (by omega)
  have hsize : sumJournalSize = 507 := rfl
  refine ⟨fun x hx => h.crash_first (Nat.le_refl 8) (by omega) hx, fun x hx => ?_, fun x hx => ?_⟩
  · unfold f2LoadNatJournal
    dsimp only
    rw [if_pos hcompact]
    exact (hsum x (by omega)).trans (if_pos hx)
  · unfold f2LoadNatJournal
    dsimp only
    rw [if_pos hcompact]
    refine (hsum (sumJournalSize + x) (by omega)).trans ?_
    unfold compactSum
    rw [if_neg (by omega), if_pos (by omega), Nat.add_sub_cancel_left]

end Switch

theorem Standing.committed (h : Standing v) (hmore : read64 v.cp cpOffVer ≠ BitVec.allOnes 64) :
    Standing (f2CpCommit v dBlocks dNodes dInodes) := by
  have hver : read64 (cpNext v.cp dBlocks dNodes dInodes) cpOffVer = read64 v.cp cpOffVer + 1 := read64_cpNext_ver
  have hlong : 16 ≤ (cpWrites v (cpNext v.cp dBlocks dNodes dInodes)).length := by
    obtain ⟨tl, heq, -⟩ := @sumWrites_eq v (cpNext v.cp dBlocks dNodes dInodes) 3
    have hlen : ∀ blk buf, (blockWrites v.part blk buf).length = 8 := fun _ _ => by
      rw [blockWrites, List.length_map, List.length_range]
    rw [cpWrites, heq, packWrites, List.length_append, List.length_append, hlen]
    rw [List.length_append, hlen, hlen]
    omega
  have hdisk : (f2CpCommit v dBlocks dNodes dInodes).disk =
      f2CpCrash v dBlocks dNodes dInodes (cpWrites v (cpNext v.cp dBlocks dNodes dInodes)).length := by
    unfold f2CpCommit f2CpCrash
    rw [List.take_length]
  have hstart : (f2CpCommit v dBlocks dNodes dInodes).startCp = packOf v.geo (read64 v.cp cpOffVer + 1) := by
    rw [← hver]
    rfl
  refine ⟨?_, rfl, ?_, ?_, ?_, h.room.congr (cpNext_layout v.cp dBlocks dNodes dInodes)⟩
  · rw [hdisk]
    exact h.crash_geometry
  · rw [hdisk, hstart]
    exact (h.crash_passes hlong).trans (congrArg some hver.symm)
  · intro w hw
    have hw : f2ValidateCp (f2CpCommit v dBlocks dNodes dInodes).disk v.part v.geo.bps
      (packOf v.geo (read64 (cpNext v.cp dBlocks dNodes dInodes) cpOffVer + 1)) = some w := hw
    change w ≤ read64 (cpNext v.cp dBlocks dNodes dInodes) cpOffVer
    rw [hdisk, hver, packOf_succ_succ, ← h.start, h.crash_valid] at hw
    rw [hver, ← Option.some.inj hw, BitVec.le_def, ver_succ_nat hmore]
    exact Nat.le_succ _
  · rw [hdisk, hstart]
    exact (h.crash_layout (Nat.lt_of_lt_of_le (by decide) hlong)).symm.trans (cpNext_layout v.cp dBlocks dNodes dInodes)

theorem Standing.worked {v' : Vol} (h : Standing v) (hw : Works v v') : Standing v' := by
  have hstart := h.start
  have hzero : v.startCp + 0 = v.startCp := BitVec.add_zero _
  have hkept : ∀ {ver : U64} {j : U32}, j.toNat < v.geo.bps.toNat → f2ReadBlock v'.disk v.part (packOf v.geo ver + j) =
      f2ReadBlock v.disk v.part (packOf v.geo ver + j) := fun hj => hw.packs _ _ hj
  have hhead : f2ReadBlock v'.disk v.part v.startCp = f2ReadBlock v.disk v.part v.startCp := by
    rw [← hzero, hstart]
    exact hkept h.segs_pos
  constructor
  · rw [hw.part, hw.geo, hw.superblock]
    exact h.geometry
  · rw [hw.startCp, hw.geo, hw.ver]
    exact hstart
  · rw [hw.part, hw.geo, hw.startCp, hw.ver, hstart, f2ValidateCp_congr (fun _ hj => hkept hj) h.segs_pos, ← hstart]
    exact h.valid
  · rw [hw.part, hw.geo, hw.ver, f2ValidateCp_congr (fun _ hj => hkept hj) h.segs_pos]
    exact h.newer
  · rw [hw.part, hw.startCp, hhead]
    exact h.layout.trans hw.layout
  · rw [hw.geo]
    exact h.room.congr hw.layout

theorem standing_of_mount {d : Device} {part : U32} (hmount : f2fsMount d part payload = some v)
    (hfits : ParityFits d part v.geo) (hroom : Roomy v.geo v.cp) : Standing v := by
  unfold f2fsMount at hmount
  obtain ⟨u, hload, hroot⟩ := Option.bind_eq_some_iff.mp hmount
  obtain ⟨root, -, hroot⟩ := Option.bind_eq_some_iff.mp hroot
  split at hroot
  case isFalse => cases hroot
  obtain rfl := Option.some.inj hroot
  unfold f2Load at hload
  obtain ⟨g, hg, hload⟩ := Option.bind_eq_some_iff.mp hload
  obtain ⟨a, hpick, hload⟩ := Option.bind_eq_some_iff.mp hload
  obtain ⟨startCp, hstart, hload⟩ := Option.bind_eq_some_iff.mp hload
  by_cases hbad : payload = 0 ∧ 3903 < read32 (f2ReadBlock d part startCp) cpOffSitVerBytes
  · rw [if_pos hbad] at hload
    cases hload
  rw [if_neg hbad] at hload
  obtain rfl := Option.some.inj hload
  obtain ⟨w, hvalid, h1, h2⟩ := readsHigher_iff.mpr hfits startCp hstart
  -- The pack that was picked has the same version as the one that is read.
  have hplace : startCp = packOf g w := by
    rcases f2PickCp_cases d part g with ⟨u, hu, hmax⟩ | ⟨u, hu, hmax⟩ | ⟨hnone, hnone2⟩
    · have hs := Option.some.inj (hstart.symm.trans (f2StartCp_of_pick (f2PickCp_first hu hmax) hu))
      have hle : w ≤ u := by
        by_cases hodd : OddVer u
        · rw [hs, packOf_odd hodd] at hvalid
          rw [Option.some.inj (hu.symm.trans hvalid)]
          exact BitVec.le_refl w
        · rw [hs, packOf_even hodd] at hvalid
          exact hmax w hvalid
      rw [hs, BitVec.le_antisymm hle (h1 u hu)]
    · have hs := Option.some.inj (hstart.symm.trans (f2StartCp_of_pick (f2PickCp_second hu hmax) hu))
      have hle : w ≤ u := by
        by_cases hodd : OddVer u
        · rw [hs, packOf_odd hodd] at hvalid
          exact BitVec.le_of_lt (hmax w hvalid)
        · rw [hs, packOf_even hodd] at hvalid
          rw [Option.some.inj (hu.symm.trans hvalid)]
          exact BitVec.le_refl w
      rw [hs, BitVec.le_antisymm hle (h2 u hu)]
    · rw [f2PickCp_none hnone hnone2] at hpick
      cases hpick
  have hver : read64 (f2ReadBlock d part startCp) cpOffVer = w := f2ValidateCp_head hvalid
  refine ⟨hg, ?_, ?_, ?_, ⟨rfl, rfl, rfl, rfl⟩, hroom⟩
  · exact hplace.trans (congrArg (packOf g) hver.symm)
  · exact hvalid.trans (congrArg some hver.symm)
  · intro x hx
    have hx : f2ValidateCp d part g.bps (packOf g (read64 (f2ReadBlock d part startCp) cpOffVer + 1)) = some x := hx
    change x ≤ read64 (f2ReadBlock d part startCp) cpOffVer
    rw [hver] at hx ⊢
    by_cases hodd : OddVer (w + 1)
    · rw [packOf_odd hodd] at hx
      exact h1 x hx
    · rw [packOf_even hodd] at hx
      exact h2 x hx

theorem Running.standing (h : Running v) : Standing v := by
  induction h with
  | mounted hmount hfits hroom => exact standing_of_mount hmount hfits hroom
  | worked _ hworks ih => exact ih.worked hworks
  | committed _ dBlocks dNodes dInodes hmore ih => exact ih.committed hmore

def bytesOf (l : List (Nat × Byte)) : Mem := fun x => (l.lookup x).getD 0

def blankCp : Mem := bytesOf [(132, 5), (136, 6), (140, 1)]

def firstCp : Mem := cpNext blankCp 0 0 0

def smallBlock (cp : Mem) (b : Nat) : Mem :=
  if b = 0 then
    bytesOf [(1024, 0x10), (1025, 0x20), (1026, 0xF5), (1027, 0xF2), (1032, 9), (1036, 3), (1040, 12), (1044, 3), (1060, 24),
      (1092, 1), (1100, 1), (1104, 17), (1108, 18), (1112, 19), (1116, 20), (1120, 3)]
  else if b = 1 ∨ b = 6 then cp
  else if b = 18 then bytesOf [(32, 20)]
  else if b = 20 then bytesOf [(1, 0x40)]
  else zeros

def smallDisk (cp : Mem) : Device := fun lba x => smallBlock cp (lba.toNat / 8) (lba.toNat % 8 * 512 + x)

def smallGeo : Geometry :=
  { bps := 8, cpBlkaddr := 1, sitBlkaddr := 17, natBlkaddr := 18, ssaBlkaddr := 19, mainBlkaddr := 20, rootIno := 3
    totalBlocks := 24, mainSegs := 1 }

def smallVol : Vol := loaded (smallDisk firstCp) 0 0 smallGeo 1 1

theorem smallDisk_block (cp : Mem) {blk : U32} (hblk : blk.toNat < 536870912) {x : Nat} (hx : x < 4096) :
    f2ReadBlock (smallDisk cp) 0 blk x = smallBlock cp blk.toNat x := by
  have hnat := @toNat_block 0 blk (x / 512) hblk (by omega)
  have hsub : sectorOf 0 blk (x / 512) - 0 = sectorOf 0 blk (x / 512) := BitVec.sub_zero _
  rw [hsub] at hnat
  have hdiv : (blk.toNat * 8 + x / 512) / 8 = blk.toNat := by omega
  have hoff : (blk.toNat * 8 + x / 512) % 8 * 512 + x % 512 = x := by omega
  unfold f2ReadBlock smallDisk
  rw [if_pos hx, hnat, hdiv, hoff]

theorem smallDisk_first {cp : Mem} (hs : CpSound cp) (htotal : read32 cp cpOffPackTotal = 6) :
    f2ValidateCp (smallDisk cp) 0 8 1 = some (read64 cp cpOffVer) := by
  have hblock : ∀ blk : U32, blk = 1 ∨ blk = 6 → ∀ x < 4096, f2ReadBlock (smallDisk cp) 0 blk x = cp x := by
    rintro blk (rfl | rfl) x hx
    · exact smallDisk_block cp (by decide) hx
    · exact smallDisk_block cp (by decide) hx
  have hver : ∀ blk : U32, blk = 1 ∨ blk = 6 → read64 (f2ReadBlock (smallDisk cp) 0 blk) cpOffVer = read64 cp cpOffVer :=
    fun blk hblk => read64_congr fun x _ hx => hblock blk hblk x (Nat.lt_trans hx (by decide))
  have hlen : read32 (f2ReadBlock (smallDisk cp) 0 1) cpOffPackTotal = 6 :=
    (read32_congr fun x _ hx => hblock 1 (Or.inl rfl) x (Nat.lt_trans hx (by decide))).trans htotal
  have hlast : (1 : U32) + (6 - 1) = 6 := rfl
  have hpass := @f2ValidateCp_eq_some 0 (smallDisk cp) 8 1 (hs.congr (hblock 1 (Or.inl rfl))) (by rw [hlen]; decide)
    (by rw [hlen]; decide)
  rw [hlen, hlast, hver 1 (Or.inl rfl), hver 6 (Or.inr rfl)] at hpass
  exact hpass (hs.congr (hblock 6 (Or.inr rfl))) rfl

theorem smallDisk_second (cp : Mem) : f2ValidateCp (smallDisk cp) 0 8 (1 + 8) = none := by
  have hplace : read32 (f2ReadBlock (smallDisk cp) 0 9) cpOffCksumOff = read32 zeros cpOffCksumOff :=
    read32_congr fun x _ hx => smallDisk_block cp (by decide) (Nat.lt_trans hx (by decide))
  have hbad : ¬ CpSound (f2ReadBlock (smallDisk cp) 0 (1 + 8)) := by
    intro hs
    have h := hs.1
    exact absurd (hplace.symm.trans h) (by decide)
  unfold f2ValidateCp
  exact if_pos hbad

theorem smallDisk_fits {cp : Mem} (hs : CpSound cp) (htotal : read32 cp cpOffPackTotal = 6) :
    ParityFits (smallDisk cp) 0 smallGeo ↔ OddVer (read64 cp cpOffVer) := by
  have h1 : f2ValidateCp (smallDisk cp) 0 smallGeo.bps smallGeo.cpBlkaddr = _ := smallDisk_first hs htotal
  have h2 : f2ValidateCp (smallDisk cp) 0 smallGeo.bps (smallGeo.cpBlkaddr + smallGeo.bps) = none := smallDisk_second cp
  constructor
  · rintro ⟨hodd, -⟩
    exact hodd _ h1 fun w hw => absurd (h2.symm.trans hw).symm (Option.some_ne_none w)
  · intro hodd
    refine ⟨fun w hw _ => ?_, fun w hw => absurd (h2.symm.trans hw).symm (Option.some_ne_none w)⟩
    rwa [← Option.some.inj (h1.symm.trans hw)]

theorem firstCp_total : read32 firstCp cpOffPackTotal = 6 := (read32_cpNext (by decide)).trans (by decide)

theorem firstCp_ver : read64 firstCp cpOffVer = 1 := read64_cpNext_ver.trans (by decide)

theorem firstCp_sound : CpSound firstCp := cpSound_cpNext

theorem firstCp_fits : ParityFits (smallDisk firstCp) 0 smallGeo := by
  rw [smallDisk_fits firstCp_sound firstCp_total, firstCp_ver]
  decide

theorem smallVol_roomy : Roomy smallVol.geo smallVol.cp := by
  have hall : 0 < smallGeo.cpBlkaddr.toNat ∧ smallGeo.cpBlkaddr.toNat + 2 * smallGeo.bps.toNat ≤ 536870912 ∧
      5 ≤ smallGeo.bps.toNat ∧ (read32 smallVol.cp cpOffPackStartSum).toNat = 1 ∧
      (read32 smallVol.cp cpOffPackTotal).toNat = 6 ∧ f2JournalOff smallVol.cp = 1 ∧
      ¬ 3903 < read32 smallVol.cp cpOffSitVerBytes := by decide
  obtain ⟨hpos, hfits, hsegs, hsum, htotal, hjournal, hbitmap⟩ := hall
  have hsum32 : read32 smallVol.cp cpOffPackStartSum = 1 := BitVec.eq_of_toNat_eq hsum
  have htotal32 : read32 smallVol.cp cpOffPackTotal = 6 := BitVec.eq_of_toNat_eq htotal
  refine ⟨⟨hpos, hfits⟩, hsegs, by omega, Or.inl hsum, ?_, ?_, ?_, ?_, hbitmap⟩
  · rw [hsum32, htotal32]
    decide
  · rw [htotal32]
    decide
  · rw [hsum]
    decide
  · rw [hjournal]
    decide

theorem smallVol_mounts : f2fsMount (smallDisk firstCp) 0 0 = some smallVol := by
  have hgeo : f2Geometry (smallDisk firstCp) 0 = some smallGeo := rfl
  have hfirst : f2ValidateCp (smallDisk firstCp) 0 smallGeo.bps (packOf smallGeo 1) = some 1 :=
    (smallDisk_first firstCp_sound firstCp_total).trans (congrArg some firstCp_ver)
  have hsecond : f2ValidateCp (smallDisk firstCp) 0 smallGeo.bps (packOf smallGeo (1 + 1)) = none := smallDisk_second firstCp
  obtain ⟨hstart, a, hpick, hver⟩ := startCp_of_newer hfirst fun w hw => absurd (hsecond.symm.trans hw).symm
    (Option.some_ne_none w)
  have hload : f2Load (smallDisk firstCp) 0 0 = some smallVol :=
    f2Load_eq hgeo hstart hpick hver smallVol_roomy.bitmapFits
  have hroot : (f2ReadNode smallVol smallVol.geo.rootIno).map isDirNode = some true := by decide
  obtain ⟨root, hread, hdir⟩ := Option.map_eq_some_iff.mp hroot
  unfold f2fsMount
  rw [hload]
  change (f2ReadNode smallVol smallVol.geo.rootIno >>= fun root => if isDirNode root then some smallVol else none) = _
  rw [hread]
  exact if_pos hdir

theorem smallVol_running : Running smallVol :=
  .mounted smallVol_mounts firstCp_fits smallVol_roomy

def busyVol : Vol := { smallVol with natj := bytesOf [(0, 1), (2, 4), (7, 4), (11, 21)] }

theorem busyVol_running : Running busyVol :=
  .worked smallVol_running ⟨rfl, rfl, rfl, rfl, fun _ _ _ => rfl, rfl, ⟨rfl, rfl, rfl, rfl⟩⟩

def secondCp : Mem := cpNext firstCp 0 0 0

end Ezos.F2fs
