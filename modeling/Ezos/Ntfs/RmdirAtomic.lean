import Ezos.Ntfs.Blocks
import Ezos.Ntfs.Commit

/-!
# When a failed `ntfs_rmdir` leaves the volume as it was

The entry of a small directory is taken out of the parent's record, whose image the rollback writes back; the one of a
large directory is taken out of an index block, which has no image. The bitmaps go back through a read of their records,
which a write that was cut behind its first sector does not survive.
-/

namespace Ezos.Ntfs

open Lib.Memory Lib.FaultyStore Exfat

set_option autoImplicit false

structure AsBefore (m : Mnt) (disk disk' : Device) (sc : Scratch) (path : List U8) : Prop where
  parent : ∀ no leaf, parentOf m disk sc path = some (no, leaf) → listing m disk' sc no = listing m disk sc no
  target : ∀ e, entryOf m disk sc path = some e → contents m disk' sc e.ref = contents m disk sc e.ref
  maps : mapsOn m disk' sc = mapsOn m disk sc

def Atomic (m : Mnt) (heap : Nat → Bool) (sc : Scratch) (path : List U8) (st : St) : Prop :=
  (ntfsRmdir m heap sc path st).1 = false → AsBefore m st.dev.cells (ntfsRmdir m heap sc path st).2.dev.cells sc path

def Refused (m : Mnt) (disk : Device) (sc : Scratch) (path : List U8) : Prop :=
  ∀ e, entryOf m disk sc path = some e → ∀ rec, ntReadRecord m disk e.ref sc.ntChild = some rec →
    ntRecIsDir rec = false ∨ ∃ l, ntDirWalk m disk sc.ntIndx rec collect [] = some l ∧ l ≠ []

def numberOn (m : Mnt) (disk : Device) (sc : Scratch) (no : U32) : Option U16 :=
  (ntReadRecord m disk no sc.ntChild).map recUsn

/-- The index block of the target has the number of the write that takes the entry out, and lists the same with the
first `f` sectors of that write. -/
def BlockSame (m : Mnt) (disk : Device) (sc : Scratch) (t : Target) (usn : U32) (f : Nat) : Prop :=
  ∃ buf, ntReadIndx m disk t.parentSave t.loc.vcn sc.ntIndx = some buf ∧ recUsn buf = (usn + 1).setWidth 16 ∧
    blockList m (torn m.idxSecs f buf (indxWithout buf t.loc.off)) = blockList m buf

/-- A write that fails after `f` others does no harm: with the entry in the record of the parent, it is not behind the
first sector of a bitmap's record, or that record has the number of the write already; with the entry in an index block,
it is the first one or comes when all is written, or the block is the same for what is written of it. -/
def SparedAt (m : Mnt) (disk : Device) (sc : Scratch) (t : Target) (usn : U32) (f : Nat) : Prop :=
  if t.loc.inIndx then
    f = 0 ∨ m.idxSecs + 4 * m.recSecs ≤ f ∨ f < m.idxSecs ∧ BlockSame m disk sc t usn f
  else
    (2 * m.recSecs < f → f < 3 * m.recSecs → numberOn m disk sc ntBitmapFile = some ((usn + 3).setWidth 16)) ∧
      (3 * m.recSecs < f → f < 4 * m.recSecs → numberOn m disk sc 0 = some ((usn + 4).setWidth 16))

def Spared (m : Mnt) (heap : Nat → Bool) (sc : Scratch) (path : List U8) (st : St) : Prop :=
  ∀ t, rmdirTarget m st.dev.cells sc path = some t → (List.range 4).all heap = true → ∀ f, st.dev.fault = some f →
    SparedAt m st.dev.cells sc t st.usn f

variable {m : Mnt} {disk disk' : Device} {sc : Scratch} {t : Target} {Lp Lc L6 L0 : List U32} {O6 O0 rec child : Mem}
  {a6 a0 f : Nat} {st : St} {path : List U8}

theorem bodyOf_congr {b : Mem} (hO : RecOk m rec) (hs : ∀ x, ¬ InUsa rec x → b x = rec x) : bodyOf b = bodyOf rec := by
  have hlow : ∀ x < 8, b x = rec x := fun x hx => hs x (hO.usa.not_inUsa (Or.inl (by omega)))
  obtain ⟨hoff, hcount⟩ := usa_congr hlow
  funext x
  unfold bodyOf
  rw [hoff, hcount]
  by_cases hx : usaOff rec ≤ x ∧ x < usaOff rec + 2 * usaCount rec
  · rw [if_pos hx, if_pos hx]
  · rw [if_neg hx, if_neg hx]
    exact hs x hx

theorem Holds.contents {no : U32} (h : Holds m disk no Nowhere rec) (hO : RecOk m rec) (hb : Behind m rec sc.ntChild) :
    contents m disk sc no = some (bodyOf rec) := by
  obtain ⟨b, hread, hsame⟩ := h sc.ntChild fun x hx => hb x hx
  unfold Ntfs.contents
  rw [hread]
  exact congrArg some (bodyOf_congr hO fun x hx => hsame x hx id)

theorem asBefore_iff {fname : List U8} {e : Ent} (hpar : parentOf m disk sc path = some (t.parent, fname))
    (hent : entryOf m disk sc path = some e) (href : e.ref = t.loc.ref) :
    AsBefore m disk disk' sc path ↔ listing m disk' sc t.parent = listing m disk sc t.parent ∧
      contents m disk' sc t.loc.ref = contents m disk sc t.loc.ref ∧ mapsOn m disk' sc = mapsOn m disk sc := by
  constructor
  · intro h
    exact ⟨h.parent _ _ hpar, href ▸ h.target e hent, h.maps⟩
  · rintro ⟨hl, hcon, hmaps⟩
    refine ⟨fun no leaf hno => ?_, fun e' he' => ?_, hmaps⟩
    · rw [hpar] at hno
      injection hno with hno
      injection hno with hno _
      exact hno ▸ hl
    · rw [hent] at he'
      injection he' with he'
      rw [← he', href]
      exact hcon

theorem AsBefore.refl (m : Mnt) (disk : Device) (sc : Scratch) (path : List U8) : AsBefore m disk disk sc path :=
  ⟨fun _ _ _ => rfl, fun _ _ => rfl, rfl⟩

namespace Scene

variable (s : Scene m disk sc t Lp Lc L6 L0 O6 O0 a6 a0)

include s

theorem mapsOn_of_holds (h6 : Holds m disk' ntBitmapFile Nowhere O6) (h0 : Holds m disk' 0 Nowhere O0) :
    mapsOn m disk' sc = some t.maps := by
  have hboth : Behind m O0 O6 := fun x hx => (s.volumeBehind x hx).symm.trans (s.mftBehind x hx)
  rw [s.maps]
  exact mapsLoad_holds s.geometry s.volumeMap s.volumeOk s.mftMap s.mftOk h6 h0 s.volumeBehind hboth

theorem mapsOn_eq : mapsOn m disk sc = some t.maps := s.mapsOn_of_holds s.volumeIs.holds s.mftIs.holds

theorem mapsOn_of_lost
    (h : Lost m disk' ntBitmapFile O6 ∨ (Holds m disk' ntBitmapFile Nowhere O6 ∧ Lost m disk' 0 O0)) :
    mapsOn m disk' sc = none := by
  have hboth : Behind m O0 O6 := fun x hx => (s.volumeBehind x hx).symm.trans (s.mftBehind x hx)
  unfold mapsOn
  rw [mapsLoad_lost s.geometry s.volumeOk s.volumeBehind hboth h]
  rfl

theorem mended_iff {usn : U32} : Mended m O6 O0 usn f ↔
    (2 * m.recSecs < f → f < 3 * m.recSecs → numberOn m disk sc ntBitmapFile = some ((usn + 3).setWidth 16)) ∧
      (3 * m.recSecs < f → f < 4 * m.recSecs → numberOn m disk sc 0 = some ((usn + 4).setWidth 16)) := by
  unfold Mended numberOn
  rw [s.volumeIs sc.ntChild s.volumeBehind, s.mftIs sc.ntChild s.mftBehind, Option.map_some, Option.map_some,
    Option.some.injEq, Option.some.injEq]

theorem listing_holds (hp : Holds m disk' t.parent Nowhere t.parentSave)
    (hd : ∀ a, NoRecord m disk sc a → disk' a = disk a) :
    listing m disk' sc t.parent = some (dirEnts m disk sc.ntIndx t.parentSave) := by
  obtain ⟨b, hread, hsame⟩ := hp sc.ntRec s.parentBehind
  unfold listing
  rw [hread]
  exact s.dir.list_congr s.geometry (fun x hx => hsame x hx id) hd

theorem contents_of_holds (h : Holds m disk' t.loc.ref Nowhere t.childSave) :
    contents m disk' sc t.loc.ref = contents m disk sc t.loc.ref :=
  (h.contents s.childOk.toRecOk fun x hx => (s.childBehind x hx)).trans
    (s.childIs.holds.contents s.childOk.toRecOk fun x hx => (s.childBehind x hx)).symm

theorem small_iff (hd : st.dev.cells = disk) (hin : InRoot m t.parentSave t.loc) {fname : List U8} {e : Ent}
    (hpar : parentOf m disk sc path = some (t.parent, fname)) (hent : entryOf m disk sc path = some e)
    (href : e.ref = t.loc.ref) (hlist : listing m disk sc t.parent = some (dirEnts m disk sc.ntIndx t.parentSave)) :
    ((rmdirCommit m sc.ntIndx t st).1 = false → AsBefore m disk (rmdirCommit m sc.ntIndx t st).2.dev.cells sc path) ↔
      ∀ f, st.dev.fault = some f → SparedAt m disk sc t st.usn f := by
  have g := s.geometry
  obtain ⟨rec, hrem, hrec⟩ := s.dir.remove_root g hin
  have hcommit : rmdirCommit m sc.ntIndx t st = commitWrites m t rec st := by
    unfold rmdirCommit takeEntry
    rw [hin.1, if_neg Bool.false_ne_true, hrem]
  have hspared : ∀ f, SparedAt m disk sc t st.usn f ↔ Mended m O6 O0 st.usn f := by
    intro f
    unfold SparedAt
    rw [hin.1, if_neg Bool.false_ne_true, s.mended_iff]
  have hcells : ∀ a, a ∈ L6 ∨ a ∈ L0 → st.dev.cells a = disk a := fun a _ => congrFun hd a
  rw [hcommit]
  by_cases hp : Passes st (4 * m.recSecs)
  · have hok := s.commit_ok hrec hcells hp
    constructor
    · intro _ f hf
      have := hp f hf
      exact (hspared f).mpr ⟨fun _ _ => by omega, fun _ _ => by omega⟩
    · intro _ hfail
      rw [hok] at hfail
      contradiction
  · obtain ⟨f, hf, hlt⟩ : ∃ f, st.dev.fault = some f ∧ f < 4 * m.recSecs := by
      unfold Passes at hp
      push Not at hp
      exact hp
    obtain ⟨rec', child', st', heq, hcut⟩ := s.commit_cut hrec hcells hf hlt
    have hsp : (∀ f, st.dev.fault = some f → SparedAt m disk sc t st.usn f) ↔ Mended m O6 O0 st.usn f := by
      constructor
      · exact fun h => (hspared f).mp (h f hf)
      · intro h f' hf'
        rw [hf] at hf'
        injection hf' with hf'
        exact hf' ▸ (hspared f).mpr h
    rw [hsp, heq, asBefore_iff hpar hent href]
    constructor
    · intro h
      by_contra hno
      have hmaps := (h rfl).2.2
      rw [s.mapsOn_of_lost (s.rollback_lost hcut.calm hcut.child (hcut.lost hno)), s.mapsOn_eq] at hmaps
      contradiction
    · intro hm _
      obtain ⟨h6, h0⟩ := hcut.mended hm
      have hrolled : Holds m (rollback m t rec' child' st').dev.cells t.loc.ref Nowhere t.childSave ∧
          Holds m (rollback m t rec' child' st').dev.cells ntBitmapFile Nowhere O6 ∧
          Holds m (rollback m t rec' child' st').dev.cells 0 Nowhere O0 := s.rollback_holds hcut.calm hcut.child h6 h0
      obtain ⟨hchild, hh6, hh0⟩ := hrolled
      have hforeign : ∀ a, NoRecord m disk sc a → (rollback m t rec' child' st').dev.cells a = disk a := by
        intro a ha
        obtain ⟨hnp, hnc, hn6, hn0⟩ := s.foreign a ha
        exact ((s.rollback_other rec' child' st' hnp hnc hn6 hn0).trans (hcut.other a hnp hnc hn6 hn0)).trans (congrFun hd a)
      refine ⟨?_, s.contents_of_holds hchild, ?_⟩
      · rw [s.listing_holds (s.rollback_parent hcut.calm rec' child') hforeign, hlist]
      · rw [s.mapsOn_of_holds hh6 hh0, s.mapsOn_eq]

/-! ## An entry of an index block -/

section Block

variable {alloc : Nat} {lbas : List U32} {buf : Mem} {ps : List Nat}
  (hin : InBlock m disk sc.ntIndx (NoRecord m disk sc) t.parentSave t.loc alloc lbas buf ps)

include hin

theorem block_apart {a : U32} (ha : a ∈ lbas) : a ∉ Lp ∧ a ∉ Lc ∧ a ∉ L6 ∧ a ∉ L0 := s.foreign a (hin.foreign a ha)

omit s in
theorem takeEntry_block (st : St) : takeEntry m sc.ntIndx t st =
    ((ntIndxRemove m st t.parentSave sc.ntIndx t.loc.vcn t.loc.off).1, t.parentSave,
      (ntIndxRemove m st t.parentSave sc.ntIndx t.loc.vcn t.loc.off).2) := by
  unfold takeEntry
  rw [hin.inIndx, if_pos rfl]

theorem listing_block (hp : Holds m disk' t.parent Nowhere t.parentSave)
    (hd : ∀ a, NoRecord m disk sc a → a ∉ lbas → disk' a = disk a) :
    listing m disk' sc t.parent = some (dirEnts m disk sc.ntIndx t.parentSave) ↔
      (ntFixup (gather disk' lbas sc.ntIndx) m.idxBytes indxMagic).bind (blockList m) = some (nodeEnts buf ps) := by
  have g := s.geometry
  obtain ⟨b, hread, hsame⟩ := hp sc.ntRec s.parentBehind
  have halike : Alike t.parentSave b := fun x hx => hsame x hx id
  obtain ⟨pre, post, hold, hnew⟩ := s.dir.list_changed g halike hin hd
  have hlo := (s.dir.findAttr_some g hin.found).1
  have hw : walkSecs m b alloc t.loc.vcn = some lbas :=
    ((s.dir.agreeFrom halike).walkSecs hlo t.loc.vcn).trans hin.walkSecs
  have hlist : listing m disk' sc t.parent = ntDirWalk m disk' sc.ntIndx b collect [] := by
    unfold listing
    rw [hread]
    rfl
  rw [hlist, hnew, hold, walkBlock_list hw]
  generalize (ntFixup (gather disk' lbas sc.ntIndx) m.idxBytes indxMagic).bind (blockList m) = r
  cases r with
  | none => exact iff_of_false (Option.some_ne_none _).symm (Option.some_ne_none _).symm
  | some l =>
    rw [Option.map_some, Option.some.injEq, Option.some.injEq, List.append_left_inj, List.append_right_inj]

theorem cut_records (hd : st.dev.cells = disk) (hlist : listing m disk sc t.parent = some (dirEnts m disk sc.ntIndx t.parentSave))
    {fname : List U8} {e : Ent} (hpar : parentOf m disk sc path = some (t.parent, fname))
    (hent : entryOf m disk sc path = some e) (href : e.ref = t.loc.ref) (new : Mem) (k : Nat) :
    AsBefore m disk (cutAt st lbas new k).dev.cells sc path ↔
      (ntFixup (gather (cutAt st lbas new k).dev.cells lbas sc.ntIndx) m.idxBytes indxMagic).bind (blockList m) =
        some (nodeEnts buf ps) := by
  have hother : ∀ a, a ∉ lbas → (cutAt st lbas new k).dev.cells a = disk a :=
    fun a ha => (cutAt_other ha).trans (congrFun hd a)
  have happ : ∀ {a}, a ∈ lbas → a ∉ Lp ∧ a ∉ Lc ∧ a ∉ L6 ∧ a ∉ L0 := fun ha => s.block_apart hin ha
  have hp : Holds m (cutAt st lbas new k).dev.cells t.parent Nowhere t.parentSave :=
    s.parent.holds_congr (fun a ha => hother a fun h => (happ h).1 ha) s.parentIs.holds
  have hc : Holds m (cutAt st lbas new k).dev.cells t.loc.ref Nowhere t.childSave :=
    s.child.holds_congr (fun a ha => hother a fun h => (happ h).2.1 ha) s.childIs.holds
  have h6 : Holds m (cutAt st lbas new k).dev.cells ntBitmapFile Nowhere O6 :=
    s.volume.holds_congr (fun a ha => hother a fun h => (happ h).2.2.1 ha) s.volumeIs.holds
  have h0 : Holds m (cutAt st lbas new k).dev.cells 0 Nowhere O0 :=
    s.mft.holds_congr (fun a ha => hother a fun h => (happ h).2.2.2 ha) s.mftIs.holds
  rw [asBefore_iff hpar hent href, hlist, s.listing_block hin hp fun a _ ha => hother a ha]
  constructor
  · exact fun h => h.1
  · exact fun h => ⟨h, s.contents_of_holds hc, (s.mapsOn_of_holds h6 h0).trans s.mapsOn_eq.symm⟩

omit s in
theorem blockSame_iff {usn : U32} (hread : ntReadIndx m disk t.parentSave t.loc.vcn sc.ntIndx = some buf) :
    BlockSame m disk sc t usn f ↔ recUsn buf = (usn + 1).setWidth 16 ∧
      blockList m (torn m.idxSecs f buf (indxWithout buf t.loc.off)) = some (nodeEnts buf ps) := by
  rw [← hin.block.list]
  constructor
  · rintro ⟨b, hb, hnum, hsame⟩
    rw [hread] at hb
    injection hb with hb
    subst hb
    exact ⟨hnum, hsame⟩
  · exact fun h => ⟨buf, hread, h⟩

theorem block_iff (hd : st.dev.cells = disk) {fname : List U8} {e : Ent}
    (hpar : parentOf m disk sc path = some (t.parent, fname)) (hent : entryOf m disk sc path = some e)
    (href : e.ref = t.loc.ref) (hlist : listing m disk sc t.parent = some (dirEnts m disk sc.ntIndx t.parentSave)) :
    ((rmdirCommit m sc.ntIndx t st).1 = false → AsBefore m disk (rmdirCommit m sc.ntIndx t st).2.dev.cells sc path) ↔
      ∀ f, st.dev.fault = some f → SparedAt m disk sc t st.usn f := by
  have g := s.geometry
  have hlen := length_walkSecs hin.walkSecs
  have hpos := g.idxPos
  have hread : ntReadIndx m disk t.parentSave t.loc.vcn sc.ntIndx = some buf := by
    unfold ntReadIndx
    rw [hin.indxSecs]
    exact hin.block.read
  have hspared : ∀ f, SparedAt m disk sc t st.usn f ↔
      f = 0 ∨ m.idxSecs + 4 * m.recSecs ≤ f ∨ f < m.idxSecs ∧ BlockSame m disk sc t st.usn f := by
    intro f
    unfold SparedAt
    rw [hin.inIndx, if_pos rfl]
  unfold rmdirCommit
  rw [takeEntry_block hin]
  by_cases hp : Passes st m.idxSecs
  · -- the block is written
    rw [hin.remove_ok g hd hp]
    dsimp only
    generalize hst1 : written st lbas (indxWithout buf t.loc.off) = st1
    have hother : ∀ a, a ∉ lbas → st1.dev.cells a = disk a := by
      intro a ha
      rw [← hst1]
      exact (written_other ha).trans (congrFun hd a)
    have hblock : ∀ a, a ∈ lbas → st1.dev.cells a =
        put (secWrites lbas (armed (indxWithout buf t.loc.off) (st.usn + 1)) 0) disk a := by
      intro a _
      rw [← hst1, ← hd]
      rfl
    have hcells : ∀ a, a ∈ L6 ∨ a ∈ L0 → st1.dev.cells a = disk a := by
      intro a ha
      refine hother a fun h => ?_
      have happ := s.block_apart hin h
      exact ha.elim happ.2.2.1 happ.2.2.2
    have hfault : st1.dev.fault = st.dev.fault.map (· - m.idxSecs) := by
      rw [← hst1, ← hlen]
      rfl
    by_cases hp1 : Passes st1 (4 * m.recSecs)
    · have hok := s.commit_ok s.parentOk.toRecOk hcells hp1
      constructor
      · intro _ f hf
        have hle := hp f hf
        have hle1 := hp1 (f - m.idxSecs) (by rw [hfault, hf]; rfl)
        exact (hspared f).mpr (Or.inr (Or.inl (by omega)))
      · intro _ hfail
        rw [hok] at hfail
        contradiction
    · obtain ⟨f1, hf1, hlt⟩ : ∃ f, st1.dev.fault = some f ∧ f < 4 * m.recSecs := by
        unfold Passes at hp1
        push Not at hp1
        exact hp1
      obtain ⟨f, hf, hfe⟩ := Option.map_eq_some_iff.mp (hfault.symm.trans hf1)
      have hge := hp f hf
      obtain ⟨rec', child', st', heq, hcut⟩ := s.commit_cut s.parentOk.toRecOk hcells hf1 hlt
      have hno : ¬ SparedAt m disk sc t st.usn f := by
        rw [hspared]
        omega
      -- the rollback leaves the block without the entry
      have hback : ∀ a, a ∉ Lp → a ∉ Lc → a ∉ L6 → a ∉ L0 →
          (rollback m t rec' child' st').dev.cells a = st1.dev.cells a := fun a hnp hnc hn6 hn0 =>
        (s.rollback_other rec' child' st' hnp hnc hn6 hn0).trans (hcut.other a hnp hnc hn6 hn0)
      have hforeign : ∀ a, NoRecord m disk sc a → a ∉ lbas → (rollback m t rec' child' st').dev.cells a = disk a := by
        intro a ha hnl
        obtain ⟨hnp, hnc, hn6, hn0⟩ := s.foreign a ha
        exact (hback a hnp hnc hn6 hn0).trans (hother a hnl)
      have hgather : gather (rollback m t rec' child' st').dev.cells lbas sc.ntIndx =
          gather (put (secWrites lbas (armed (indxWithout buf t.loc.off) (st.usn + 1)) 0) disk) lbas sc.ntIndx := by
        refine gather_congr fun a ha => ?_
        obtain ⟨hnp, hnc, hn6, hn0⟩ := s.block_apart hin ha
        exact (hback a hnp hnc hn6 hn0).trans (hblock a ha)
      obtain ⟨l, hl, hshort⟩ := hin.block.list_written g hlen hin.off hin.shown
      rw [heq]
      constructor
      · intro h
        have hsame := ((asBefore_iff hpar hent href).mp (h rfl)).1
        rw [hlist, s.listing_block hin (s.rollback_parent hcut.calm rec' child') hforeign, hgather, hl,
          Option.some.injEq] at hsame
        rw [hsame] at hshort
        exact absurd hshort (Nat.lt_irrefl _)
      · exact fun h => absurd (h f hf) hno
  · -- the write of the block is cut
    obtain ⟨f, hf, hlt⟩ : ∃ f, st.dev.fault = some f ∧ f < m.idxSecs := by
      unfold Passes at hp
      push Not at hp
      exact hp
    have hsp : (∀ f, st.dev.fault = some f → SparedAt m disk sc t st.usn f) ↔ SparedAt m disk sc t st.usn f := by
      constructor
      · exact fun h => h f hf
      · intro h f' hf'
        rw [hf] at hf'
        injection hf' with hf'
        exact hf' ▸ h
    rw [hin.remove_cut g hd hf hlt, hsp, hspared]
    dsimp only
    rw [eq_self, true_imp_iff, s.cut_records hin hd hlist hpar hent href]
    by_cases hf0 : f = 0
    · subst hf0
      have hcells : (cutAt st lbas (indxWithout buf t.loc.off) 0).dev.cells = disk := hd
      rw [hcells, hin.block.read, Option.bind_some, hin.block.list]
      exact ⟨fun _ => Or.inl rfl, fun _ => rfl⟩
    · have hcells : (cutAt st lbas (indxWithout buf t.loc.off) f).dev.cells =
          put ((secWrites lbas (armed (indxWithout buf t.loc.off) (st.usn + 1)) 0).take f) disk := by
        rw [← hd]
        rfl
      rw [hcells, hin.block.list_torn g hlen hin.off (Nat.pos_of_ne_zero hf0) hlt, blockSame_iff hin hread]
      by_cases hnum : recUsn buf = (st.usn + 1).setWidth 16
      · rw [if_pos hnum]
        constructor
        · exact fun h => Or.inr (Or.inr ⟨hlt, hnum, h⟩)
        · rintro (h | h | ⟨-, -, h⟩)
          · exact absurd h hf0
          · omega
          · exact h
      · rw [if_neg hnum]
        constructor
        · exact fun h => absurd h.symm (Option.some_ne_none _)
        · rintro (h | h | ⟨-, h, -⟩)
          · exact absurd h hf0
          · omega
          · exact absurd h hnum

end Block

end Scene

theorem DirOk.count_zero {indx : Mem} {Foreign : U32 → Prop} (h : DirOk m disk indx Foreign rec)
    (hn : ntDirWalk m disk indx rec ntRmdirCountCb 0 = some 0) : dirEnts m disk indx rec = [] := by
  have hfold : ∀ (l : List (List Ent)) (c : Nat), l.foldl (fun c l => runCb ntRmdirCountCb l c) c = 0 →
      c = 0 ∧ l.flatten = [] := by
    intro l
    induction l with
    | nil => exact fun c hc => ⟨hc, rfl⟩
    | cons x l ih =>
      intro c hc
      obtain ⟨hzero, hnil⟩ := ih _ hc
      dsimp only at hzero
      rw [runCb_count] at hzero
      by_cases hx : x = []
      · rw [if_pos hx] at hzero
        exact ⟨hzero, by rw [hx, List.flatten_cons, hnil]; rfl⟩
      · rw [if_neg hx] at hzero
        contradiction
  rw [h.walk, Option.some.injEq] at hn
  have hnil := (hfold _ _ hn).2
  rw [List.flatten_cons] at hnil
  exact hnil

theorem rmdirTarget_of_refused (hc : Consistent m disk sc) (hr : Refused m disk sc path) :
    rmdirTarget m disk sc path = none := by
  by_contra hsome
  obtain ⟨t, ht⟩ := Option.ne_none_iff_exists'.mp hsome
  obtain ⟨-, -, -, n, -, -, -, -, -, -, hdir, hwalk, hn⟩ := rmdirTarget_some ht
  obtain ⟨⟨Lp, Lc, L6, L0, O6, O0, a6, a0, s⟩, -, ⟨e, hent, href⟩, -, hreach⟩ := hc.scene ht
  subst hn
  have hread := s.childIs sc.ntChild fun x hx => (s.childBehind x hx)
  have hok := hc.dirs _ hreach sc.ntChild (List.mem_cons_of_mem _ List.mem_cons_self) _ hread hdir
  rcases hr e hent t.childSave (by rw [href]; exact hread) with hfile | ⟨l, hl, hne⟩
  · rw [hdir] at hfile
    contradiction
  · rw [hok.list, Option.some.injEq] at hl
    exact hne (hl.symm.trans (hok.count_zero hwalk))

theorem atomic_iff (m : Mnt) (heap : Nat → Bool) (sc : Scratch) (path : List U8) (st : St)
    (hc : Consistent m st.dev.cells sc) : Atomic m heap sc path st ↔ Spared m heap sc path st := by
  unfold Atomic Spared ntfsRmdir
  cases ht : rmdirTarget m st.dev.cells sc path with
  | none => exact ⟨fun _ _ h => absurd h.symm (Option.some_ne_none _), fun _ _ => AsBefore.refl _ _ _ _⟩
  | some t =>
    dsimp only
    by_cases hheap : (List.range 4).all heap = true
    · obtain ⟨⟨Lp, Lc, L6, L0, O6, O0, a6, a0, s⟩, ⟨fname, hpar⟩, ⟨e, hent, href⟩, hlist, -⟩ := hc.scene ht
      have hall : (∀ t', some t = some t' → (List.range 4).all heap = true → ∀ f, st.dev.fault = some f →
          SparedAt m st.dev.cells sc t' st.usn f) ↔ ∀ f, st.dev.fault = some f → SparedAt m st.dev.cells sc t st.usn f := by
        constructor
        · exact fun h => h t rfl hheap
        · intro h t' he _
          injection he with he
          exact he ▸ h
      rw [if_pos hheap, hall]
      rcases s.entry with hin | ⟨alloc, lbas, buf, ps, hin⟩
      · exact s.small_iff rfl hin hpar hent href hlist
      · exact s.block_iff hin rfl hpar hent href hlist
    · rw [if_neg hheap]
      exact ⟨fun _ _ _ h => absurd h hheap, fun _ _ => AsBefore.refl _ _ _ _⟩

/-- A removal that fails leaves the parent's entries, the target's record and the bitmaps as they were, and one that is
refused writes nothing, exactly when the failing write spares them. -/
theorem rmdir_atomic_iff (m : Mnt) (heap : Nat → Bool) (sc : Scratch) (path : List U8) (st : St)
    (hc : Consistent m st.dev.cells sc) :
    (Atomic m heap sc path st ∧ (Refused m st.dev.cells sc path → ntfsRmdir m heap sc path st = (false, st))) ↔
      Spared m heap sc path st := by
  have hrefused : Refused m st.dev.cells sc path → ntfsRmdir m heap sc path st = (false, st) := by
    intro hr
    unfold ntfsRmdir
    rw [rmdirTarget_of_refused hc hr]
  rw [← atomic_iff m heap sc path st hc]
  exact ⟨fun h => h.1, fun h => ⟨h, hrefused⟩⟩

/-! ## A volume with one empty directory -/

def imageOf (l : List (Nat × Byte)) : Device := fun lba i => (l.lookup (lba.toNat * 512 + i)).getD 0

/-- Records of two sectors from sector 2 on: 0 and 6 with their bitmaps, 5 with the entry `d` of the empty directory 16. -/
def smallImage : Device :=
  imageOf [(1024, 0x46), (1025, 0x49), (1026, 0x4C), (1027, 0x45), (1028, 0x30), (1030, 3), (1044, 0x38), (1046, 1),
    (1048, 0xA0), (1080, 0x80), (1084, 0x48), (1088, 1), (1112, 0x40), (1144, 0x11), (1145, 0x30), (1146, 2),
    (1152, 0xB0), (1156, 0x20), (1168, 8), (1172, 0x18), (1176, 0x61), (1178, 1),
    (6144, 0x46), (6145, 0x49), (6146, 0x4C), (6147, 0x45), (6148, 0x30), (6150, 3), (6164, 0x38), (6166, 3),
    (6168, 0xE0), (6200, 0x90), (6204, 0xA8), (6209, 4), (6210, 0x18), (6220, 0x20), (6224, 0x24), (6226, 0x49),
    (6228, 0x33), (6230, 0x30), (6232, 0x30), (6248, 0x10), (6264, 16), (6272, 0x58), (6339, 0x10), (6344, 1), (6345, 1),
    (6346, 0x64), (6352, 0), (6360, 0x10), (6364, 2),
    (7168, 0x46), (7169, 0x49), (7170, 0x4C), (7171, 0x45), (7172, 0x30), (7174, 3), (7188, 0x38), (7190, 1),
    (7192, 0x58), (7224, 0x80), (7228, 0x20), (7240, 8), (7244, 0x18), (7248, 0xFF),
    (17408, 0x46), (17409, 0x49), (17410, 0x4C), (17411, 0x45), (17412, 0x30), (17414, 3), (17428, 0x38), (17430, 3),
    (17432, 0x88), (17464, 0x90), (17468, 0x50), (17473, 4), (17474, 0x18), (17484, 0x20), (17488, 0x24), (17490, 0x49),
    (17492, 0x33), (17494, 0x30), (17496, 0x30), (17512, 0x10), (17536, 0x10), (17540, 2)]

def smallMnt : Mnt where
  part := 0
  spc := 1
  clusterBytes := 512
  recBytes := 1024
  idxBytes := 512
  mftRunOff := 0x78
  totalClusters := 64
  mmft := smallImage 2

def noScratch : Scratch := ⟨zeros, zeros, zeros⟩

def smallRecords : List U32 := [0, 5, 6, 16]

def smallRec (no : U32) : Mem := (ntReadRecord smallMnt smallImage no zeros).getD zeros

def smallLbas (no : U32) : List U32 := [2 + 2 * no, 3 + 2 * no]

theorem smallMnt_geometry : smallMnt.Geometry := by
  constructor <;> decide

theorem small_facts {no : U32} (h : no ∈ smallRecords) : (ntReadRecord smallMnt smallImage no zeros).isSome = true ∧
    (List.range smallMnt.recSecs).map (smallMnt.recLba no) = (smallLbas no).map some ∧ (smallLbas no).Nodup ∧
      usaCount (smallRec no) = 3 ∧ usaOff (smallRec no) = 0x30 ∧ read32 (smallRec no) 0 = fileMagic ∧
        firstAttr (smallRec no) = 0x38 ∧ (read32 (smallRec no) 0x18).toNat ≤ 1024 ∧
          ntRecIsDir (smallRec no) = (no == 5 || no == 16) := by
  have hall : (smallRecords.all fun no => decide ((ntReadRecord smallMnt smallImage no zeros).isSome = true ∧
      (List.range smallMnt.recSecs).map (smallMnt.recLba no) = (smallLbas no).map some ∧ (smallLbas no).Nodup ∧
        usaCount (smallRec no) = 3 ∧ usaOff (smallRec no) = 0x30 ∧ read32 (smallRec no) 0 = fileMagic ∧
          firstAttr (smallRec no) = 0x38 ∧ (read32 (smallRec no) 0x18).toNat ≤ 1024 ∧
            ntRecIsDir (smallRec no) = (no == 5 || no == 16))) = true := by decide +kernel
  exact of_decide_eq_true (List.all_eq_true.mp hall no h)

theorem small_read {no : U32} (h : no ∈ smallRecords) : ntReadRecord smallMnt smallImage no zeros = some (smallRec no) := by
  obtain ⟨rec, hrec⟩ := Option.isSome_iff_exists.mp (small_facts h).1
  rw [smallRec, hrec]
  rfl

theorem small_placed {no : U32} (h : no ∈ smallRecords) : Placed smallMnt no (smallLbas no) :=
  ⟨(small_facts h).2.1, (small_facts h).2.2.1⟩

theorem small_lbas {no : U32} (h : no ∈ smallRecords) {lbas : List U32} (hp : Placed smallMnt no lbas) :
    lbas = smallLbas no :=
  List.map_injective_iff.mpr (fun _ _ => Option.some.inj) (hp.sectors.symm.trans (small_placed h).sectors)

theorem small_way : (dirEnts smallMnt smallImage zeros (smallRec 5) = [⟨[0x64], 16, true⟩] ∧
      dirEnts smallMnt smallImage zeros (smallRec 16) = []) ∧
    (BitmapOk smallMnt (smallRec 6) ntAtData 0x38 ∧ BitmapOk smallMnt (smallRec 0) ntAtBitmap 0x80) ∧
    (rmdirTarget smallMnt smallImage noScratch [slash, 0x64]).map (fun t => t.loc.inIndx) = some false ∧
      numberOn smallMnt smallImage noScratch ntBitmapFile = some 0 :=
  ⟨by decide +kernel, ⟨⟨by decide +kernel, by decide +kernel, by decide +kernel, by decide +kernel⟩,
    ⟨by decide +kernel, by decide +kernel, by decide +kernel, by decide +kernel⟩⟩, by decide +kernel⟩

theorem small_dirEnts : dirEnts smallMnt smallImage zeros (smallRec 5) = [⟨[0x64], 16, true⟩] ∧
    dirEnts smallMnt smallImage zeros (smallRec 16) = [] := small_way.1

theorem small_read_eq {no : U32} (h : no ∈ smallRecords) {rec : Mem}
    (hr : ntReadRecord smallMnt smallImage no zeros = some rec) : rec = smallRec no :=
  Option.some.inj (hr.symm.trans (small_read h))

theorem small_dirs {no : U32} (h : no = 5 ∨ no = 16) : no ∈ smallRecords := by
  rcases h with h | h
  · rw [h]
    decide
  · rw [h]
    decide

theorem small_entry {no : U32} (h : no = 5 ∨ no = 16) {rec : Mem} {e : Ent}
    (hr : ntReadRecord smallMnt smallImage no noScratch.ntRec = some rec)
    (he : e ∈ dirEnts smallMnt smallImage noScratch.ntIndx rec) : no = 5 ∧ e.ref = 16 := by
  have hrec : rec = smallRec no := small_read_eq (small_dirs h) hr
  rw [hrec] at he
  rcases h with h | h
  · rw [h] at he
    have hents : dirEnts smallMnt smallImage noScratch.ntIndx (smallRec 5) = [⟨[0x64], 16, true⟩] := small_dirEnts.1
    rw [hents, List.mem_singleton] at he
    exact ⟨h, congrArg Ent.ref he⟩
  · rw [h] at he
    have hents : dirEnts smallMnt smallImage noScratch.ntIndx (smallRec 16) = [] := small_dirEnts.2
    rw [hents] at he
    exact absurd he List.not_mem_nil

theorem small_reached {no : U32} (h : Reached smallMnt smallImage noScratch no) : no = 5 ∨ no = 16 := by
  induction h with
  | root => exact Or.inl rfl
  | entry _ hread _ hmem ih => exact Or.inr (small_entry ih hread hmem).2

theorem small_live {no : U32} (h : Live smallMnt smallImage noScratch no) : no ∈ smallRecords := by
  rcases h with h | h | h
  · rw [h]
    decide
  · rw [h]
    decide
  · exact small_dirs (small_reached h)

theorem small_header {no : U32} (h : no ∈ smallRecords) : HeaderOk smallMnt (smallRec no) := by
  obtain ⟨-, -, -, hcount, hoff, hmagic, hfirst, hused, -⟩ := small_facts h
  have hattrs : ∀ no ∈ smallRecords, Attrs (smallRec no) (read32 (smallRec no) 0x18).toNat (firstAttr (smallRec no)) := by
    unfold smallRecords
    simp only [List.forall_mem_cons]
    refine ⟨?_, ?_, ?_, ?_, fun x hx => absurd hx List.not_mem_nil⟩
    · exact .more (by decide +kernel) (by decide +kernel)
        (.more (by decide +kernel) (by decide +kernel) (.done (by decide +kernel)))
    · exact .more (by decide +kernel) (by decide +kernel) (.done (by decide +kernel))
    · exact .more (by decide +kernel) (by decide +kernel) (.done (by decide +kernel))
    · exact .more (by decide +kernel) (by decide +kernel) (.done (by decide +kernel))
  exact
    { usa := ⟨by decide, hcount, by rw [hoff]; decide, by rw [hoff]; decide⟩
      magic := hmagic
      usaEnd := by rw [hoff, hcount, hfirst]; decide
      used := hused
      attrs := hattrs no h }

theorem small_dir {no : U32} (h : no = 5 ∨ no = 16) {Foreign : U32 → Prop} :
    DirOk smallMnt smallImage zeros Foreign (smallRec no) := by
  have hroot : ∃ root pos ps, RootOk smallMnt (smallRec no) root pos ps := by
    rcases h with h | h
    · rw [h]
      refine ⟨0x38, 0x78, [0x78], by decide +kernel, by decide +kernel, ?_, by decide +kernel⟩
      exact .more ⟨by decide +kernel, by decide +kernel, by decide +kernel, by decide +kernel, by decide +kernel⟩
        (.last (by decide +kernel) (by decide +kernel) (by decide +kernel) (by decide +kernel))
    · rw [h]
      refine ⟨0x38, 0x78, [], by decide +kernel, by decide +kernel, ?_, fun x hx => absurd hx List.not_mem_nil⟩
      exact .last (by decide +kernel) (by decide +kernel) (by decide +kernel) (by decide +kernel)
  have hsmall : ntFindAttr (smallRec no) ntAtIndexAlloc (some i30) = none := by
    rcases h with h | h
    · rw [h]
      decide +kernel
    · rw [h]
      decide +kernel
  exact
    { toHeaderOk := small_header (small_dirs h)
      root := hroot
      large := fun alloc ha => absurd (hsmall.symm.trans ha) (Option.some_ne_none alloc).symm }

theorem small_buffer {buf : Mem} (h : buf ∈ [noScratch.ntRec, noScratch.ntChild]) : buf = zeros := by
  rcases List.mem_cons.mp h with h | h
  · exact h
  · exact List.mem_singleton.mp h

theorem small_bitmaps : BitmapOk smallMnt (smallRec 6) ntAtData 0x38 ∧ BitmapOk smallMnt (smallRec 0) ntAtBitmap 0x80 :=
  small_way.2.1

theorem small_isDir {no : U32} (h : no ∈ smallRecords) : ntRecIsDir (smallRec no) = (no == 5 || no == 16) :=
  (small_facts h).2.2.2.2.2.2.2.2

theorem small_consistent : Consistent smallMnt smallImage noScratch where
  geometry := smallMnt_geometry
  placed no h := ⟨_, small_placed (small_live h)⟩
  apart no no' h h' hne lbas lbas' hp hp' := by
    have hall : (smallRecords.all fun no => smallRecords.all fun no' =>
        no == no' || (smallLbas no).all fun a => !(smallLbas no').contains a) = true := by decide
    have hno := List.all_eq_true.mp (List.all_eq_true.mp hall no (small_live h)) no' (small_live h')
    rw [Bool.or_eq_true, beq_iff_eq] at hno
    rw [small_lbas (small_live h) hp, small_lbas (small_live h') hp']
    intro a ha ha'
    have hat := List.all_eq_true.mp (hno.resolve_left hne) a ha
    rw [Bool.not_eq_true', List.contains_eq_mem, decide_eq_false_iff_not] at hat
    exact hat ha'
  records no h buf hb := by
    rw [small_buffer hb]
    exact ⟨_, small_read (small_live h), small_header (small_live h)⟩
  dirs no h buf hb rec hr _ := by
    rw [small_buffer hb] at hr
    rw [small_read_eq (small_live (Or.inr (Or.inr h))) hr]
    exact small_dir (small_reached h)
  kinds no rec h hr _ e he _ rec' hr' := by
    have href := (small_entry (small_reached h) hr he).2
    rw [href] at hr'
    rw [small_read_eq (by decide) hr']
    exact small_isDir (by decide)
  tree no rec h hr _ e he _ := by
    obtain ⟨hno, href⟩ := small_entry (small_reached h) hr he
    rw [hno, href]
    decide
  rootDir rec hr := by
    rw [small_read_eq (by decide) hr]
    exact small_isDir (by decide)
  volume rec hr := by
    rw [small_read_eq (by decide) hr]
    exact ⟨small_isDir (by decide), _, small_bitmaps.1⟩
  mft rec hr := by
    rw [small_read_eq (by decide) hr]
    exact ⟨small_isDir (by decide), _, small_bitmaps.2⟩

def smallState (f : Nat) : St := ⟨⟨smallImage, some f⟩, 0⟩

def smallPath : List U8 := [slash, 0x64]

theorem rmdir_atomic_small :
    (Atomic smallMnt (fun _ => true) noScratch smallPath (smallState 5) ∧
      (Refused smallMnt smallImage noScratch smallPath →
        ntfsRmdir smallMnt (fun _ => true) noScratch smallPath (smallState 5) = (false, smallState 5))) ↔
      Spared smallMnt (fun _ => true) noScratch smallPath (smallState 5) :=
  rmdir_atomic_iff smallMnt (fun _ => true) noScratch smallPath (smallState 5) small_consistent

/-- A write of the volume's bitmap that fails at its second sector leaves a record that nobody can read. -/
theorem rmdir_not_atomic : Consistent smallMnt (smallState 5).dev.cells noScratch ∧
    ¬ Atomic smallMnt (fun _ => true) noScratch smallPath (smallState 5) := by
  refine ⟨small_consistent, fun h => ?_⟩
  have hspared := (atomic_iff smallMnt (fun _ => true) noScratch smallPath (smallState 5) small_consistent).mp h
  obtain ⟨⟨t, ht, hroot⟩, hnumber⟩ := And.imp_left Option.map_eq_some_iff.mp small_way.2.2
  have hat := hspared t ht rfl 5 rfl
  unfold SparedAt at hat
  rw [hroot, if_neg Bool.false_ne_true] at hat
  have hsame := hat.1 (by decide) (by decide)
  rw [show numberOn smallMnt (smallState 5).dev.cells noScratch ntBitmapFile = some 0 from hnumber] at hsame
  exact absurd hsame (by decide)

end Ezos.Ntfs
