import Ezos.Ntfs.Bitmaps

/-!
# What `ntfs_rmdir` finds before it changes anything

The parent of the path, the entry in it and the record that the entry leads to; on a consistent volume these records
and those of the bitmaps lie apart.
-/

namespace Ezos.Ntfs

open Lib.Memory Lib.FaultyStore Exfat

set_option autoImplicit false

def listing (m : Mnt) (disk : Device) (sc : Scratch) (no : U32) : Option (List Ent) :=
  (ntReadRecord m disk no sc.ntRec).bind fun rec => ntDirWalk m disk sc.ntIndx rec collect []

def bodyOf (rec : Mem) : Mem := fun x => if usaOff rec ≤ x ∧ x < usaOff rec + 2 * usaCount rec then 0 else rec x

def contents (m : Mnt) (disk : Device) (sc : Scratch) (no : U32) : Option Mem :=
  (ntReadRecord m disk no sc.ntChild).map bodyOf

def mapsOn (m : Mnt) (disk : Device) (sc : Scratch) : Option Maps := (ntMapsLoad m disk sc.ntChild).map Prod.fst

def parentOf (m : Mnt) (disk : Device) (sc : Scratch) (path : List U8) : Option (U32 × List U8) :=
  match ntSplitPath path with
  | none => none
  | some (parentPath, fname) =>
    (ntResolveDir m disk sc.ntIndx sc.ntRec parentPath).map fun r => (r.1, fname)

def entryOf (m : Mnt) (disk : Device) (sc : Scratch) (path : List U8) : Option Ent :=
  match parentOf m disk sc path with
  | none => none
  | some (parent, fname) => (listing m disk sc parent).bind fun l => l.find? (fits fname)

/-! ## The scene of a removal -/

structure Scene (m : Mnt) (disk : Device) (sc : Scratch) (t : Target) (Lp Lc L6 L0 : List U32) (O6 O0 : Mem)
    (a6 a0 : Nat) : Prop where
  geometry : m.Geometry
  parent : Placed m t.parent Lp
  child : Placed m t.loc.ref Lc
  volume : Placed m ntBitmapFile L6
  mft : Placed m 0 L0
  parent_child : Lp.Disjoint Lc
  parent_volume : Lp.Disjoint L6
  parent_mft : Lp.Disjoint L0
  child_volume : Lc.Disjoint L6
  child_mft : Lc.Disjoint L0
  volume_mft : L6.Disjoint L0
  parentOk : HeaderOk m t.parentSave
  parentIs : Exactly m disk t.parent t.parentSave
  parentBehind : Behind m t.parentSave sc.ntRec
  childOk : HeaderOk m t.childSave
  childIs : Exactly m disk t.loc.ref t.childSave
  childBehind : Behind m t.childSave sc.ntChild
  volumeOk : HeaderOk m O6
  volumeIs : Exactly m disk ntBitmapFile O6
  volumeBehind : Behind m O6 sc.ntChild
  volumeMap : BitmapOk m O6 ntAtData a6
  mftOk : HeaderOk m O0
  mftIs : Exactly m disk 0 O0
  mftBehind : Behind m O0 sc.ntChild
  mftMap : BitmapOk m O0 ntAtBitmap a0
  maps : t.maps = mapsOf O6 O0 a6 a0
  dir : DirOk m disk sc.ntIndx (NoRecord m disk sc) t.parentSave
  entry : InRoot m t.parentSave t.loc ∨
    ∃ alloc lbas buf ps, InBlock m disk sc.ntIndx (NoRecord m disk sc) t.parentSave t.loc alloc lbas buf ps
  foreign : ∀ a, NoRecord m disk sc a → a ∉ Lp ∧ a ∉ Lc ∧ a ∉ L6 ∧ a ∉ L0

variable {m : Mnt} {disk : Device} {sc : Scratch} {path : List U8} {t : Target}

theorem rmdirTarget_some (h : rmdirTarget m disk sc path = some t) :
    ∃ parentPath fname child n, ntSplitPath path = some (parentPath, fname) ∧ fname ≠ [dot] ∧
      ntMapsLoad m disk sc.ntChild = some (t.maps, child) ∧
      ntResolveDir m disk sc.ntIndx sc.ntRec parentPath = some (t.parent, t.parentSave) ∧
      ntFindLoc m disk sc.ntIndx t.parentSave fname m.idxBytes = some t.loc ∧
      ntReadRecord m disk t.loc.ref child = some t.childSave ∧ ntRecIsDir t.childSave = true ∧
      ntDirWalk m disk sc.ntIndx t.childSave ntRmdirCountCb 0 = some n ∧ n = 0 := by
  unfold rmdirTarget at h
  generalize hsplit : ntSplitPath path = r at h
  cases r with
  | none => contradiction
  | some r =>
    obtain ⟨parentPath, fname⟩ := r
    dsimp only at h
    rw [Option.ite_none_left_eq_some, Option.ite_none_left_eq_some, not_or] at h
    obtain ⟨⟨hdot, -⟩, -, h⟩ := h
    generalize hmaps : ntMapsLoad m disk sc.ntChild = r at h
    cases r with
    | none => contradiction
    | some r =>
      obtain ⟨maps, child⟩ := r
      dsimp only at h
      generalize hres : ntResolveDir m disk sc.ntIndx sc.ntRec parentPath = r at h
      cases r with
      | none => contradiction
      | some r =>
        obtain ⟨parent, rec⟩ := r
        dsimp only at h
        generalize hloc : ntFindLoc m disk sc.ntIndx rec fname m.idxBytes = r at h
        cases r with
        | none => contradiction
        | some loc =>
          dsimp only at h
          generalize hread : ntReadRecord m disk loc.ref child = r at h
          cases r with
          | none => contradiction
          | some childRec =>
            dsimp only at h
            rw [Option.ite_none_left_eq_some, not_not] at h
            obtain ⟨hdir, h⟩ := h
            generalize hwalk : ntDirWalk m disk sc.ntIndx childRec ntRmdirCountCb 0 = r at h
            cases r with
            | none => contradiction
            | some n =>
              dsimp only at h
              rw [Option.ite_none_left_eq_some, Option.ite_none_left_eq_some, Option.ite_none_left_eq_some] at h
              obtain ⟨hn, -, -, h⟩ := h
              injection h with h
              subst h
              exact ⟨parentPath, fname, child, n, rfl, hdot, rfl, hres, hloc, hread, hdir, hwalk, by omega⟩

theorem ntMapsLoad_some {child buf : Mem} {maps : Maps} (h : ntMapsLoad m disk buf = some (maps, child)) :
    ∃ O6 a6 a0, ntReadRecord m disk ntBitmapFile buf = some O6 ∧ bitmapValue O6 ntAtData = some a6 ∧
      ntReadRecord m disk 0 O6 = some child ∧ bitmapValue child ntAtBitmap = some a0 ∧ maps = mapsOf O6 child a6 a0 := by
  unfold ntMapsLoad at h
  generalize h6 : ntReadRecord m disk ntBitmapFile buf = r at h
  cases r with
  | none => contradiction
  | some O6 =>
    dsimp only at h
    generalize hv6 : bitmapValue O6 ntAtData = r at h
    cases r with
    | none => contradiction
    | some a6 =>
      dsimp only at h
      generalize h0 : ntReadRecord m disk 0 O6 = r at h
      cases r with
      | none => contradiction
      | some O0 =>
        dsimp only at h
        generalize hv0 : bitmapValue O0 ntAtBitmap = r at h
        cases r with
        | none => contradiction
        | some a0 =>
          injection h with h
          injection h with h1 h2
          subst h2
          exact ⟨O6, a6, a0, rfl, hv6, h0, hv0, h1.symm⟩

theorem ntLower_eq_dot {c : U8} (h : ntLower c = dot) : c = dot := by
  revert h
  revert c
  decide

theorem ne_dot_of_fits {fname : List U8} {e : Ent} (hname : fname ≠ [dot]) (h : fits fname e = true) : e.name ≠ [dot] := by
  intro he
  unfold fits ntNameEq at h
  rw [he, beq_iff_eq] at h
  have hone : [ntLower dot] = fname.map ntLower := h
  cases fname with
  | nil => contradiction
  | cons c l =>
    rw [List.map_cons, List.cons.injEq] at hone
    have hl : l = [] := List.map_eq_nil_iff.mp hone.2.symm
    have hc : c = dot := ntLower_eq_dot hone.1.symm
    exact hname (by rw [hl, hc])

theorem bitmapValue_eq {rec : Mem} {type : U32} {a a' : Nat} (h : bitmapValue rec type = some a)
    (hok : BitmapOk m rec type a') : a' = a := by
  rw [hok.value] at h
  injection h

theorem Consistent.scene (hc : Consistent m disk sc) (h : rmdirTarget m disk sc path = some t) :
    (∃ Lp Lc L6 L0 O6 O0 a6 a0, Scene m disk sc t Lp Lc L6 L0 O6 O0 a6 a0) ∧
      (∃ fname, parentOf m disk sc path = some (t.parent, fname)) ∧
      (∃ e, entryOf m disk sc path = some e ∧ e.ref = t.loc.ref) ∧
      listing m disk sc t.parent = some (dirEnts m disk sc.ntIndx t.parentSave) ∧ Reached m disk sc t.loc.ref := by
  obtain ⟨parentPath, fname, child, n, hsplit, hname, hmaps, hres, hloc, hread, hdir, -, -⟩ := rmdirTarget_some h
  have g := hc.geometry
  have hmemRec : sc.ntRec ∈ [sc.ntRec, sc.ntChild] := List.mem_cons_self
  have hmemChild : sc.ntChild ∈ [sc.ntRec, sc.ntChild] := List.mem_cons_of_mem _ List.mem_cons_self
  -- the parent
  obtain ⟨hreach, hparent, hparentDir⟩ := hc.resolveDir hres
  have hliveP : Live m disk sc t.parent := Or.inr (Or.inr hreach)
  obtain ⟨hokP, hisP, hbehindP⟩ := hc.exactly hliveP hmemRec hparent
  have hdirOk := hc.dirs t.parent hreach _ hmemRec t.parentSave hparent hparentDir
  -- the entry and the child
  obtain ⟨⟨e, hfind, href⟩, hentry⟩ := hdirOk.findLoc g hloc
  have hmem := List.mem_of_find?_eq_some hfind
  have hreachC : Reached m disk sc t.loc.ref := href ▸ Reached.entry hreach hparent hparentDir hmem
  have hliveC : Live m disk sc t.loc.ref := Or.inr (Or.inr hreachC)
  have hlive6 : Live m disk sc ntBitmapFile := Or.inr (Or.inl rfl)
  have hlive0 : Live m disk sc 0 := Or.inl rfl
  obtain ⟨Lp, hp⟩ := hc.placed _ hliveP
  obtain ⟨Lc, hcl⟩ := hc.placed _ hliveC
  obtain ⟨L6, h6⟩ := hc.placed _ hlive6
  obtain ⟨L0, h0⟩ := hc.placed _ hlive0
  -- the bitmaps
  obtain ⟨O6, a6, a0, hread6, hval6, hread0, hval0, hmapsEq⟩ := ntMapsLoad_some hmaps
  obtain ⟨hok6, his6, hbehind6⟩ := hc.exactly hlive6 hmemChild hread6
  have hread0' : ntReadRecord m disk 0 sc.ntChild = some child := by
    rw [← hread0]
    exact h0.read_behind g hbehind6
  obtain ⟨hok0, his0, hbehind0⟩ := hc.exactly hlive0 hmemChild hread0'
  have hreadC : ntReadRecord m disk t.loc.ref sc.ntChild = some t.childSave := by
    rw [← hread]
    exact hcl.read_behind g hbehind0
  obtain ⟨hokC, hisC, hbehindC⟩ := hc.exactly hliveC hmemChild hreadC
  obtain ⟨hnot6, a6', hbm6⟩ := hc.volume O6 hread6
  obtain ⟨hnot0, a0', hbm0⟩ := hc.mft child hread0'
  have ha6 := bitmapValue_eq hval6 hbm6
  have ha0 := bitmapValue_eq hval0 hbm0
  subst ha6
  subst ha0
  -- a directory is neither the parent of itself nor the record of a bitmap
  have hne6 : ∀ {no : U32} {buf rec : Mem}, ntReadRecord m disk no buf = some rec → ntRecIsDir rec = true →
      no ≠ ntBitmapFile := by
    intro no buf rec hr hd he
    subst he
    have heq := h6.isDir_eq g hr hread6
    rw [hd, hnot6] at heq
    contradiction
  have hne0 : ∀ {no : U32} {buf rec : Mem}, ntReadRecord m disk no buf = some rec → ntRecIsDir rec = true →
      no ≠ 0 := by
    intro no buf rec hr hd he
    subst he
    have heq := h0.isDir_eq g hr hread0'
    rw [hd, hnot0] at heq
    contradiction
  have hnePC : t.parent ≠ t.loc.ref := by
    intro he
    have hfits : fits fname e = true := List.find?_some hfind
    exact hc.tree t.parent t.parentSave hreach hparent hparentDir e hmem (ne_dot_of_fits hname hfits) (href.trans he.symm)
  have hne60 : ntBitmapFile ≠ 0 := by decide
  have hforeign : ∀ a, NoRecord m disk sc a → a ∉ Lp ∧ a ∉ Lc ∧ a ∉ L6 ∧ a ∉ L0 := fun a ha =>
    ⟨ha _ hliveP _ hp, ha _ hliveC _ hcl, ha _ hlive6 _ h6, ha _ hlive0 _ h0⟩
  have hlist : listing m disk sc t.parent = some (dirEnts m disk sc.ntIndx t.parentSave) := by
    unfold listing
    rw [hparent]
    exact hdirOk.list
  have hparentOf : parentOf m disk sc path = some (t.parent, fname) := by
    unfold parentOf
    rw [hsplit]
    dsimp only
    rw [hres]
    rfl
  refine ⟨⟨Lp, Lc, L6, L0, O6, child, a6', a0', ?_⟩, ⟨fname, hparentOf⟩, ⟨e, ?_, href⟩, hlist, hreachC⟩
  · exact
      { geometry := g
        parent := hp
        child := hcl
        volume := h6
        mft := h0
        parent_child := hc.apart _ _ hliveP hliveC hnePC _ _ hp hcl
        parent_volume := hc.apart _ _ hliveP hlive6 (hne6 hparent hparentDir) _ _ hp h6
        parent_mft := hc.apart _ _ hliveP hlive0 (hne0 hparent hparentDir) _ _ hp h0
        child_volume := hc.apart _ _ hliveC hlive6 (hne6 hread hdir) _ _ hcl h6
        child_mft := hc.apart _ _ hliveC hlive0 (hne0 hread hdir) _ _ hcl h0
        volume_mft := hc.apart _ _ hlive6 hlive0 hne60 _ _ h6 h0
        parentOk := hokP
        parentIs := hisP
        parentBehind := hbehindP
        childOk := hokC
        childIs := hisC
        childBehind := hbehindC
        volumeOk := hok6
        volumeIs := his6
        volumeBehind := hbehind6
        volumeMap := hbm6
        mftOk := hok0
        mftIs := his0
        mftBehind := hbehind0
        mftMap := hbm0
        maps := hmapsEq
        dir := hdirOk
        entry := hentry
        foreign := hforeign }
  · unfold entryOf
    rw [hparentOf]
    dsimp only
    rw [hlist]
    exact hfind

end Ezos.Ntfs
