import Ezos.Ntfs.Nodes

/-!
# What a directory lists

A directory in order has a root node, and when it is large an index block for every bit of its bitmap. Its walk is a
fold over the entries of these nodes, and a lookup is the first of them that fits.
-/

namespace Ezos.Ntfs

open Lib.Memory Lib.FaultyStore Exfat

set_option autoImplicit false

variable {m : Mnt} {disk disk' : Device} {indx rec rec' : Mem} {Foreign : U32 → Prop}

structure RootOk (m : Mnt) (rec : Mem) (root pos : Nat) (ps : List Nat) : Prop where
  found : ntGetIndexRoot rec = some root
  first : ntIndexEntries rec m.recBytes (valueOff rec root + 0x10) = some pos
  node : Node rec m.recBytes pos ps
  used : ∀ p ∈ ps, p + entLen rec p ≤ (read32 rec 0x18).toNat

structure BlockOk (m : Mnt) (disk : Device) (indx : Mem) (lbas : List U32) (buf : Mem) (ps : List Nat) : Prop where
  read : ntFixup (gather disk lbas indx) m.idxBytes indxMagic = some buf
  nodup : lbas.Nodup
  usa : UsaOk m.idxSecs buf
  usaEnd : usaOff buf + 2 * usaCount buf ≤ 0x18 + (read32 buf 0x18).toNat
  used : 0x18 + (read32 buf 0x1C).toNat ≤ m.idxBytes
  node : Node buf (0x18 + (read32 buf 0x1C).toNat) (0x18 + (read32 buf 0x18).toNat) ps
  leaf : ∀ p ∈ ps, entInner buf p = false

def usedOf (m : Mnt) (disk : Device) (rec : Mem) : List Nat :=
  usedBlocks (ntLoadBitmap m disk rec).1 (ntLoadBitmap m disk rec).2

structure LargeOk (m : Mnt) (disk : Device) (indx : Mem) (Foreign : U32 → Prop) (rec : Mem) (alloc : Nat) : Prop where
  nonres : resident rec alloc = false
  bitmap : (ntLoadBitmap m disk rec).2 ≠ 0
  size : m.idxBytes = m.clusterBytes
  blocks : ∀ blk ∈ usedOf m disk rec, ∃ lbas buf ps, walkSecs m rec alloc blk = some lbas ∧
    BlockOk m disk indx lbas buf ps ∧ ∀ a ∈ lbas, Foreign a
  apart : ∀ blk ∈ usedOf m disk rec, ∀ blk' ∈ usedOf m disk rec, blk ≠ blk' → ∀ lbas lbas',
    walkSecs m rec alloc blk = some lbas → walkSecs m rec alloc blk' = some lbas' → lbas.Disjoint lbas'
  offset : ∀ a, ntFindAttr rec ntAtBitmap (some i30) = some a → resident rec a = true →
    (read32 rec (a + 0x14)).toNat = (read16 rec (a + 0x14)).toNat
  nres : ∀ a, ntFindAttr rec ntAtBitmap (some i30) = some a → resident rec a = false → ∀ i lba,
    m.clusterLba (ntRunMap rec (runOff rec a) (ntAttrRunMax m rec a) (BitVec.ofNat 32 (i / m.clusterBytes))) = some lba →
      Foreign (lba + BitVec.ofNat 32 (i % m.clusterBytes / 512))

structure DirOk (m : Mnt) (disk : Device) (indx : Mem) (Foreign : U32 → Prop) (rec : Mem) : Prop
    extends HeaderOk m rec where
  root : ∃ root pos ps, RootOk m rec root pos ps
  large : ∀ alloc, ntFindAttr rec ntAtIndexAlloc (some i30) = some alloc → LargeOk m disk indx Foreign rec alloc

def rootEnts (m : Mnt) (rec : Mem) : List Ent :=
  match ntGetIndexRoot rec with
  | none => []
  | some root =>
    match ntIndexEntries rec m.recBytes (valueOff rec root + 0x10) with
    | none => []
    | some pos => (ntWalkEntries rec pos m.recBytes collect []).getD []

def blockEnts (m : Mnt) (disk : Device) (indx rec : Mem) (alloc blk : Nat) : List Ent :=
  (walkBlock m disk indx rec alloc collect [] blk).getD []

def blockNodes (m : Mnt) (disk : Device) (indx rec : Mem) : List (List Ent) :=
  match ntFindAttr rec ntAtIndexAlloc (some i30) with
  | none => []
  | some alloc => (usedOf m disk rec).map (blockEnts m disk indx rec alloc)

def dirEnts (m : Mnt) (disk : Device) (indx rec : Mem) : List Ent :=
  rootEnts m rec ++ (blockNodes m disk indx rec).flatten

theorem RootOk.ents {root pos : Nat} {ps : List Nat} (h : RootOk m rec root pos ps) : rootEnts m rec = nodeEnts rec ps := by
  unfold rootEnts
  rw [h.found]
  dsimp only
  rw [h.first]
  dsimp only
  rw [ntWalkEntries_node h.node, runCb_collect]
  rfl

variable {lbas : List U32} {buf : Mem} {ps : List Nat} {alloc blk : Nat}

theorem BlockOk.whole (h : BlockOk m disk indx lbas buf ps) : Node buf m.idxBytes (0x18 + (read32 buf 0x18).toNat) ps :=
  h.node.mono h.used

theorem BlockOk.entries (h : BlockOk m disk indx lbas buf ps) :
    ntIndexEntries buf m.idxBytes 0x18 = some (0x18 + (read32 buf 0x18).toNat) := by
  have hroom := h.whole.room
  unfold ntIndexEntries
  rw [if_neg (by omega), if_neg (by omega), if_neg (by omega)]

theorem BlockOk.walk {σ : Type} (h : BlockOk m disk indx lbas buf ps) (hw : walkSecs m rec alloc blk = some lbas)
    (cb : σ → Ent → σ × Bool) (ctx : σ) :
    walkBlock m disk indx rec alloc cb ctx blk = some (runCb cb (nodeEnts buf ps) ctx) := by
  unfold walkBlock
  rw [hw]
  dsimp only
  rw [h.read]
  dsimp only
  rw [h.entries]
  exact ntWalkEntries_node h.whole cb ctx

theorem BlockOk.ents (h : BlockOk m disk indx lbas buf ps) (hw : walkSecs m rec alloc blk = some lbas) :
    blockEnts m disk indx rec alloc blk = nodeEnts buf ps := by
  unfold blockEnts
  rw [h.walk hw, runCb_collect]
  rfl

theorem DirOk.walk {σ : Type} (h : DirOk m disk indx Foreign rec) (cb : σ → Ent → σ × Bool) (ctx : σ) :
    ntDirWalk m disk indx rec cb ctx =
      some ((rootEnts m rec :: blockNodes m disk indx rec).foldl (fun c l => runCb cb l c) ctx) := by
  obtain ⟨root, pos, ps, hroot⟩ := h.root
  rw [List.foldl_cons, hroot.ents]
  unfold ntDirWalk blockNodes
  rw [hroot.found]
  dsimp only
  rw [hroot.first]
  dsimp only
  rw [ntWalkEntries_node hroot.node]
  cases halloc : ntFindAttr rec ntAtIndexAlloc (some i30) with
  | none => rfl
  | some alloc =>
    have hl := h.large alloc halloc
    have hfold : ∀ (l : List Nat) (ctx : σ), (∀ blk ∈ l, blk ∈ usedOf m disk rec) →
        l.foldlM (walkBlock m disk indx rec alloc cb) ctx =
          some ((l.map (blockEnts m disk indx rec alloc)).foldl (fun c l => runCb cb l c) ctx) := by
      intro l
      induction l with
      | nil => exact fun _ _ => rfl
      | cons blk l ih =>
        intro ctx hmem
        obtain ⟨lbas, buf, ps, hw, hb, -⟩ := hl.blocks blk (hmem blk List.mem_cons_self)
        rw [List.foldlM_cons, hb.walk hw, List.map_cons, List.foldl_cons, hb.ents hw]
        exact ih _ fun x hx => hmem x (List.mem_cons_of_mem blk hx)
    dsimp only
    rw [if_neg (by rw [hl.nonres]; exact Bool.false_ne_true), if_neg hl.bitmap]
    exact hfold _ _ fun _ hx => hx

theorem DirOk.list (h : DirOk m disk indx Foreign rec) :
    ntDirWalk m disk indx rec collect [] = some (dirEnts m disk indx rec) := by
  have hfold : ∀ (l : List (List Ent)) (acc : List Ent),
      l.foldl (fun c l => runCb collect l c) acc = acc ++ l.flatten := by
    intro l
    induction l with
    | nil => exact fun acc => (List.append_nil acc).symm
    | cons x l ih =>
      intro acc
      rw [List.foldl_cons, ih, runCb_collect, List.flatten_cons, List.append_assoc]
  rw [h.walk, hfold, List.flatten_cons]
  rfl

/-! ## Lookups -/

def fits (name : List U8) (e : Ent) : Bool := ntNameEq e.name name

theorem find_nodeEnts (buf : Mem) (ps : List Nat) (name : List U8) :
    (nodeEnts buf ps).find? (fits name) =
      ((ps.filter (shown buf)).find? fun p => ntNameEq (entName buf p) name).map (entAt buf) := by
  unfold nodeEnts
  rw [List.find?_map]
  rfl

theorem DirOk.lookup (h : DirOk m disk indx Foreign rec) {name : List U8} {e : Ent}
    (he : ntDirWalk m disk indx rec (ntLookupCb name) none = some (some e)) : e ∈ dirEnts m disk indx rec := by
  have hfold : ∀ (l : List (List Ent)) (c : Option Ent), l.foldl (fun c l => runCb (ntLookupCb name) l c) c = some e →
      e ∈ l.flatten ∨ c = some e := by
    intro l
    induction l with
    | nil => exact fun c hc => Or.inr hc
    | cons x l ih =>
      intro c hc
      rw [List.foldl_cons, runCb_lookup] at hc
      rw [List.flatten_cons, List.mem_append]
      rcases ih _ hc with hmem | hor
      · exact Or.inl (Or.inr hmem)
      · cases hx : x.find? fun e => ntNameEq e.name name with
        | none =>
          rw [hx] at hor
          exact Or.inr hor
        | some e' =>
          rw [hx] at hor
          injection hor with hor
          subst hor
          exact Or.inl (Or.inl (List.mem_of_find?_eq_some hx))
  rw [h.walk] at he
  injection he with he
  rcases hfold _ _ he with hmem | hnone
  · rw [List.flatten_cons] at hmem
    exact hmem
  · exact absurd hnone (by simp)

def InRoot (m : Mnt) (rec : Mem) (loc : Loc) : Prop :=
  loc.inIndx = false ∧ ∃ root pos ps, RootOk m rec root pos ps ∧ loc.off ∈ ps

structure InBlock (m : Mnt) (disk : Device) (indx : Mem) (Foreign : U32 → Prop) (rec : Mem) (loc : Loc) (alloc : Nat)
    (lbas : List U32) (buf : Mem) (ps : List Nat) : Prop where
  inIndx : loc.inIndx = true
  found : ntFindAttr rec ntAtIndexAlloc (some i30) = some alloc
  bitmap : ∃ a, ntFindAttr rec ntAtBitmap (some i30) = some a ∧ resident rec a = true
  used : loc.vcn ∈ usedOf m disk rec
  walkSecs : walkSecs m rec alloc loc.vcn = some lbas
  indxSecs : indxSecs m rec loc.vcn = some lbas
  block : BlockOk m disk indx lbas buf ps
  foreign : ∀ a ∈ lbas, Foreign a
  off : loc.off ∈ ps
  shown : shown buf loc.off = true

theorem LargeOk.test_iff (h : LargeOk m disk indx Foreign rec alloc) {a b : Nat}
    (ha : ntFindAttr rec ntAtBitmap (some i30) = some a) (hres : resident rec a = true) (hb : b < ntIndxBlocks) :
    ntI30BitmapTest rec b = true ↔ b ∈ usedOf m disk rec := by
  have hload : ntLoadBitmap m disk rec = (fun i => rec (valueOff rec a + i), min (valueLen rec a).toNat ntBitmapCap) := by
    unfold ntLoadBitmap
    rw [ha]
    exact if_pos hres
  have hlen := h.bitmap
  have htest : ntI30BitmapTest rec b = (rec (valueOff rec a + b / 8)).getLsbD (b % 8) := by
    unfold ntI30BitmapTest
    rw [ha]
    dsimp only
    rw [if_neg (not_not.mpr hres), h.offset a ha hres]
    rfl
  rw [htest]
  unfold usedOf usedBlocks
  rw [List.mem_filter, List.mem_range]
  have hlt : b < 8 * (ntLoadBitmap m disk rec).2 := by
    have hfour : ntIndxBlocks = 4 := rfl
    omega
  rw [hload] at hlt ⊢
  exact ⟨fun hbit => ⟨hlt, hbit⟩, fun hm => hm.2⟩

theorem resident_of_test {b : Nat} (ht : ntI30BitmapTest rec b = true) :
    ∃ a, ntFindAttr rec ntAtBitmap (some i30) = some a ∧ resident rec a = true := by
  unfold ntI30BitmapTest at ht
  cases ha : ntFindAttr rec ntAtBitmap (some i30) with
  | none =>
    rw [ha] at ht
    exact absurd ht Bool.false_ne_true
  | some a =>
    rw [ha] at ht
    refine ⟨a, rfl, ?_⟩
    by_contra hres
    dsimp only at ht
    rw [if_pos hres] at ht
    exact absurd ht Bool.false_ne_true

theorem LargeOk.indxSecs_eq (h : LargeOk m disk indx Foreign rec alloc) (g : m.Geometry)
    (halloc : ntFindAttr rec ntAtIndexAlloc (some i30) = some alloc) (b : Nat) :
    indxSecs m rec b = walkSecs m rec alloc b := by
  have hpos : 0 < m.clusterBytes := by
    rw [← h.size, g.index]
    exact Nat.mul_pos g.idxPos (by omega)
  unfold indxSecs walkSecs
  rw [halloc]
  dsimp only
  rw [if_neg (by rw [h.nonres]; exact Bool.false_ne_true), h.size, Nat.mul_div_cancel _ hpos, Nat.mul_mod_left]
  simp

theorem gather_indx {indx' : Mem} {lbas : List U32} (g : m.Geometry) (hlen : lbas.length = m.idxSecs)
    (h : ∀ x, m.idxBytes ≤ x → indx' x = indx x) : gather disk lbas indx' = gather disk lbas indx :=
  gather_congr_old fun x hx => h x (by rw [g.index, ← hlen]; exact hx)

theorem length_walkSecs (h : walkSecs m rec alloc blk = some lbas) : lbas.length = m.idxSecs := by
  unfold walkSecs at h
  obtain ⟨lba, -, hl⟩ := Option.map_eq_some_iff.mp h
  rw [← hl, List.length_map, List.length_range]

theorem BlockOk.behind (h : BlockOk m disk indx lbas buf ps) (g : m.Geometry) (hlen : lbas.length = m.idxSecs) {x : Nat}
    (hx : m.idxBytes ≤ x) : buf x = indx x := by
  have hread := h.read
  rw [g.index] at hread hx
  obtain ⟨hmagic, hlow⟩ := ntFixup_some hread
  have hraw : UsaOk m.idxSecs (gather disk lbas indx) := h.usa.congr fun x hx => (hlow x (by omega)).symm
  rw [hraw.fixup_apply hmagic hread (Or.inr hx), gather_old (by rw [hlen]; exact hx)]

theorem LargeOk.findBlocks (h : LargeOk m disk indx Foreign rec alloc) (g : m.Geometry)
    (halloc : ntFindAttr rec ntAtIndexAlloc (some i30) = some alloc) {name : List U8} {loc : Loc} {bs : List Nat}
    {indx' : Mem} (hbs : ∀ b ∈ bs, b < ntIndxBlocks) (hold : ∀ x, m.idxBytes ≤ x → indx' x = indx x)
    (hloc : ntFindBlocks m disk rec name m.idxBytes bs indx' = some loc) :
    ∃ pre post lbas buf ps e, bs = pre ++ loc.vcn :: post ∧ ntI30BitmapTest rec loc.vcn = true ∧
      (∀ b ∈ pre, b ∈ usedOf m disk rec → (blockEnts m disk indx rec alloc b).find? (fits name) = none) ∧
      InBlock m disk indx Foreign rec loc alloc lbas buf ps ∧
      (nodeEnts buf ps).find? (fits name) = some e ∧ e.ref = loc.ref := by
  induction bs generalizing indx' with
  | nil => contradiction
  | cons b bs ih =>
    rw [ntFindBlocks] at hloc
    have hb := hbs b List.mem_cons_self
    have hrest := fun x hx => hbs x (List.mem_cons_of_mem b hx)
    by_cases ht : ntI30BitmapTest rec b = true
    · obtain ⟨a, ha, hres⟩ := resident_of_test ht
      have hused := (h.test_iff ha hres hb).mp ht
      obtain ⟨lbas, buf, ps, hw, hblock, hforeign⟩ := h.blocks b hused
      have hlen := length_walkSecs hw
      have hsecs := (h.indxSecs_eq g halloc b).trans hw
      have hread : ntReadIndx m disk rec b indx' = some buf := by
        rw [ntReadIndx, hsecs]
        dsimp only
        rw [gather_indx g hlen hold]
        exact hblock.read
      have hroom := hblock.whole.room
      rw [if_neg (not_not.mpr ht), hread] at hloc
      dsimp only at hloc
      rw [ntFindIndxFrom_node hblock.whole hblock.leaf name m.idxBytes (by omega)] at hloc
      have hents := find_nodeEnts buf ps name
      cases hfind : (ps.filter (shown buf)).find? fun p => ntNameEq (entName buf p) name with
      | none =>
        rw [hfind] at hloc hents
        obtain ⟨pre, post, lbas', buf', ps', e, heq, htest, hpre, hin⟩ := ih hrest (fun x hx => hblock.behind g hlen hx) hloc
        refine ⟨b :: pre, post, lbas', buf', ps', e, by rw [heq]; rfl, htest, ?_, hin⟩
        intro x hx hxused
        rcases List.mem_cons.mp hx with rfl | hx
        · rw [hblock.ents hw]
          exact hents
        · exact hpre x hx hxused
      | some off =>
        rw [hfind] at hloc hents
        injection hloc with hloc
        subst hloc
        have hmem := List.mem_filter.mp (List.mem_of_find?_eq_some hfind)
        exact ⟨[], bs, lbas, buf, ps, _, rfl, ht, fun x hx => absurd hx List.not_mem_nil,
          ⟨rfl, halloc, ⟨a, ha, hres⟩, hused, hw, hsecs, hblock, hforeign, hmem.1, hmem.2⟩, hents, rfl⟩
    · rw [if_pos ht] at hloc
      obtain ⟨pre, post, lbas', buf', ps', e, heq, htest, hpre, hin⟩ := ih hrest hold hloc
      refine ⟨b :: pre, post, lbas', buf', ps', e, by rw [heq]; rfl, htest, ?_, hin⟩
      intro x hx hxused
      rcases List.mem_cons.mp hx with rfl | hx
      · obtain ⟨a, ha, hres⟩ := resident_of_test htest
        exact absurd ((h.test_iff ha hres hb).mpr hxused) ht
      · exact hpre x hx hxused

theorem usedBlocks_split (bmp : Mem) {len b : Nat} (h : b ∈ usedBlocks bmp len) :
    ∃ post, usedBlocks bmp len = (List.range b).filter (fun i => bitAt bmp i) ++ b :: post ∧ b ∉ post := by
  unfold usedBlocks at h ⊢
  obtain ⟨hlt, hbit⟩ := List.mem_filter.mp h
  have hlt := List.mem_range.mp hlt
  have hsplit : List.range (8 * len) = List.range b ++ (b :: List.range' (b + 1) (8 * len - b - 1)) := by
    have hrest : 8 * len - b = 8 * len - b - 1 + 1 := by omega
    have hcons : List.range' b (8 * len - b) = b :: List.range' (b + 1) (8 * len - b - 1) := by
      rw [hrest, List.range'_succ, Nat.add_sub_cancel]
    have happ : List.range' 0 b ++ List.range' (0 + b) (8 * len - b) = List.range' 0 (b + (8 * len - b)) :=
      List.range'_append_1
    rw [Nat.zero_add] at happ
    rw [List.range_eq_range', List.range_eq_range', ← hcons, happ, Nat.add_sub_cancel' (Nat.le_of_lt hlt)]
  refine ⟨(List.range' (b + 1) (8 * len - b - 1)).filter fun i => bitAt bmp i, ?_, ?_⟩
  · rw [hsplit, List.filter_append, List.filter_cons, if_pos hbit]
  · intro hm
    have := (List.mem_range'_1.mp (List.mem_filter.mp hm).1).1
    omega

theorem range_front {n b : Nat} {pre post : List Nat} (h : List.range n = pre ++ b :: post) : pre = List.range b := by
  have hlen := congrArg List.length h
  rw [List.length_range, List.length_append, List.length_cons] at hlen
  have hb : pre.length = b := by
    have hat : (List.range n)[pre.length]? = some b := by
      rw [h, List.getElem?_append_right (Nat.le_refl _), Nat.sub_self]
      rfl
    rw [List.getElem?_range (by omega)] at hat
    injection hat
  have htake := congrArg (List.take pre.length) h
  rw [List.take_left, List.take_range, Nat.min_eq_left (by omega), hb] at htake
  exact htake.symm

theorem DirOk.findLoc (h : DirOk m disk indx Foreign rec) (g : m.Geometry) {name : List U8} {loc : Loc}
    (hloc : ntFindLoc m disk indx rec name m.idxBytes = some loc) :
    (∃ e, (dirEnts m disk indx rec).find? (fits name) = some e ∧ e.ref = loc.ref) ∧
      (InRoot m rec loc ∨ ∃ alloc lbas buf ps, InBlock m disk indx Foreign rec loc alloc lbas buf ps) := by
  obtain ⟨root, pos, ps, hroot⟩ := h.root
  have hrootRoom := hroot.node.room
  have hentry : ntFindEntry m rec name = (ps.filter (shown rec)).find? fun p => ntNameEq (entName rec p) name := by
    unfold ntFindEntry
    rw [hroot.found]
    dsimp only
    rw [hroot.first]
    exact ntFindEntryFrom_node hroot.node name m.recBytes (by omega)
  have hents := find_nodeEnts rec ps name
  unfold ntFindLoc at hloc
  unfold dirEnts
  rw [hroot.ents, List.find?_append]
  rw [hentry] at hloc
  cases hfind : (ps.filter (shown rec)).find? fun p => ntNameEq (entName rec p) name with
  | some off =>
    rw [hfind] at hloc hents
    injection hloc with hloc
    subst hloc
    have hmem := List.mem_filter.mp (List.mem_of_find?_eq_some hfind)
    rw [hents]
    exact ⟨⟨entAt rec off, rfl, rfl⟩, Or.inl ⟨rfl, root, pos, ps, hroot, hmem.1⟩⟩
  | none =>
    rw [hfind] at hloc hents
    dsimp only at hloc
    rw [hents]
    by_cases hlarge : ntDirIsLarge rec = true
    · rw [if_neg (not_not.mpr hlarge)] at hloc
      obtain ⟨alloc, halloc⟩ := Option.isSome_iff_exists.mp hlarge
      have hl := h.large alloc halloc
      obtain ⟨pre, post, lbas, buf, ps', e, heq, -, hpre, hin, hfirst, href⟩ :=
        hl.findBlocks g halloc (fun b hb => List.mem_range.mp hb) (fun _ _ => rfl) hloc
      refine ⟨⟨e, ?_, href⟩, Or.inr ⟨alloc, lbas, buf, ps', hin⟩⟩
      obtain ⟨post', hsplit, -⟩ := usedBlocks_split _ hin.used
      have hpreEq : pre = List.range loc.vcn := range_front heq
      have hfront : (((List.range loc.vcn).filter fun i => bitAt (ntLoadBitmap m disk rec).1 i).map
          (blockEnts m disk indx rec alloc)).flatten.find? (fits name) = none := by
        rw [List.find?_eq_none]
        intro e he
        obtain ⟨l, hl', hel⟩ := List.mem_flatten.mp he
        obtain ⟨b, hb, rfl⟩ := List.mem_map.mp hl'
        have hbused : b ∈ usedOf m disk rec := by
          unfold usedOf
          rw [hsplit]
          exact List.mem_append_left _ hb
        have hbpre : b ∈ pre := hpreEq ▸ (List.mem_filter.mp hb).1
        exact List.find?_eq_none.mp (hpre b hbpre hbused) e hel
      unfold blockNodes
      rw [halloc]
      dsimp only
      unfold usedOf
      rw [hsplit, List.map_append, List.flatten_append, List.find?_append, hfront, List.map_cons, List.flatten_cons,
        List.find?_append, hin.block.ents hin.walkSecs, hfirst]
      rfl
    · rw [if_pos hlarge] at hloc
      contradiction

/-! ## What a listing depends on -/

section Congr

variable {lo run : Nat}

theorem AgreeFrom.runRead (hs : AgreeFrom lo rec rec') (hlo : lo ≤ run) (nn : Nat) (sig : Bool) :
    ntRunRead rec' run nn sig = ntRunRead rec run nn sig := by
  have hfold : ∀ (l : List Nat) (r : U64), l.foldl (fun (r : U64) i => (r <<< 8) ||| (rec' (run + i)).setWidth 64) r =
      l.foldl (fun (r : U64) i => (r <<< 8) ||| (rec (run + i)).setWidth 64) r := by
    intro l
    induction l with
    | nil => exact fun _ => rfl
    | cons i l ih =>
      intro r
      rw [List.foldl_cons, List.foldl_cons, hs (run + i) (by omega), ih]
  unfold ntRunRead
  rw [hfold]
  by_cases hnn : nn = 0
  · have hno : ∀ b : Mem, ¬ (sig = true ∧ nn ≠ 0 ∧ b (run + nn - 1) &&& 0x80 ≠ 0) := fun b h => h.2.1 hnn
    dsimp only
    rw [if_neg (hno rec), if_neg (hno rec')]
  · rw [hs (run + nn - 1) (by omega)]

theorem AgreeFrom.runMapFrom (hs : AgreeFrom lo rec rec') (fin : Nat) (vcn : U64) (n : Nat) (hlo : lo ≤ run)
    (currVcn lcn : U64) : ntRunMapFrom rec' fin vcn n run currVcn lcn = ntRunMapFrom rec fin vcn n run currVcn lcn := by
  induction n generalizing run currVcn lcn with
  | zero => rfl
  | succ n ih =>
    have h1 : runLenBytes rec' run = runLenBytes rec run := congrArg (fun b : Byte => (b &&& 7).toNat) (hs run hlo)
    have h2 : runOffBytes rec' run = runOffBytes rec run := congrArg (fun b : Byte => ((b >>> 4) &&& 7).toNat) (hs run hlo)
    rw [ntRunMapFrom, ntRunMapFrom, h1, h2]
    dsimp only
    rw [hs.runRead (by omega), hs.runRead (by omega), ih (by omega)]

theorem AgreeFrom.runMap (hs : AgreeFrom lo rec rec') (hlo : lo ≤ run) (maxBytes : Nat) (vcn : U32) :
    ntRunMap rec' run maxBytes vcn = ntRunMap rec run maxBytes vcn := hs.runMapFrom _ _ _ hlo _ _

theorem AgreeFrom.walkSecs (hs : AgreeFrom lo rec rec') (hlo : lo ≤ alloc) (blk : Nat) :
    walkSecs m rec' alloc blk = walkSecs m rec alloc blk := by
  have hrun : lo ≤ Ntfs.runOff rec alloc := Nat.le_trans hlo (Nat.le_add_right _ _)
  unfold Ntfs.walkSecs
  rw [hs.runOff hlo]
  dsimp only
  rw [hs.runMap hrun]

theorem AgreeFrom.attrRunMax (hs : AgreeFrom lo rec rec') {a : Nat} (hlo : lo ≤ a) :
    ntAttrRunMax m rec' a = ntAttrRunMax m rec a := by
  unfold ntAttrRunMax
  rw [hs.read32 (show lo ≤ a + 4 by omega), hs.read16 (show lo ≤ a + 0x20 by omega)]

theorem DirOk.getIndexRoot_congr (h : DirOk m disk indx Foreign rec) (g : m.Geometry) (hs : Alike rec rec') :
    ntGetIndexRoot rec' = ntGetIndexRoot rec := by
  have hagree := h.agreeFrom hs
  unfold ntGetIndexRoot
  rw [h.findAttr_congr g hs]
  cases ha : ntFindAttr rec ntAtIndexRoot (some i30) with
  | none => rfl
  | some root =>
    have hlo := (h.findAttr_some g ha).1
    have hv : firstAttr rec ≤ valueOff rec root := Nat.le_trans hlo (Nat.le_add_right _ _)
    dsimp only
    rw [hagree.resident hlo, hagree.valueOff hlo, hagree.read32 hv]

theorem RootOk.le_first {root pos : Nat} (hr : RootOk m rec root pos ps) : valueOff rec root + 0x10 ≤ pos := by
  have hfirst := hr.first
  unfold ntIndexEntries at hfirst
  rw [Option.ite_none_left_eq_some, Option.ite_none_left_eq_some, Option.ite_none_left_eq_some] at hfirst
  obtain ⟨-, -, -, he⟩ := hfirst
  injection he with he
  omega

theorem ntGetIndexRoot_some {root : Nat} (h : ntGetIndexRoot rec = some root) :
    ntFindAttr rec ntAtIndexRoot (some i30) = some root := by
  unfold ntGetIndexRoot at h
  cases ha : ntFindAttr rec ntAtIndexRoot (some i30) with
  | none =>
    rw [ha] at h
    contradiction
  | some a =>
    rw [ha] at h
    dsimp only at h
    rw [Option.ite_none_left_eq_some, Option.ite_none_left_eq_some] at h
    exact h.2.2

theorem DirOk.root_congr (h : DirOk m disk indx Foreign rec) (g : m.Geometry) (hs : Alike rec rec') {root pos : Nat}
    (hr : RootOk m rec root pos ps) : RootOk m rec' root pos ps ∧ nodeEnts rec' ps = nodeEnts rec ps := by
  have hagree := h.agreeFrom hs
  have hlo := (h.findAttr_some g (ntGetIndexRoot_some hr.found)).1
  have hv : firstAttr rec ≤ valueOff rec root + 0x10 := Nat.le_trans hlo (by unfold valueOff; omega)
  obtain ⟨hnode, hents⟩ := hr.node.congr (Nat.le_trans hv hr.le_first) hagree
  refine ⟨⟨(h.getIndexRoot_congr g hs).trans hr.found, ?_, hnode, ?_⟩, hents⟩
  · rw [hagree.valueOff hlo]
    unfold ntIndexEntries
    rw [hagree.read32 hv]
    exact hr.first
  · intro p hp
    have hle := (hr.node.entOk hp).2
    have hfirst := hr.le_first
    have hlen : entLen rec' p = entLen rec p := congrArg BitVec.toNat (hagree.read16 (by omega))
    have hlow : read32 rec' 0x18 = read32 rec 0x18 := read32_congr fun x _ hx => h.low_of_alike hs (by omega)
    rw [hlen, hlow]
    exact hr.used p hp

theorem DirOk.loadBitmap_congr (h : DirOk m disk indx Foreign rec) (g : m.Geometry) (hs : Alike rec rec')
    (hd : ∀ a, ntFindAttr rec ntAtBitmap (some i30) = some a → resident rec a = false → ∀ x, Foreign x → disk' x = disk x)
    (hl : LargeOk m disk indx Foreign rec alloc) : ntLoadBitmap m disk' rec' = ntLoadBitmap m disk rec := by
  have hagree := h.agreeFrom hs
  unfold ntLoadBitmap
  rw [h.findAttr_congr g hs]
  cases ha : ntFindAttr rec ntAtBitmap (some i30) with
  | none => rfl
  | some a =>
    have hlo := (h.findAttr_some g ha).1
    dsimp only
    rw [hagree.resident hlo]
    cases hres : resident rec a with
    | true =>
      have hbytes : (fun i => rec' (valueOff rec' a + i)) = fun i => rec (valueOff rec a + i) := by
        funext i
        rw [hagree.valueOff hlo]
        exact hagree _ (by unfold valueOff; omega)
      rw [if_pos rfl, if_pos rfl, hbytes, hagree.valueLen hlo]
    | false =>
      have hbytes : ntReadNres m disk' rec' a = ntReadNres m disk rec a := by
        funext i
        unfold ntReadNres
        have hrun : firstAttr rec ≤ runOff rec a := Nat.le_trans hlo (Nat.le_add_right _ _)
        have hmap := hagree.runMap hrun (ntAttrRunMax m rec a) (BitVec.ofNat 32 (i / m.clusterBytes))
        unfold runOff at hmap
        dsimp only
        rw [hagree.attrRunMax hlo, hagree.read16 (show firstAttr rec ≤ a + 0x20 by omega), hmap]
        have hforeign := hl.nres a ha hres i
        unfold runOff at hforeign
        generalize m.clusterLba (ntRunMap rec (a + (read16 rec (a + 0x20)).toNat) (ntAttrRunMax m rec a)
          (BitVec.ofNat 32 (i / m.clusterBytes))) = c at hforeign ⊢
        cases c with
        | none => rfl
        | some lba => exact congrFun (hd a ha hres _ (hforeign lba rfl)) _
      rw [if_neg Bool.false_ne_true, if_neg Bool.false_ne_true, hbytes, hagree.read32 (show firstAttr rec ≤ a + 0x28 by omega)]

theorem walkFrom_collect (buf : Mem) (fin n pos : Nat) (acc : List Ent) :
    ntWalkFrom buf fin collect n pos acc = (ntWalkFrom buf fin collect n pos []).map (acc ++ ·) := by
  induction n generalizing pos acc with
  | zero => rfl
  | succ n ih =>
    rw [ntWalkFrom, ntWalkFrom]
    by_cases hroom : fin < pos + 0x10
    · rw [if_pos hroom, if_pos hroom]
      rfl
    by_cases hlen : entLen buf pos < 0x10 ∨ fin - pos < entLen buf pos
    · rw [if_neg hroom, if_neg hroom, if_pos hlen, if_pos hlen]
      rfl
    rw [if_neg hroom, if_neg hroom, if_neg hlen, if_neg hlen]
    by_cases hlast : entLast buf pos = true
    · rw [if_pos hlast, if_pos hlast, Option.map_some, List.append_nil]
    by_cases hin : entInner buf pos = true
    · rw [if_neg hlast, if_neg hlast, if_pos hin, if_pos hin]
      exact ih _ _
    rw [if_neg hlast, if_neg hlast, if_neg hin, if_neg hin]
    by_cases hkey : fin - pos < 0x52
    · rw [if_pos hkey, if_pos hkey]
      rfl
    by_cases hname : 0 < entNameLen buf pos ∧ ¬ entDos buf pos = true
    · rw [if_neg hkey, if_neg hkey, if_pos hname, if_pos hname]
      by_cases hfit : fin - pos < 0x52 + entNameLen buf pos * 2
      · rw [if_pos hfit, if_pos hfit]
        rfl
      · rw [if_neg hfit, if_neg hfit]
        dsimp only [collect]
        rw [ih, ih _ ([] ++ [entAt buf pos]), Option.map_map]
        refine congrArg (fun f => Option.map f _) ?_
        funext l
        exact List.append_assoc acc [entAt buf pos] l
    · rw [if_neg hkey, if_neg hkey, if_neg hname, if_neg hname]
      exact ih _ _

theorem walkBlock_collect (m : Mnt) (disk : Device) (indx rec : Mem) (alloc blk : Nat) (acc : List Ent) :
    walkBlock m disk indx rec alloc collect acc blk = (walkBlock m disk indx rec alloc collect [] blk).map (acc ++ ·) := by
  unfold walkBlock
  cases walkSecs m rec alloc blk with
  | none => rfl
  | some lbas =>
    dsimp only
    cases ntFixup (gather disk lbas indx) m.idxBytes indxMagic with
    | none => rfl
    | some buf =>
      dsimp only
      cases ntIndexEntries buf m.idxBytes 0x18 with
      | none => rfl
      | some pos => exact walkFrom_collect _ _ _ _ _

theorem DirOk.walkBlock_congr (h : DirOk m disk indx Foreign rec) (g : m.Geometry) (hs : Alike rec rec')
    (halloc : ntFindAttr rec ntAtIndexAlloc (some i30) = some alloc) {lbas : List U32}
    (hw : walkSecs m rec alloc blk = some lbas) (hd : ∀ a ∈ lbas, disk' a = disk a) {σ : Type} (cb : σ → Ent → σ × Bool)
    (ctx : σ) : walkBlock m disk' indx rec' alloc cb ctx blk = walkBlock m disk indx rec alloc cb ctx blk := by
  have hlo := (h.findAttr_some g halloc).1
  unfold walkBlock
  rw [(h.agreeFrom hs).walkSecs hlo, hw]
  dsimp only
  rw [gather_congr hd]

theorem DirOk.walk_small (h : DirOk m disk indx Foreign rec) (g : m.Geometry) (hs : Alike rec rec')
    (hnone : ntFindAttr rec ntAtIndexAlloc (some i30) = none) :
    ntDirWalk m disk' indx rec' collect [] = some (dirEnts m disk indx rec) := by
  obtain ⟨root, pos, ps, hr⟩ := h.root
  obtain ⟨hr', hents⟩ := h.root_congr g hs hr
  unfold ntDirWalk dirEnts blockNodes
  rw [hr'.found]
  dsimp only
  rw [hr'.first]
  dsimp only
  rw [ntWalkEntries_node hr'.node, h.findAttr_congr g hs, hnone, runCb_collect, hents, hr.ents, List.flatten_nil,
    List.append_nil]
  rfl

theorem DirOk.walk_large (h : DirOk m disk indx Foreign rec) (g : m.Geometry) (hs : Alike rec rec')
    (halloc : ntFindAttr rec ntAtIndexAlloc (some i30) = some alloc)
    (hb : ntLoadBitmap m disk' rec' = ntLoadBitmap m disk rec) :
    ntDirWalk m disk' indx rec' collect [] =
      (usedOf m disk rec).foldlM (walkBlock m disk' indx rec' alloc collect) (rootEnts m rec) := by
  obtain ⟨root, pos, ps, hr⟩ := h.root
  obtain ⟨hr', hents⟩ := h.root_congr g hs hr
  have hl := h.large alloc halloc
  have hlo := (h.findAttr_some g halloc).1
  have hres : ¬ resident rec' alloc = true := by
    rw [(h.agreeFrom hs).resident hlo, hl.nonres]
    exact Bool.false_ne_true
  unfold ntDirWalk
  rw [hr'.found]
  dsimp only
  rw [hr'.first]
  dsimp only
  rw [ntWalkEntries_node hr'.node, h.findAttr_congr g hs, halloc, runCb_collect, hents, hr.ents]
  dsimp only
  rw [if_neg hres, hb, if_neg hl.bitmap]
  rfl

theorem foldlM_walkBlock {W : List Ent → Nat → Option (List Ent)} (hW : ∀ acc blk, W acc blk = (W [] blk).map (acc ++ ·))
    {E : Nat → List Ent} {l : List Nat} (h : ∀ blk ∈ l, W [] blk = some (E blk)) (acc : List Ent) :
    l.foldlM W acc = some (acc ++ (l.map E).flatten) := by
  induction l generalizing acc with
  | nil => exact congrArg some (List.append_nil acc).symm
  | cons blk l ih =>
    rw [List.foldlM_cons, hW, h blk List.mem_cons_self, List.map_cons, List.flatten_cons, ← List.append_assoc]
    exact ih (fun x hx => h x (List.mem_cons_of_mem blk hx)) _

theorem DirOk.list_congr (h : DirOk m disk indx Foreign rec) (g : m.Geometry) (hs : Alike rec rec')
    (hd : ∀ a, Foreign a → disk' a = disk a) :
    ntDirWalk m disk' indx rec' collect [] = some (dirEnts m disk indx rec) := by
  cases halloc : ntFindAttr rec ntAtIndexAlloc (some i30) with
  | none => exact h.walk_small g hs halloc
  | some alloc =>
    have hl := h.large alloc halloc
    have hblock : ∀ blk ∈ usedOf m disk rec,
        walkBlock m disk' indx rec' alloc collect [] blk = some (blockEnts m disk indx rec alloc blk) := by
      intro blk hblk
      obtain ⟨lbas, buf, ps, hw, hok, hforeign⟩ := hl.blocks blk hblk
      rw [h.walkBlock_congr g hs halloc hw fun a ha => hd a (hforeign a ha), hok.walk hw, hok.ents hw, runCb_collect]
      rfl
    rw [h.walk_large g hs halloc (h.loadBitmap_congr g hs (fun _ _ _ x hx => hd x hx) hl),
      foldlM_walkBlock (fun acc blk => walkBlock_collect m disk' indx rec' alloc blk acc) hblock]
    unfold dirEnts blockNodes
    rw [halloc]

theorem DirOk.list_changed (h : DirOk m disk indx Foreign rec) (g : m.Geometry) (hs : Alike rec rec') {loc : Loc}
    {lbas : List U32} {buf : Mem} {ps : List Nat} (hin : InBlock m disk indx Foreign rec loc alloc lbas buf ps)
    (hd : ∀ a, Foreign a → a ∉ lbas → disk' a = disk a) :
    ∃ pre post, dirEnts m disk indx rec = pre ++ nodeEnts buf ps ++ post ∧
      ntDirWalk m disk' indx rec' collect [] =
        (walkBlock m disk' indx rec' alloc collect [] loc.vcn).map fun l => pre ++ l ++ post := by
  have hl := h.large alloc hin.found
  obtain ⟨post, hsplit, hpost⟩ := usedBlocks_split _ hin.used
  generalize hfront : (List.range loc.vcn).filter (fun i => bitAt (ntLoadBitmap m disk rec).1 i) = front at hsplit
  have hfrontNot : loc.vcn ∉ front := by
    intro hm
    rw [← hfront] at hm
    exact absurd (List.mem_range.mp (List.mem_filter.mp hm).1) (Nat.lt_irrefl _)
  have hused : usedOf m disk rec = front ++ loc.vcn :: post := hsplit
  have hother : ∀ blk ∈ usedOf m disk rec, blk ≠ loc.vcn →
      walkBlock m disk' indx rec' alloc collect [] blk = some (blockEnts m disk indx rec alloc blk) := by
    intro blk hblk hne
    obtain ⟨lbas', buf', ps', hw, hok, hforeign⟩ := hl.blocks blk hblk
    have hdis := hl.apart blk hblk loc.vcn hin.used hne lbas' lbas hw hin.walkSecs
    rw [h.walkBlock_congr g hs hin.found hw fun a ha => hd a (hforeign a ha) fun ha' => hdis ha ha', hok.walk hw,
      hok.ents hw, runCb_collect]
    rfl
  have hW : ∀ acc blk, walkBlock m disk' indx rec' alloc collect acc blk =
      (walkBlock m disk' indx rec' alloc collect [] blk).map (acc ++ ·) :=
    fun acc blk => walkBlock_collect m disk' indx rec' alloc blk acc
  have hload : ntLoadBitmap m disk' rec' = ntLoadBitmap m disk rec := by
    obtain ⟨a, ha, hres⟩ := hin.bitmap
    refine h.loadBitmap_congr g hs (fun a' ha' hres' => ?_) hl
    rw [ha] at ha'
    injection ha' with ha'
    rw [ha', hres'] at hres
    contradiction
  refine ⟨rootEnts m rec ++ (front.map (blockEnts m disk indx rec alloc)).flatten,
    (post.map (blockEnts m disk indx rec alloc)).flatten, ?_, ?_⟩
  · unfold dirEnts blockNodes
    rw [hin.found]
    dsimp only
    rw [hused, List.map_append, List.flatten_append, List.map_cons, List.flatten_cons, hin.block.ents hin.walkSecs]
    simp only [List.append_assoc]
  · rw [h.walk_large g hs hin.found hload, hused, List.foldlM_append,
      foldlM_walkBlock hW fun blk hblk => hother blk (hused ▸ List.mem_append_left _ hblk)
        fun he => hfrontNot (he ▸ hblk)]
    rw [Option.bind_eq_bind, Option.bind_some, List.foldlM_cons, hW]
    cases hblk : walkBlock m disk' indx rec' alloc collect [] loc.vcn with
    | none => rfl
    | some l =>
      have hpostMem : ∀ blk ∈ post, blk ∈ usedOf m disk rec := by
        intro blk hm
        rw [hused]
        exact List.mem_append_right _ (List.mem_cons_of_mem _ hm)
      exact foldlM_walkBlock hW (fun blk hm => hother blk (hpostMem blk hm) fun he => hpost (he ▸ hm)) _

end Congr

end Ezos.Ntfs
