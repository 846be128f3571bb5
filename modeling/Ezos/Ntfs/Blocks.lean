import Ezos.Ntfs.DirNodes
import Ezos.Ntfs.Records

/-!
# Taking an entry out of a directory

From a root node an entry is taken in its buffer. `nt_indx_remove` writes the block without the entry in place: when the
write goes through, the walk lists one entry less, and when it is cut, the first sectors are those of the block without
the entry.
-/

namespace Ezos.Ntfs

open Lib.Memory Lib.FaultyStore Exfat

set_option autoImplicit false

variable {m : Mnt} {disk disk' : Device} {indx rec rec' buf buf' : Mem} {lbas : List U32} {ps : List Nat}
  {alloc blk off lo pos : Nat} {st : St}

def blockList (m : Mnt) (buf : Mem) : Option (List Ent) :=
  (ntIndexEntries buf m.idxBytes 0x18).bind fun pos => ntWalkEntries buf pos m.idxBytes collect []

theorem walkBlock_list (hw : walkSecs m rec alloc blk = some lbas) :
    walkBlock m disk indx rec alloc collect [] blk =
      (ntFixup (gather disk lbas indx) m.idxBytes indxMagic).bind (blockList m) := by
  unfold walkBlock blockList
  rw [hw]
  dsimp only
  cases ntFixup (gather disk lbas indx) m.idxBytes indxMagic with
  | none => rfl
  | some buf =>
    dsimp only [Option.bind]
    cases ntIndexEntries buf m.idxBytes 0x18 <;> rfl

theorem AgreeFrom.entAt (hs : AgreeFrom lo buf buf') (hlo : lo ≤ pos) :
    entAt buf' pos = entAt buf pos ∧ entLen buf' pos = entLen buf pos ∧ entLast buf' pos = entLast buf pos ∧
      entInner buf' pos = entInner buf pos ∧ entNameLen buf' pos = entNameLen buf pos ∧
      entDos buf' pos = entDos buf pos := by
  have hunits : ∀ n, unitsAt buf' (pos + 0x52) n = unitsAt buf (pos + 0x52) n :=
    fun n => List.map_congr_left fun i _ => hs.read16 (by omega)
  refine ⟨?_, ?_, ?_, ?_, ?_, ?_⟩
  · unfold Ntfs.entAt entName entRef ntUtf16ToAscii entNameLen Lib.Memory.read64
    rw [hs (pos + 0x50) (by omega), hunits, hs.read32 (show lo ≤ pos by omega), hs.read32 (show lo ≤ pos + 4 by omega),
      hs.read32 (show lo ≤ pos + 0x48 by omega)]
  · exact congrArg BitVec.toNat (hs.read16 (by omega))
  · exact congrArg (fun v : U16 => v &&& 2 != 0) (hs.read16 (by omega))
  · exact congrArg (fun v : U16 => v &&& 1 != 0) (hs.read16 (by omega))
  · exact congrArg BitVec.toNat (hs (pos + 0x50) (by omega))
  · exact congrArg (fun v : Byte => v == 2) (hs (pos + 0x51) (by omega))

theorem AgreeFrom.walkFrom {σ : Type} (hs : AgreeFrom lo buf buf') (fin : Nat) (cb : σ → Ent → σ × Bool) (n : Nat)
    (hlo : lo ≤ pos) (ctx : σ) : ntWalkFrom buf' fin cb n pos ctx = ntWalkFrom buf fin cb n pos ctx := by
  induction n generalizing pos ctx with
  | zero => rfl
  | succ n ih =>
    obtain ⟨hat, hlen, hlast, hin, hname, hdos⟩ := hs.entAt hlo
    have hnext : ∀ ctx, ntWalkFrom buf' fin cb n (pos + entLen buf pos) ctx =
        ntWalkFrom buf fin cb n (pos + entLen buf pos) ctx := fun ctx => ih (by omega) ctx
    rw [ntWalkFrom, ntWalkFrom, hat, hlen, hlast, hin, hname, hdos, hnext]
    cases cb ctx (Ntfs.entAt buf pos) with
    | mk ctx' stop =>
      cases stop with
      | true => rfl
      | false =>
        dsimp only
        rw [hnext]

theorem blockList_congr (hfirst : read32 buf' 0x18 = read32 buf 0x18)
    (hs : AgreeFrom (0x18 + (read32 buf 0x18).toNat) buf buf') : blockList m buf' = blockList m buf := by
  unfold blockList ntIndexEntries
  rw [hfirst]
  split
  · rfl
  · split
    · rfl
    · split
      · rfl
      · exact hs.walkFrom m.idxBytes collect m.idxBytes (Nat.le_refl _) []

theorem BlockOk.list (h : BlockOk m disk indx lbas buf ps) : blockList m buf = some (nodeEnts buf ps) := by
  unfold blockList
  rw [h.entries]
  exact (ntWalkEntries_node h.whole collect []).trans (congrArg some (runCb_collect _ _))

/-! ## The block without the entry -/

theorem cutOut_front {x : Nat} {len fin : U32} (hx : x < off) (hfin : off ≤ (fin - len).toNat) :
    cutOut buf off len fin x = buf x := by
  unfold cutOut
  rw [if_neg (by omega), if_neg (by omega)]

theorem cutOut_moved {x : Nat} {len fin : U32} (hle : len ≤ fin) (hlo : off + len.toNat ≤ x) (hhi : x < fin.toNat) :
    cutOut buf off len fin (x - len.toNat) = buf x := by
  have hsub := BitVec.toNat_sub_of_le hle
  have hback : x - len.toNat + len.toNat = x := by omega
  unfold cutOut
  rw [if_neg (by omega), if_pos (by omega), hback]

theorem cutOut_behind {x : Nat} {len fin : U32} (hx : fin.toNat ≤ x) : cutOut buf off len fin x = buf x := by
  unfold cutOut
  rw [if_neg (by omega), if_neg (by omega)]

theorem toNat_entLen (buf : Mem) (off : Nat) : ((read16 buf (off + 8)).setWidth 32 : U32).toNat = entLen buf off :=
  BitVec.toNat_setWidth_of_le (by decide)

theorem DirOk.remove_root {Foreign : U32 → Prop} (h : DirOk m disk indx Foreign rec) (g : m.Geometry) {loc : Loc}
    (hin : InRoot m rec loc) : ∃ rec', ntRemoveEntry rec loc.off = some rec' ∧ RecOk m rec' := by
  obtain ⟨-, root, pos, ps, hr, hoff⟩ := hin
  have hattr := (h.findAttr_some g (ntGetIndexRoot_some hr.found)).1
  have hend := h.usaEnd
  have hlo := h.usa.lo
  have hle := (hr.node.entOk hoff).2
  have hfirst := hr.le_first
  have hused := hr.used loc.off hoff
  have hsub : loc.off ≤ (read32 rec 0x18 - (read16 rec (loc.off + 8)).setWidth 32).toNat := by
    have hlen := toNat_entLen rec loc.off
    rw [BitVec.toNat_sub_of_le (by rw [BitVec.le_def, hlen]; omega), hlen]
    omega
  have hlow : ∀ x < 8, cutOut rec loc.off ((read16 rec (loc.off + 8)).setWidth 32) (read32 rec 0x18) x = rec x :=
    fun x hx => cutOut_front (by omega) hsub
  unfold ntRemoveEntry
  rw [hr.found]
  refine ⟨_, rfl, h.toRecOk.congr fun x hx => ?_⟩
  unfold valueOff
  rw [write32_of_disjoint (Or.inl (by omega)), write32_of_disjoint (Or.inl (by omega)),
    write32_of_disjoint (Or.inl (by omega)), write32_of_disjoint (Or.inl (by omega))]
  exact hlow x hx

namespace BlockOk

variable (h : BlockOk m disk indx lbas buf ps) (g : m.Geometry) (hoff : off ∈ ps)

include h

theorem header : 0x2A ≤ 0x18 + (read32 buf 0x18).toNat ∧ ∀ x, InUsa buf x → x < 0x18 + (read32 buf 0x18).toNat := by
  have hlo := h.usa.lo
  have hcount := h.usa.count
  have hend := h.usaEnd
  refine ⟨by omega, fun x hx => ?_⟩
  unfold InUsa at hx
  omega

include hoff in
theorem entry : 0x18 + (read32 buf 0x18).toNat ≤ off ∧ off + entLen buf off ≤ 0x18 + (read32 buf 0x1C).toNat := by
  obtain ⟨hent, hle⟩ := h.node.entOk hoff
  exact ⟨hle, hent.fits⟩

include g in
theorem toNat_fin : (0x18 + read32 buf 0x1C).toNat = 0x18 + (read32 buf 0x1C).toNat := by
  have hused := h.used
  have hmax : m.idxBytes ≤ 4096 := g.idxMax
  have h24 : (0x18 : U32).toNat = 0x18 := rfl
  rw [BitVec.toNat_add, h24, Nat.mod_eq_of_lt]
  omega

include g hoff

theorem entLen_le : ((read16 buf (off + 8)).setWidth 32 : U32) ≤ 0x18 + read32 buf 0x1C := by
  have hent := h.entry hoff
  rw [BitVec.le_def, toNat_entLen, h.toNat_fin g]
  omega

theorem toNat_rest : (0x18 + read32 buf 0x1C - (read16 buf (off + 8)).setWidth 32).toNat =
    0x18 + (read32 buf 0x1C).toNat - entLen buf off := by
  rw [BitVec.toNat_sub_of_le (h.entLen_le g hoff), toNat_entLen, h.toNat_fin g]

theorem without_front {x : Nat} (hx : x < off) (hno : x < 0x1C ∨ 0x20 ≤ x) : indxWithout buf off x = buf x := by
  have hent := h.entry hoff
  have hrest := h.toNat_rest g hoff
  exact (write32_of_disjoint hno).trans (cutOut_front hx (by omega))

theorem without_low {x : Nat} (hx : x < 0x1C) : indxWithout buf off x = buf x := by
  have hhead := h.header
  have hent := h.entry hoff
  exact h.without_front g hoff (by omega) (Or.inl hx)

theorem without_behind {x : Nat} (hx : 0x18 + (read32 buf 0x1C).toNat ≤ x) : indxWithout buf off x = buf x := by
  have hhead := h.header
  have hent := h.entry hoff
  exact (write32_of_disjoint (Or.inr (by omega))).trans (cutOut_behind (by rw [h.toNat_fin g]; exact hx))

theorem without_moved :
    Moved (entLen buf off) (off + entLen buf off) (0x18 + (read32 buf 0x1C).toNat) buf (indxWithout buf off) := by
  intro x hlo hhi
  have hhead := h.header
  have hent := h.entry hoff
  have hmoved : cutOut buf off ((read16 buf (off + 8)).setWidth 32) (0x18 + read32 buf 0x1C)
      (x - ((read16 buf (off + 8)).setWidth 32 : U32).toNat) = buf x :=
    cutOut_moved (h.entLen_le g hoff) (by rw [toNat_entLen]; exact hlo) (by rw [h.toNat_fin g]; exact hhi)
  rw [toNat_entLen] at hmoved
  exact (write32_of_disjoint (Or.inr (by omega))).trans hmoved

theorem without_usa : UsaOk m.idxSecs (indxWithout buf off) :=
  h.usa.congr fun _ hx => h.without_low g hoff (by omega)

theorem without_magic : read32 (indxWithout buf off) 0 = indxMagic := by
  obtain ⟨hmagic, hlow⟩ := ntFixup_some h.read
  have hraw : read32 buf 0 = read32 (gather disk lbas indx) 0 := read32_congr fun x _ hx => hlow x (by omega)
  exact ((read32_congr fun x _ hx => h.without_low g hoff (by omega)).trans hraw).trans hmagic

theorem without_first : read32 (indxWithout buf off) 0x18 = read32 buf 0x18 :=
  read32_congr fun _ _ hx => h.without_low g hoff (by omega)

theorem without_list (hshown : shown buf off = true) :
    ∃ l, blockList m (indxWithout buf off) = some l ∧ l.length < (nodeEnts buf ps).length := by
  obtain ⟨pre, post, hsplit⟩ := List.append_of_mem hoff
  have hent := h.entry hoff
  have hhead := h.header
  have hnode := h.node
  rw [hsplit] at hnode
  obtain ⟨hnew, hents⟩ := hnode.remove (fun x hx hlo => h.without_front g hoff hx (Or.inr (by omega)))
    (h.without_moved g hoff)
  have hused := h.used
  have hwhole := hnew.mono (show 0x18 + (read32 buf 0x1C).toNat - entLen buf off ≤ m.idxBytes by omega)
  have hroom := hwhole.room
  refine ⟨nodeEnts buf pre ++ nodeEnts buf post, ?_, ?_⟩
  · unfold blockList ntIndexEntries
    rw [h.without_first g hoff, if_neg (by omega), if_neg (by omega), if_neg (by omega)]
    exact (ntWalkEntries_node hwhole collect []).trans (congrArg some ((runCb_collect _ _).trans hents))
  · have hold : nodeEnts buf ps = nodeEnts buf pre ++ nodeEnts buf (off :: post) := by
      rw [hsplit]
      unfold nodeEnts
      rw [List.filter_append, List.map_append]
    rw [hold, nodeEnts_cons, if_pos hshown, List.length_append, List.length_append, List.length_cons]
    omega

end BlockOk

theorem ntWriteIndx_eq {vcn : Nat} (hsecs : indxSecs m rec vcn = some lbas) (hlen : lbas.length = m.idxSecs)
    (hbuf : UsaOk m.idxSecs buf) (st : St) :
    ntWriteIndx m st rec vcn buf =
      ((st.dev.writeAll (secWrites lbas (armed buf (st.usn + 1)) 0)).1,
        { dev := (st.dev.writeAll (secWrites lbas (armed buf (st.usn + 1)) 0)).2, usn := st.usn + 1 }) := by
  have hlo := hbuf.lo
  have hcount : usaCount (setUsn buf (st.usn + 1)) = usaCount buf :=
    congrArg BitVec.toNat (read16_write16_of_disjoint buf _ (Or.inr (by omega)))
  have hat : ∀ i, ∀ hi : i < lbas.length, lbas[0 + i]? = some lbas[i] := by
    intro i hi
    rw [Nat.zero_add]
    exact List.getElem?_eq_getElem hi
  have hwrite : writeSecs (fun s => lbas[s]?) (armed buf (st.usn + 1)) (List.range' 0 lbas.length) st.dev =
      st.dev.writeAll (secWrites lbas (armed buf (st.usn + 1)) 0) := writeSecs_eq hat st.dev
  rw [hlen, ← List.range_eq_range'] at hwrite
  unfold ntWriteIndx
  rw [hsecs]
  dsimp only
  rw [hcount]
  exact congrArg (fun r : Bool × Store U32 Mem => (r.1, (⟨r.2, st.usn + 1⟩ : St))) hwrite

section Write

variable {loc : Loc} {Foreign : U32 → Prop} (hin : InBlock m disk indx Foreign rec loc alloc lbas buf ps) (g : m.Geometry)
  (hd : st.dev.cells = disk)

include hin hd

theorem InBlock.remove_eq : ntIndxRemove m st rec indx loc.vcn loc.off =
    ntWriteIndx m st rec loc.vcn (indxWithout buf loc.off) := by
  unfold ntIndxRemove ntReadIndx
  rw [hin.indxSecs]
  dsimp only
  rw [hd, hin.block.read]

include g

theorem InBlock.remove_ok (hp : Passes st m.idxSecs) :
    ntIndxRemove m st rec indx loc.vcn loc.off = (true, written st lbas (indxWithout buf loc.off)) := by
  have hlen := length_walkSecs hin.walkSecs
  have hall : ∀ k, st.dev.fault = some k →
      (secWrites lbas (armed (indxWithout buf loc.off) (st.usn + 1)) 0).length ≤ k := by
    intro k hk
    rw [length_secWrites, hlen]
    exact hp k hk
  rw [hin.remove_eq hd, ntWriteIndx_eq hin.indxSecs hlen (hin.block.without_usa g hin.off), Store.writeAll_ok hall,
    length_secWrites]
  rfl

theorem InBlock.remove_cut {k : Nat} (hf : st.dev.fault = some k) (hk : k < m.idxSecs) :
    ntIndxRemove m st rec indx loc.vcn loc.off = (false, cutAt st lbas (indxWithout buf loc.off) k) := by
  have hlen := length_walkSecs hin.walkSecs
  have hlt : k < (secWrites lbas (armed (indxWithout buf loc.off) (st.usn + 1)) 0).length := by
    rw [length_secWrites, hlen]
    exact hk
  rw [hin.remove_eq hd, ntWriteIndx_eq hin.indxSecs hlen (hin.block.without_usa g hin.off), Store.writeAll_torn hf hlt]
  rfl

end Write

section Found

variable (h : BlockOk m disk indx lbas buf ps) (g : m.Geometry) (hlen : lbas.length = m.idxSecs) (hoff : off ∈ ps)
  {usn : U32}

include h

theorem BlockOk.raw : UsaOk m.idxSecs (gather disk lbas indx) ∧ read32 (gather disk lbas indx) 0 = indxMagic ∧
    read16 (gather disk lbas indx) (usaOff (gather disk lbas indx)) = recUsn buf := by
  obtain ⟨hmagic, hlow⟩ := ntFixup_some h.read
  have hok : UsaOk m.idxSecs (gather disk lbas indx) := h.usa.congr fun x hx => (hlow x (by omega)).symm
  have hoff' : usaOff buf = usaOff (gather disk lbas indx) := (usa_congr fun x hx => hlow x (by omega)).1
  have hhi := hok.hi
  refine ⟨hok, hmagic, ?_⟩
  rw [recUsn, hoff']
  exact (read16_congr fun x _ hx => hlow x (by omega)).symm

include g hlen hoff

theorem BlockOk.list_written (hshown : shown buf off = true) :
    ∃ l, (ntFixup (gather (put (secWrites lbas (armed (indxWithout buf off) usn) 0) disk) lbas indx) m.idxBytes
        indxMagic).bind (blockList m) = some l ∧ l.length < (nodeEnts buf ps).length := by
  have hall : (secWrites lbas (armed (indxWithout buf off) usn) 0).take lbas.length =
      secWrites lbas (armed (indxWithout buf off) usn) 0 := List.take_of_length_le (Nat.le_of_eq length_secWrites)
  have hraw : ∀ x, gather (put ((secWrites lbas (armed (indxWithout buf off) usn) 0).take lbas.length) disk) lbas indx x =
      if x < lbas.length * 512 then armed (indxWithout buf off) usn x else gather disk lbas indx x :=
    gather_put_take h.nodup lbas.length (Nat.le_refl _)
  rw [hall, hlen] at hraw
  obtain ⟨b, hb, hlow, hhigh⟩ := (h.without_usa g hoff).fixup_armed (h.without_magic g hoff)
    fun x hx => (hraw x).trans (if_pos hx)
  obtain ⟨l, hl, hlt⟩ := h.without_list g hoff hshown
  have hsame : ∀ x, ¬ InUsa buf x → b x = indxWithout buf off x := by
    intro x hx
    have hoffs := usa_congr fun x hx => h.without_low g hoff (show x < 0x1C by omega)
    by_cases hin : x < m.idxSecs * 512
    · refine hlow x hin ?_
      unfold InUsa at hx ⊢
      rw [hoffs.1, hoffs.2]
      exact hx
    · have hge := Nat.le_of_not_lt hin
      have hbytes : m.idxBytes ≤ x := Nat.le_trans (Nat.le_of_eq g.index) hge
      rw [hhigh x hge, hraw, if_neg hin, gather_old (by rw [hlen]; exact hge), ← h.behind g hlen hbytes]
      exact (h.without_behind g hoff (Nat.le_trans h.used hbytes)).symm
  have hhead := h.header
  refine ⟨l, ?_, hlt⟩
  rw [g.index, hb, Option.bind_some, ← hl]
  refine blockList_congr (read32_congr fun x _ hx => hsame x (h.usa.not_inUsa (Or.inl (by omega)))) fun x hx => ?_
  rw [h.without_first g hoff] at hx
  exact hsame x fun hin => absurd (hhead.2 x hin) (Nat.not_lt.mpr hx)

theorem BlockOk.list_torn {k : Nat} (hk0 : 0 < k) (hk : k < m.idxSecs) :
    (ntFixup (gather (put ((secWrites lbas (armed (indxWithout buf off) usn) 0).take k) disk) lbas indx) m.idxBytes
        indxMagic).bind (blockList m) =
      if recUsn buf = usn.setWidth 16 then blockList m (torn m.idxSecs k buf (indxWithout buf off)) else none := by
  have hraw : ∀ x, gather (put ((secWrites lbas (armed (indxWithout buf off) usn) 0).take k) disk) lbas indx x =
      if x < k * 512 then armed (indxWithout buf off) usn x else gather disk lbas indx x :=
    gather_put_take h.nodup k (by rw [hlen]; exact Nat.le_of_lt hk)
  obtain ⟨hok, hmagic, husn⟩ := h.raw
  have hread := h.read
  have hnew := h.without_usa g hoff
  have hnewMagic := h.without_magic g hoff
  rw [g.index] at hread
  by_cases heq : recUsn buf = usn.setWidth 16
  · obtain ⟨b, hb, hsame, hhigh⟩ := hnew.fixup_torn_some hk0 (Nat.le_of_lt hk) hok hread hmagic hnewMagic
      (husn.trans heq) hraw
    have hoffs := usa_congr fun x hx => h.without_low g hoff (show x < 0x1C by omega)
    have hmixed : ∀ x, ¬ InUsa buf x → b x = torn m.idxSecs k buf (indxWithout buf off) x := by
      intro x hx
      refine hsame x ?_
      unfold InUsa at hx ⊢
      rw [hoffs.1, hoffs.2]
      exact hx
    have hlow : ∀ x < 0x1C, torn m.idxSecs k buf (indxWithout buf off) x = buf x := by
      intro x hx
      unfold torn
      split
      · exact h.without_low g hoff hx
      · rfl
    have hfirst : read32 (torn m.idxSecs k buf (indxWithout buf off)) 0x18 = read32 buf 0x18 :=
      read32_congr fun x _ hx => hlow x (by omega)
    have hhead := h.header
    rw [if_pos heq, g.index, hb, Option.bind_some]
    refine blockList_congr (read32_congr fun x _ hx => hmixed x (h.usa.not_inUsa (Or.inl (by omega)))) fun x hx => ?_
    rw [hfirst] at hx
    exact hmixed x fun hin => absurd (hhead.2 x hin) (Nat.not_lt.mpr hx)
  · rw [if_neg heq, g.index, hnew.fixup_torn_none hk0 hk hok hread hmagic hnewMagic (fun he => heq (husn.symm.trans he)) hraw]
    rfl

end Found

end Ezos.Ntfs
