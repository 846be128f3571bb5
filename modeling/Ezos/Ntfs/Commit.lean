import Ezos.Ntfs.RmdirTarget

/-!
# Rolling back

The rollback writes the images of the two records, whatever is on the disk, but it saves the bitmaps through a read of
their records. So it restores a bitmap whose record can still be read, and leaves one that cannot.
-/

namespace Ezos.Ntfs

open Lib.Memory Lib.FaultyStore

set_option autoImplicit false

variable {m : Mnt} {disk : Device} {sc : Scratch} {t : Target} {Lp Lc L6 L0 : List U32} {O6 O0 rec child : Mem}
  {a6 a0 : Nat} {st : St}

def volumeLen (O6 : Mem) (a6 : Nat) : Nat := min (valueLen O6 a6).toNat (min (valueLen O6 a6).toNat ntBitmapCap)
def mftLen (O0 : Mem) (a0 : Nat) : Nat := min (valueLen O0 a0).toNat ntMbmpBytes

def VolumeBits (O6 : Mem) (a6 : Nat) : Nat → Prop := ValueAt O6 a6 (volumeLen O6 a6)
def MftBits (O0 : Mem) (a0 : Nat) : Nat → Prop := ValueAt O0 a0 (mftLen O0 a0)

theorem copyIn_image {n : Nat} {save buf : Mem} {x : Nat} (hx : x < n) : copyIn buf 0 n save x = save x :=
  if_pos ⟨Nat.zero_le _, by omega⟩

theorem copyIn_behind {n : Nat} {save buf : Mem} {x : Nat} (hx : n ≤ x) : copyIn buf 0 n save x = buf x :=
  if_neg (by omega)

theorem RecOk.image (g : m.Geometry) {save : Mem} (h : RecOk m save) (buf : Mem) :
    RecOk m (copyIn buf 0 m.recBytes save) := by
  have hpos := g.recPos
  have hrec := g.record
  exact h.congr fun x hx => copyIn_image (by omega)

theorem passes_of_calm {n : Nat} (h : st.dev.fault = none) : Passes st n := by
  intro k hk
  rw [h] at hk
  contradiction

theorem written_calm {lbas : List U32} {buf : Mem} (h : st.dev.fault = none) : (written st lbas buf).dev.fault = none := by
  unfold written
  rw [h]
  rfl

theorem written_other {lbas : List U32} {buf : Mem} {a : U32} (ha : a ∉ lbas) :
    (written st lbas buf).dev.cells a = st.dev.cells a := put_secWrites_other ha

theorem cutAt_other {lbas : List U32} {buf : Mem} {k : Nat} {a : U32} (ha : a ∉ lbas) :
    (cutAt st lbas buf k).dev.cells a = st.dev.cells a := put_take_secWrites_other ha

namespace Scene

variable (s : Scene m disk sc t Lp Lc L6 L0 O6 O0 a6 a0)

include s

theorem vbmpLen : t.maps.vbmpLen = min (valueLen O6 a6).toNat ntBitmapCap := by
  rw [s.maps]
  rfl

def imaged (m : Mnt) (t : Target) (Lp Lc : List U32) (rec child : Mem) (st : St) : St :=
  written (written st Lp (copyIn rec 0 m.recBytes t.parentSave)) Lc (copyIn child 0 m.recBytes t.childSave)

theorem rollback_eq (hf : st.dev.fault = none) (rec child : Mem) :
    rollback m t rec child st =
      (ntMapsSave m (imaged m t Lp Lc rec child st)
        (armed (copyIn child 0 m.recBytes t.childSave) (st.usn + 1 + 1)) t.maps).2.2 := by
  have g := s.geometry
  unfold rollback
  rw [s.parent.write_ok g (s.parentOk.toRecOk.image g rec) (passes_of_calm hf)]
  dsimp only
  rw [s.child.write_ok g (s.childOk.toRecOk.image g child) (passes_of_calm (written_calm hf))]
  rfl

theorem rollback_other (rec child : Mem) (st : St) {a : U32} (hp : a ∉ Lp) (hc : a ∉ Lc) (h6 : a ∉ L6) (h0 : a ∉ L0) :
    (rollback m t rec child st).dev.cells a = st.dev.cells a := by
  have hfirst : (ntWriteRecord m st t.parent (copyIn rec 0 m.recBytes t.parentSave)).2.2.dev.cells a = st.dev.cells a :=
    s.parent.write_other st _ hp
  unfold rollback
  generalize ntWriteRecord m st t.parent (copyIn rec 0 m.recBytes t.parentSave) = r at hfirst ⊢
  obtain ⟨ok, rec', st'⟩ := r
  cases ok with
  | false => exact hfirst
  | true =>
    have hsecond := s.child.write_other st' (copyIn child 0 m.recBytes t.childSave) hc
    exact (mapsSave_other s.volume s.mft h6 h0 _).trans (hsecond.trans hfirst)

theorem rollback_parent (hf : st.dev.fault = none) (rec child : Mem) :
    Holds m (rollback m t rec child st).dev.cells t.parent Nowhere t.parentSave := by
  have g := s.geometry
  have hput : Holds m (written st Lp (copyIn rec 0 m.recBytes t.parentSave)).dev.cells t.parent Nowhere t.parentSave :=
    s.parent.holds_put g s.parentOk.toRecOk (fun x hx => copyIn_image hx) _ _
  rw [s.rollback_eq hf]
  refine s.parent.holds_congr (fun a ha => ?_) hput
  rw [mapsSave_other s.volume s.mft (fun h => s.parent_volume ha h) fun h => s.parent_mft ha h]
  exact written_other fun h => s.parent_child ha h

theorem image_behind (hchild : Behind m t.childSave child) (usn : U32) {x : Nat} (hx : m.recBytes ≤ x) :
    armed (copyIn child 0 m.recBytes t.childSave) usn x = sc.ntChild x := by
  have g := s.geometry
  rw [(s.childOk.toRecOk.image g child).usa.armed_behind (by rw [← g.record]; exact hx), copyIn_behind hx, hchild x hx,
    s.childBehind x hx]

theorem imaged_volume {a : U32} (ha : a ∈ L6 ∨ a ∈ L0) :
    (imaged m t Lp Lc rec child st).dev.cells a = st.dev.cells a := by
  have hp : a ∉ Lp := fun h => ha.elim (fun h' => s.parent_volume h h') fun h' => s.parent_mft h h'
  have hc : a ∉ Lc := fun h => ha.elim (fun h' => s.child_volume h h') fun h' => s.child_mft h h'
  exact (written_other hc).trans (written_other hp)

omit s in
theorem imaged_calm (hf : st.dev.fault = none) : (imaged m t Lp Lc rec child st).dev.fault = none :=
  written_calm (written_calm hf)

theorem volume_behind {buf : Mem} (h : ∀ x, m.recBytes ≤ x → buf x = sc.ntChild x) : Behind m O6 buf :=
  fun x hx => (h x hx).trans (s.volumeBehind x hx)

theorem mft_behind {buf : Mem} (h : Behind m O6 buf) : Behind m O0 buf :=
  fun x hx => ((h x hx).trans (s.volumeBehind x hx).symm).trans (s.mftBehind x hx)

theorem save_volume (hh : Holds m st.dev.cells ntBitmapFile (VolumeBits O6 a6) O6) (hchild : Behind m O6 child)
    (bmp : Mem) {room : Nat} (hroom : room = min (valueLen O6 a6).toNat ntBitmapCap) :
    ∃ buf, saveMap m st child ntBitmapFile ntAtData bmp room = ntWriteRecord m st ntBitmapFile buf ∧
      SaveBuf m O6 a6 (volumeLen O6 a6) bmp buf :=
  s.volumeMap.saveMap s.volumeOk s.geometry (by rw [hroom]; rfl) hh hchild bmp

theorem save_mft (hh : Holds m st.dev.cells 0 (MftBits O0 a0) O0) (hchild : Behind m O0 child) (bmp : Mem) :
    ∃ buf, saveMap m st child 0 ntAtBitmap bmp ntMbmpBytes = ntWriteRecord m st 0 buf ∧
      SaveBuf m O0 a0 (mftLen O0 a0) bmp buf :=
  s.mftMap.saveMap s.mftOk s.geometry rfl hh hchild bmp

theorem armed_saved {O buf : Mem} {a w : Nat} {bmp : Mem} (hO : RecOk m O) (h : SaveBuf m O a w bmp buf) (usn : U32) :
    Behind m O (armed buf usn) := by
  have hok := h.differs.recOk hO
  intro x hx
  rw [hok.usa.armed_behind (by rw [← s.geometry.record]; exact hx)]
  exact h.behind x hx

theorem mapsSave_calm (hf : st.dev.fault = none) (hchild : Behind m O6 child)
    (h6 : Holds m st.dev.cells ntBitmapFile (VolumeBits O6 a6) O6) (h0 : Holds m st.dev.cells 0 (MftBits O0 a0) O0) :
    Holds m (ntMapsSave m st child t.maps).2.2.dev.cells ntBitmapFile Nowhere O6 ∧
      Holds m (ntMapsSave m st child t.maps).2.2.dev.cells 0 Nowhere O0 := by
  have g := s.geometry
  obtain ⟨buf6, heq6, hsave6⟩ := s.save_volume h6 hchild t.maps.vbmp s.vbmpLen
  have hok6 := hsave6.differs.recOk s.volumeOk.toRecOk
  have hsaved6 : Differs Nowhere O6 buf6 := hsave6.saved _ (Nat.min_le_right _ _) (by rw [s.maps]; rfl)
  have hput6 : Holds m (written st L6 buf6).dev.cells ntBitmapFile Nowhere O6 :=
    (s.volume.holds_put g hok6 (fun _ _ => rfl) _ _).differs hsaved6 s.volumeOk.toRecOk hsave6.behind
  have hchild0 : Behind m O0 (armed buf6 (st.usn + 1)) := s.mft_behind (s.armed_saved s.volumeOk.toRecOk hsave6 _)
  have h0' : Holds m (written st L6 buf6).dev.cells 0 (MftBits O0 a0) O0 :=
    s.mft.holds_congr (fun a ha => written_other fun h => s.volume_mft h ha) h0
  obtain ⟨buf0, heq0, hsave0⟩ := s.save_mft h0' hchild0 t.maps.mbmp
  have hok0 := hsave0.differs.recOk s.mftOk.toRecOk
  have hsaved0 : Differs Nowhere O0 buf0 := hsave0.saved _ (Nat.le_refl _) (by rw [s.maps]; rfl)
  have hput0 : Holds m (written (written st L6 buf6) L0 buf0).dev.cells 0 Nowhere O0 :=
    (s.mft.holds_put g hok0 (fun _ _ => rfl) _ _).differs hsaved0 s.mftOk.toRecOk hsave0.behind
  have heq : (ntMapsSave m st child t.maps).2.2 = written (written st L6 buf6) L0 buf0 := by
    unfold ntMapsSave
    rw [heq6, s.volume.write_ok g hok6 (passes_of_calm hf)]
    dsimp only
    rw [heq0, s.mft.write_ok g hok0 (passes_of_calm (written_calm hf))]
  rw [heq]
  exact ⟨s.volume.holds_congr (fun a ha => written_other fun h => s.volume_mft ha h) hput6, hput0⟩

theorem rollback_holds (hf : st.dev.fault = none) (hchild : Behind m t.childSave child)
    (h6 : Holds m st.dev.cells ntBitmapFile (VolumeBits O6 a6) O6) (h0 : Holds m st.dev.cells 0 (MftBits O0 a0) O0) :
    Holds m (rollback m t rec child st).dev.cells t.loc.ref Nowhere t.childSave ∧
      Holds m (rollback m t rec child st).dev.cells ntBitmapFile Nowhere O6 ∧
      Holds m (rollback m t rec child st).dev.cells 0 Nowhere O0 := by
  have g := s.geometry
  have hcalm : (imaged m t Lp Lc rec child st).dev.fault = none := imaged_calm hf
  have hput : Holds m (imaged m t Lp Lc rec child st).dev.cells t.loc.ref Nowhere t.childSave :=
    s.child.holds_put g s.childOk.toRecOk (fun x hx => copyIn_image hx) _ _
  rw [s.rollback_eq hf]
  refine ⟨?_, s.mapsSave_calm hcalm (s.volume_behind fun x hx => s.image_behind hchild _ hx)
    (s.volume.holds_congr (fun a ha => s.imaged_volume (Or.inl ha)) h6)
    (s.mft.holds_congr (fun a ha => s.imaged_volume (Or.inr ha)) h0)⟩
  refine s.child.holds_congr (fun a ha => ?_) hput
  exact mapsSave_other s.volume s.mft (fun h => s.child_volume ha h) (fun h => s.child_mft ha h) _

theorem rollback_lost (hf : st.dev.fault = none) (hchild : Behind m t.childSave child)
    (h : Lost m st.dev.cells ntBitmapFile O6 ∨
      (Holds m st.dev.cells ntBitmapFile (VolumeBits O6 a6) O6 ∧ Lost m st.dev.cells 0 O0)) :
    Lost m (rollback m t rec child st).dev.cells ntBitmapFile O6 ∨
      (Holds m (rollback m t rec child st).dev.cells ntBitmapFile Nowhere O6 ∧
        Lost m (rollback m t rec child st).dev.cells 0 O0) := by
  have g := s.geometry
  have hcalm : (imaged m t Lp Lc rec child st).dev.fault = none := imaged_calm hf
  have hbehind : Behind m O6 (armed (copyIn child 0 m.recBytes t.childSave) (st.usn + 1 + 1)) :=
    s.volume_behind fun x hx => s.image_behind hchild _ hx
  rw [s.rollback_eq hf]
  rcases h with h6 | ⟨h6, h0⟩
  · have h6' : Lost m (imaged m t Lp Lc rec child st).dev.cells ntBitmapFile O6 :=
      s.volume.lost_congr (fun a ha => s.imaged_volume (Or.inl ha)) h6
    refine Or.inl ?_
    unfold ntMapsSave
    rw [saveMap_lost h6' hbehind]
    exact h6'
  · have h6' : Holds m (imaged m t Lp Lc rec child st).dev.cells ntBitmapFile (VolumeBits O6 a6) O6 :=
      s.volume.holds_congr (fun a ha => s.imaged_volume (Or.inl ha)) h6
    have h0' : Lost m (imaged m t Lp Lc rec child st).dev.cells 0 O0 :=
      s.mft.lost_congr (fun a ha => s.imaged_volume (Or.inr ha)) h0
    generalize imaged m t Lp Lc rec child st = st2 at hcalm h6' h0' ⊢
    obtain ⟨buf6, heq6, hsave6⟩ := s.save_volume h6' hbehind t.maps.vbmp s.vbmpLen
    have hok6 := hsave6.differs.recOk s.volumeOk.toRecOk
    have hsaved6 : Differs Nowhere O6 buf6 := hsave6.saved _ (Nat.min_le_right _ _) (by rw [s.maps]; rfl)
    have hput6 : Holds m (written st2 L6 buf6).dev.cells ntBitmapFile Nowhere O6 :=
      (s.volume.holds_put g hok6 (fun _ _ => rfl) _ _).differs hsaved6 s.volumeOk.toRecOk hsave6.behind
    have hchild0 : Behind m O0 (armed buf6 (st2.usn + 1)) := s.mft_behind (s.armed_saved s.volumeOk.toRecOk hsave6 _)
    have hlost0 : Lost m (written st2 L6 buf6).dev.cells 0 O0 :=
      s.mft.lost_congr (fun a ha => written_other fun h => s.volume_mft h ha) h0'
    refine Or.inr ?_
    unfold ntMapsSave
    rw [heq6, s.volume.write_ok g hok6 (passes_of_calm hcalm)]
    dsimp only
    rw [saveMap_lost hlost0 hchild0]
    exact ⟨hput6, hlost0⟩

end Scene

end Ezos.Ntfs

/-!
# The writes of a removal, and where they are cut
-/

namespace Ezos.Ntfs

open Lib.Memory Lib.FaultyStore Exfat

variable {m : Mnt} {disk : Device} {sc : Scratch} {t : Target} {Lp Lc L6 L0 : List U32} {O6 O0 rec child : Mem}
  {a6 a0 f : Nat} {st : St}

theorem vbmpLen_freeRuns (m : Mnt) (rec : Mem) (fin n run : Nat) (lcn : U64) (maps : Maps) :
    (ntFreeRunsFrom m rec fin n run lcn maps).vbmpLen = maps.vbmpLen := by
  have hfold : ∀ (l : List Nat) (base : Nat) (maps : Maps),
      (l.foldl (fun maps i => ntFreeCluster maps (base + i)) maps).vbmpLen = maps.vbmpLen := by
    intro l base
    induction l with
    | nil => exact fun _ => rfl
    | cons i l ih =>
      intro maps
      rw [List.foldl_cons, ih]
      unfold ntFreeCluster
      split <;> rfl
  induction n generalizing run lcn maps with
  | zero => rfl
  | succ n ih =>
    rw [ntFreeRunsFrom]
    split
    · rfl
    · dsimp only
      split
      · rfl
      · split
        · rfl
        · rw [ih, hfold]

theorem vbmpLen_freed (m : Mnt) (t : Target) : (freedMaps m t).vbmpLen = t.maps.vbmpLen := by
  have hruns : ∀ a, (ntFreeDataRuns m t.childSave a t.maps).vbmpLen = t.maps.vbmpLen := by
    intro a
    unfold ntFreeDataRuns
    cases a with
    | none => rfl
    | some a =>
      dsimp only
      split
      · rfl
      · exact vbmpLen_freeRuns _ _ _ _ _ _ _
  unfold freedMaps ntFreeMft
  split
  · exact hruns _
  · exact hruns _

def Mended (m : Mnt) (O6 O0 : Mem) (usn : U32) (f : Nat) : Prop :=
  (2 * m.recSecs < f → f < 3 * m.recSecs → recUsn O6 = (usn + 3).setWidth 16) ∧
    (3 * m.recSecs < f → f < 4 * m.recSecs → recUsn O0 = (usn + 4).setWidth 16)

structure CutState (m : Mnt) (t : Target) (Lp Lc L6 L0 : List U32) (O6 O0 : Mem) (a6 a0 : Nat) (st : St) (f : Nat)
    (child : Mem) (st' : St) : Prop where
  calm : st'.dev.fault = none
  child : Behind m t.childSave child
  other : ∀ a, a ∉ Lp → a ∉ Lc → a ∉ L6 → a ∉ L0 → st'.dev.cells a = st.dev.cells a
  mended : Mended m O6 O0 st.usn f →
    Holds m st'.dev.cells ntBitmapFile (VolumeBits O6 a6) O6 ∧ Holds m st'.dev.cells 0 (MftBits O0 a0) O0
  lost : ¬ Mended m O6 O0 st.usn f → Lost m st'.dev.cells ntBitmapFile O6 ∨
    (Holds m st'.dev.cells ntBitmapFile (VolumeBits O6 a6) O6 ∧ Lost m st'.dev.cells 0 O0)

theorem usn_three (u : U32) : u + 1 + 1 + 1 = u + 3 := by bv_omega

theorem usn_four (u : U32) : u + 1 + 1 + 1 + 1 = u + 4 := by bv_omega

namespace Scene

variable (s : Scene m disk sc t Lp Lc L6 L0 O6 O0 a6 a0)

include s

theorem unusedChild_ok : RecOk m (write16 t.childSave 0x16 0) :=
  s.childOk.toRecOk.congr fun _ _ => write16_of_disjoint (by omega)

theorem unusedChild_behind : Behind m t.childSave (write16 t.childSave 0x16 0) := by
  have g := s.geometry
  have hpos := g.recPos
  have hrec := g.record
  exact fun _ _ => write16_of_disjoint (by omega)

theorem armed_unused (usn : U32) : Behind m t.childSave (armed (write16 t.childSave 0x16 0) usn) := by
  intro x hx
  rw [s.unusedChild_ok.usa.armed_behind (by rw [← s.geometry.record]; exact hx)]
  exact s.unusedChild_behind x hx

theorem child_volume_behind {buf : Mem} (h : Behind m t.childSave buf) : Behind m O6 buf :=
  s.volume_behind fun x hx => (h x hx).trans (s.childBehind x hx).symm

theorem mft_child_behind {buf : Mem} (h : Behind m O0 buf) : Behind m t.childSave buf :=
  fun x hx => ((h x hx).trans (s.mftBehind x hx).symm).trans (s.childBehind x hx)

theorem volume_child_behind {buf : Mem} (h : Behind m O6 buf) : Behind m t.childSave buf :=
  fun x hx => ((h x hx).trans (s.volumeBehind x hx).symm).trans (s.childBehind x hx)

theorem cutState_early (hlt : f < 2 * m.recSecs) {st' : St} (hcalm : st'.dev.fault = none)
    (hchild : Behind m t.childSave child)
    (hother : ∀ a, a ∉ Lp → a ∉ Lc → a ∉ L6 → a ∉ L0 → st'.dev.cells a = st.dev.cells a)
    (hd : ∀ a, a ∈ L6 ∨ a ∈ L0 → st'.dev.cells a = disk a) :
    CutState m t Lp Lc L6 L0 O6 O0 a6 a0 st f child st' where
  calm := hcalm
  child := hchild
  other := hother
  mended _ := ⟨(s.volume.exactly_congr (fun a ha => hd a (Or.inl ha)) s.volumeIs).holds,
    (s.mft.exactly_congr (fun a ha => hd a (Or.inr ha)) s.mftIs).holds⟩
  lost hno := absurd ⟨fun h => by omega, fun h => by omega⟩ hno

def recordsWritten (t : Target) (Lp Lc : List U32) (rec : Mem) (st : St) : St :=
  written (written st Lp rec) Lc (write16 t.childSave 0x16 0)

theorem cutState_volume (hd : ∀ a, a ∈ L6 ∨ a ∈ L0 → st.dev.cells a = disk a) {bmp buf : Mem}
    (hsave : SaveBuf m O6 a6 (volumeLen O6 a6) bmp buf) {k : Nat} (hk : k < m.recSecs) (rec : Mem) :
    CutState m t Lp Lc L6 L0 O6 O0 a6 a0 st (2 * m.recSecs + k)
      (armed buf ((recordsWritten t Lp Lc rec st).usn + 1)) (cutAt (recordsWritten t Lp Lc rec st) L6 buf k) := by
  have g := s.geometry
  have hwritten : ∀ a, a ∉ Lp → a ∉ Lc → (recordsWritten t Lp Lc rec st).dev.cells a = st.dev.cells a :=
    fun a hp hc => (written_other hc).trans (written_other hp)
  have h6 : Exactly m (recordsWritten t Lp Lc rec st).dev.cells ntBitmapFile O6 :=
    s.volume.exactly_congr (fun a ha => (hwritten a (fun h => s.parent_volume h ha) fun h => s.child_volume h ha).trans
      (hd a (Or.inl ha))) s.volumeIs
  have h0 : Exactly m (cutAt (recordsWritten t Lp Lc rec st) L6 buf k).dev.cells 0 O0 :=
    s.mft.exactly_congr (fun a ha => ((cutAt_other fun h => s.volume_mft h ha).trans
      (hwritten a (fun h => s.parent_mft h ha) fun h => s.child_mft h ha)).trans (hd a (Or.inr ha))) s.mftIs
  have husn : (recordsWritten t Lp Lc rec st).usn + 1 = st.usn + 3 := usn_three st.usn
  have hiff : (k = 0 ∨ recUsn O6 = (st.usn + 3).setWidth 16) ↔ Mended m O6 O0 st.usn (2 * m.recSecs + k) := by
    constructor
    · intro h
      exact ⟨fun hlo _ => h.resolve_left (by omega), fun hlo => by omega⟩
    · intro h
      by_cases hk0 : k = 0
      · exact Or.inl hk0
      · exact Or.inr (h.1 (by omega) (by omega))
  constructor
  · rfl
  · exact s.volume_child_behind (s.armed_saved s.volumeOk.toRecOk hsave _)
  · exact fun a hp hc h6 _ => (cutAt_other h6).trans (hwritten a hp hc)
  · intro hm
    refine ⟨s.volume.holds_torn g s.volumeOk.toRecOk hsave.differs h6 hk ?_, h0.holds⟩
    rw [husn]
    exact hiff.mpr hm
  · intro hno
    have hboth := not_or.mp fun h => hno (hiff.mp h)
    refine Or.inl (s.volume.lost_torn g s.volumeOk.toRecOk hsave.differs h6 hk (Nat.pos_of_ne_zero hboth.1) ?_)
    rw [husn]
    exact hboth.2

theorem cutState_mft (hd : ∀ a, a ∈ L6 ∨ a ∈ L0 → st.dev.cells a = disk a) {bmp6 buf6 bmp0 buf0 : Mem}
    (hsave6 : SaveBuf m O6 a6 (volumeLen O6 a6) bmp6 buf6) (hsave0 : SaveBuf m O0 a0 (mftLen O0 a0) bmp0 buf0) {k : Nat}
    (hk : k < m.recSecs) (rec : Mem) :
    CutState m t Lp Lc L6 L0 O6 O0 a6 a0 st (3 * m.recSecs + k)
      (armed buf0 ((written (recordsWritten t Lp Lc rec st) L6 buf6).usn + 1))
      (cutAt (written (recordsWritten t Lp Lc rec st) L6 buf6) L0 buf0 k) := by
  have g := s.geometry
  have hwritten : ∀ a, a ∉ Lp → a ∉ Lc → (recordsWritten t Lp Lc rec st).dev.cells a = st.dev.cells a :=
    fun a hp hc => (written_other hc).trans (written_other hp)
  have hok6 := hsave6.differs.recOk s.volumeOk.toRecOk
  have h6 : Holds m (cutAt (written (recordsWritten t Lp Lc rec st) L6 buf6) L0 buf0 k).dev.cells ntBitmapFile
      (VolumeBits O6 a6) O6 := by
    refine s.volume.holds_congr (fun a ha => cutAt_other fun h => s.volume_mft ha h) ?_
    exact (s.volume.holds_put g hok6 (fun _ _ => rfl) _ _).differs hsave6.differs s.volumeOk.toRecOk hsave6.behind
  have h0 : Exactly m (written (recordsWritten t Lp Lc rec st) L6 buf6).dev.cells 0 O0 :=
    s.mft.exactly_congr (fun a ha => ((written_other fun h => s.volume_mft h ha).trans
      (hwritten a (fun h => s.parent_mft h ha) fun h => s.child_mft h ha)).trans (hd a (Or.inr ha))) s.mftIs
  have husn : (written (recordsWritten t Lp Lc rec st) L6 buf6).usn + 1 = st.usn + 4 := usn_four st.usn
  have hiff : (k = 0 ∨ recUsn O0 = (st.usn + 4).setWidth 16) ↔ Mended m O6 O0 st.usn (3 * m.recSecs + k) := by
    constructor
    · intro h
      exact ⟨fun hlo => by omega, fun hlo _ => h.resolve_left (by omega)⟩
    · intro h
      by_cases hk0 : k = 0
      · exact Or.inl hk0
      · exact Or.inr (h.2 (by omega) (by omega))
  constructor
  · rfl
  · exact s.mft_child_behind (s.armed_saved s.mftOk.toRecOk hsave0 _)
  · exact fun a hp hc h6 h0 => (cutAt_other h0).trans ((written_other h6).trans (hwritten a hp hc))
  · intro hm
    refine ⟨h6, s.mft.holds_torn g s.mftOk.toRecOk hsave0.differs h0 hk ?_⟩
    rw [husn]
    exact hiff.mpr hm
  · intro hno
    have hboth := not_or.mp fun h => hno (hiff.mp h)
    refine Or.inr ⟨h6, s.mft.lost_torn g s.mftOk.toRecOk hsave0.differs h0 hk (Nat.pos_of_ne_zero hboth.1) ?_⟩
    rw [husn]
    exact hboth.2

theorem commit_saves (hd : ∀ a, a ∈ L6 ∨ a ∈ L0 → st.dev.cells a = disk a) (rec : Mem) :
    ∃ buf6 buf0, SaveBuf m O6 a6 (volumeLen O6 a6) (freedMaps m t).vbmp buf6 ∧
      SaveBuf m O0 a0 (mftLen O0 a0) (freedMaps m t).mbmp buf0 ∧
      saveMap m (recordsWritten t Lp Lc rec st) (armed (write16 t.childSave 0x16 0) (st.usn + 1 + 1)) ntBitmapFile
        ntAtData (freedMaps m t).vbmp (freedMaps m t).vbmpLen =
          ntWriteRecord m (recordsWritten t Lp Lc rec st) ntBitmapFile buf6 ∧
      saveMap m (written (recordsWritten t Lp Lc rec st) L6 buf6) (armed buf6 ((recordsWritten t Lp Lc rec st).usn + 1))
        0 ntAtBitmap (freedMaps m t).mbmp ntMbmpBytes =
          ntWriteRecord m (written (recordsWritten t Lp Lc rec st) L6 buf6) 0 buf0 := by
  have hwritten : ∀ a, a ∉ Lp → a ∉ Lc → (recordsWritten t Lp Lc rec st).dev.cells a = st.dev.cells a :=
    fun a hp hc => (written_other hc).trans (written_other hp)
  have h6 : Exactly m (recordsWritten t Lp Lc rec st).dev.cells ntBitmapFile O6 :=
    s.volume.exactly_congr (fun a ha => (hwritten a (fun h => s.parent_volume h ha) fun h => s.child_volume h ha).trans
      (hd a (Or.inl ha))) s.volumeIs
  obtain ⟨buf6, heq6, hsave6⟩ := s.save_volume h6.holds (s.child_volume_behind (s.armed_unused (st.usn + 1 + 1)))
    (freedMaps m t).vbmp ((vbmpLen_freed m t).trans s.vbmpLen)
  have h0 : Exactly m (written (recordsWritten t Lp Lc rec st) L6 buf6).dev.cells 0 O0 :=
    s.mft.exactly_congr (fun a ha => ((written_other fun h => s.volume_mft h ha).trans
      (hwritten a (fun h => s.parent_mft h ha) fun h => s.child_mft h ha)).trans (hd a (Or.inr ha))) s.mftIs
  obtain ⟨buf0, heq0, hsave0⟩ := s.save_mft h0.holds (s.mft_behind (s.armed_saved s.volumeOk.toRecOk hsave6 _))
    (freedMaps m t).mbmp
  exact ⟨buf6, buf0, hsave6, hsave0, heq6, heq0⟩

theorem commit_records (hrec : RecOk m rec) (hp : Passes st (2 * m.recSecs)) {ok : Bool} {child' : Mem} {st' : St}
    (hmaps : ntMapsSave m (recordsWritten t Lp Lc rec st) (armed (write16 t.childSave 0x16 0) (st.usn + 1 + 1))
      (freedMaps m t) = (ok, child', st')) :
    commitWrites m t rec st = (ok, if ok then st' else rollback m t (armed rec (st.usn + 1)) child' st') := by
  have g := s.geometry
  have hlen := s.parent.length_eq
  have hpass1 : Passes st m.recSecs := fun k hk => by
    have := hp k hk
    omega
  have hpass2 : Passes (written st Lp rec) m.recSecs := Passes.written (by rw [hlen, ← Nat.two_mul]; exact hp)
  have hwrite := s.child.write_ok g s.unusedChild_ok hpass2
  unfold commitWrites
  rw [s.parent.write_ok g hrec hpass1]
  dsimp only
  rw [hwrite]
  dsimp only
  unfold recordsWritten at hmaps
  have husn : (written st Lp rec).usn + 1 = st.usn + 1 + 1 := rfl
  rw [husn, hmaps]
  cases ok <;> rfl

theorem recordsWritten_fault (rec : Mem) (st : St) :
    (recordsWritten t Lp Lc rec st).dev.fault = st.dev.fault.map (· - 2 * m.recSecs) := by
  have hmap : (recordsWritten t Lp Lc rec st).dev.fault = (st.dev.fault.map (· - Lp.length)).map (· - Lc.length) := rfl
  rw [hmap, s.parent.length_eq, s.child.length_eq, Option.map_map]
  refine congrArg (fun f => Option.map f st.dev.fault) (funext fun k => ?_)
  exact (Nat.sub_sub k _ _).trans (congrArg (k - ·) (Nat.two_mul _).symm)

theorem commit_cut (hrec : RecOk m rec) (hd : ∀ a, a ∈ L6 ∨ a ∈ L0 → st.dev.cells a = disk a)
    (hf : st.dev.fault = some f) (hlt : f < 4 * m.recSecs) :
    ∃ rec' child' st', commitWrites m t rec st = (false, rollback m t rec' child' st') ∧
      CutState m t Lp Lc L6 L0 O6 O0 a6 a0 st f child' st' := by
  have g := s.geometry
  have hlenP := s.parent.length_eq
  have hlen6 := s.volume.length_eq
  by_cases h1 : f < m.recSecs
  · refine ⟨armed rec (st.usn + 1), write16 t.childSave 0x16 0, cutAt st Lp rec f, ?_, ?_⟩
    · unfold commitWrites
      rw [s.parent.write_cut g hrec hf h1]
    · refine s.cutState_early (by omega) rfl s.unusedChild_behind (fun a hp _ _ _ => cutAt_other hp) fun a ha => ?_
      exact (cutAt_other fun h => ha.elim (fun h' => s.parent_volume h h') fun h' => s.parent_mft h h').trans (hd a ha)
  by_cases h2 : f < 2 * m.recSecs
  · have hpass1 : Passes st m.recSecs := fun k hk => by
      rw [hf] at hk
      injection hk
      omega
    have hf1 : (written st Lp rec).dev.fault = some (f - m.recSecs) := by
      have hmap : (written st Lp rec).dev.fault = st.dev.fault.map (· - Lp.length) := rfl
      rw [hmap, hf, hlenP]
      rfl
    refine ⟨armed rec (st.usn + 1), armed (write16 t.childSave 0x16 0) (st.usn + 1 + 1),
      cutAt (written st Lp rec) Lc (write16 t.childSave 0x16 0) (f - m.recSecs), ?_, ?_⟩
    · unfold commitWrites
      rw [s.parent.write_ok g hrec hpass1]
      dsimp only
      rw [s.child.write_cut g s.unusedChild_ok hf1 (by omega)]
      rfl
    · refine s.cutState_early h2 rfl (s.armed_unused _) (fun a hp hc _ _ => (cutAt_other hc).trans (written_other hp))
        fun a ha => ?_
      have hp : a ∉ Lp := fun h => ha.elim (fun h' => s.parent_volume h h') fun h' => s.parent_mft h h'
      have hc : a ∉ Lc := fun h => ha.elim (fun h' => s.child_volume h h') fun h' => s.child_mft h h'
      exact ((cutAt_other hc).trans (written_other hp)).trans (hd a ha)
  -- both records are written, so the fault is in one of the saves
  have hpass : Passes st (2 * m.recSecs) := fun k hk => by
    rw [hf] at hk
    injection hk
    omega
  have hf2 : (recordsWritten t Lp Lc rec st).dev.fault = some (f - 2 * m.recSecs) := by
    rw [s.recordsWritten_fault, hf]
    rfl
  obtain ⟨buf6, buf0, hsave6, hsave0, heq6, heq0⟩ := s.commit_saves hd rec
  have hok6 := hsave6.differs.recOk s.volumeOk.toRecOk
  have hok0 := hsave0.differs.recOk s.mftOk.toRecOk
  by_cases h3 : f < 3 * m.recSecs
  · have hadd : f = 2 * m.recSecs + (f - 2 * m.recSecs) := by omega
    have hmaps : ntMapsSave m (recordsWritten t Lp Lc rec st) (armed (write16 t.childSave 0x16 0) (st.usn + 1 + 1))
        (freedMaps m t) = (false, armed buf6 ((recordsWritten t Lp Lc rec st).usn + 1),
          cutAt (recordsWritten t Lp Lc rec st) L6 buf6 (f - 2 * m.recSecs)) := by
      unfold ntMapsSave
      rw [heq6, s.volume.write_cut g hok6 hf2 (by omega)]
    have hcut := s.cutState_volume hd hsave6 (show f - 2 * m.recSecs < m.recSecs by omega) rec
    rw [← hadd] at hcut
    exact ⟨_, _, _, s.commit_records hrec hpass hmaps, hcut⟩
  · have hadd : f = 3 * m.recSecs + (f - 3 * m.recSecs) := by omega
    have hpass6 : Passes (recordsWritten t Lp Lc rec st) m.recSecs := fun k hk => by
      rw [hf2] at hk
      injection hk
      omega
    have hf3 : (written (recordsWritten t Lp Lc rec st) L6 buf6).dev.fault = some (f - 3 * m.recSecs) := by
      have hmap : (written (recordsWritten t Lp Lc rec st) L6 buf6).dev.fault =
          (recordsWritten t Lp Lc rec st).dev.fault.map (· - L6.length) := rfl
      have hsub : f - 2 * m.recSecs - m.recSecs = f - 3 * m.recSecs := by omega
      rw [hmap, hf2, hlen6, Option.map_some, hsub]
    have hmaps : ntMapsSave m (recordsWritten t Lp Lc rec st) (armed (write16 t.childSave 0x16 0) (st.usn + 1 + 1))
        (freedMaps m t) = (false, armed buf0 ((written (recordsWritten t Lp Lc rec st) L6 buf6).usn + 1),
          cutAt (written (recordsWritten t Lp Lc rec st) L6 buf6) L0 buf0 (f - 3 * m.recSecs)) := by
      unfold ntMapsSave
      rw [heq6, s.volume.write_ok g hok6 hpass6]
      dsimp only
      rw [heq0, s.mft.write_cut g hok0 hf3 (by omega)]
    have hcut := s.cutState_mft hd hsave6 hsave0 (show f - 3 * m.recSecs < m.recSecs by omega) rec
    rw [← hadd] at hcut
    exact ⟨_, _, _, s.commit_records hrec hpass hmaps, hcut⟩

theorem commit_ok (hrec : RecOk m rec) (hd : ∀ a, a ∈ L6 ∨ a ∈ L0 → st.dev.cells a = disk a)
    (hp : Passes st (4 * m.recSecs)) : (commitWrites m t rec st).1 = true := by
  have g := s.geometry
  obtain ⟨buf6, buf0, hsave6, hsave0, heq6, heq0⟩ := s.commit_saves hd rec
  have hok6 := hsave6.differs.recOk s.volumeOk.toRecOk
  have hok0 := hsave0.differs.recOk s.mftOk.toRecOk
  have hpass : Passes st (2 * m.recSecs) := fun k hk => Nat.le_trans (by omega) (hp k hk)
  have hpass6 : Passes (recordsWritten t Lp Lc rec st) (2 * m.recSecs) := by
    intro k hk
    rw [s.recordsWritten_fault] at hk
    obtain ⟨j, hj, he⟩ := Option.map_eq_some_iff.mp hk
    have := hp j hj
    omega
  have hpass0 : Passes (written (recordsWritten t Lp Lc rec st) L6 buf6) m.recSecs :=
    Passes.written (by rw [s.volume.length_eq, ← Nat.two_mul]; exact hpass6)
  have hmaps : ntMapsSave m (recordsWritten t Lp Lc rec st) (armed (write16 t.childSave 0x16 0) (st.usn + 1 + 1))
      (freedMaps m t) = (true, armed buf0 ((written (recordsWritten t Lp Lc rec st) L6 buf6).usn + 1),
        written (written (recordsWritten t Lp Lc rec st) L6 buf6) L0 buf0) := by
    unfold ntMapsSave
    rw [heq6, s.volume.write_ok g hok6 fun k hk => Nat.le_trans (by omega) (hpass6 k hk)]
    dsimp only
    rw [heq0, s.mft.write_ok g hok0 hpass0]
  rw [s.commit_records hrec hpass hmaps]

end Scene

end Ezos.Ntfs
