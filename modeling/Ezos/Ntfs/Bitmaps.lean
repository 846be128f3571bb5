import Ezos.Ntfs.Attributes
import Ezos.Ntfs.DirNodes

/-!
# The records of the two bitmaps

A bitmap is the value of an attribute of its record. Saving it changes the bytes of the value, so the attribute is found
again whatever the bitmap was, and saving what was loaded restores the record.
-/

namespace Ezos.Ntfs

open Lib.Memory Lib.FaultyStore

set_option autoImplicit false

variable {m : Mnt} {disk disk' : Device} {rec rec' O b child : Mem} {type : U32} {a w room : Nat} {no : U32}
  {lbas : List U32} {st : St} {bmp : Mem}

structure BitmapOk (m : Mnt) (rec : Mem) (type : U32) (a : Nat) : Prop where
  found : ntFindAttr rec type none = some a
  res : resident rec a = true
  lo : a + 0x18 ≤ valueOff rec a
  hi : valueOff rec a + (valueLen rec a).toNat ≤ m.recBytes

def ValueAt (rec : Mem) (a w : Nat) (x : Nat) : Prop := valueOff rec a ≤ x ∧ x < valueOff rec a + w

theorem BitmapOk.value (h : BitmapOk m rec type a) : bitmapValue rec type = some a := by
  unfold bitmapValue
  rw [h.found]
  exact if_pos h.res

theorem BitmapOk.stable (h : BitmapOk m O type a) (hO : HeaderOk m O) (g : m.Geometry)
    (hs : ∀ x, ¬ InUsa O x → ¬ ValueAt O a w x → b x = O x) :
    bitmapValue b type = some a ∧ valueOff b a = valueOff O a ∧ valueLen b a = valueLen O a := by
  have hlo := h.lo
  have hfirst := (hO.findAttr_some g h.found).1
  have husa := hO.usaEnd
  have hfront : ∀ x < a + 0x18, ¬ InUsa O x → b x = O x := by
    intro x hx hin
    refine hs x hin fun hv => ?_
    unfold ValueAt at hv
    omega
  have hattr : ∀ x, a ≤ x → x < a + 0x18 → b x = O x := by
    intro x hx hx'
    refine hfront x hx' ?_
    unfold InUsa
    omega
  have hfind := hO.findAttr_stable g h.found fun x hx hin => hfront x (by omega) hin
  have hres : resident b a = resident O a := congrArg (· == 0) (hattr (a + 8) (by omega) (by omega))
  refine ⟨?_, ?_, ?_⟩
  · unfold bitmapValue
    rw [hfind]
    exact if_pos (hres.trans h.res)
  · exact congrArg (fun v : U16 => a + v.toNat) (read16_congr fun x hx hx' => hattr x (by omega) (by omega))
  · exact read32_congr fun x hx hx' => hattr x (by omega) (by omega)

theorem BitmapOk.inside (h : BitmapOk m O type a) (hO : HeaderOk m O) (g : m.Geometry)
    (hw : w ≤ (valueLen O a).toNat) {x : Nat} (hx : ValueAt O a w x) : 0x28 ≤ x ∧ x < m.recBytes ∧ ¬ InUsa O x := by
  have hlo := h.lo
  have hhi := h.hi
  have hfirst := (hO.findAttr_some g h.found).1
  have husa := hO.usaEnd
  have husaLo := hO.usa.lo
  unfold ValueAt at hx
  unfold InUsa
  omega

theorem RecOk.not_inUsa_behind (h : RecOk m O) (g : m.Geometry) {x : Nat} (hx : m.recBytes ≤ x) : ¬ InUsa O x := by
  have hpos := g.recPos
  have hrec := g.record
  exact h.usa.not_inUsa (Or.inr (by omega))

theorem BitmapOk.differs (h : BitmapOk m O type a) (hO : HeaderOk m O) (g : m.Geometry)
    (hw : w ≤ (valueLen O a).toNat) (hb : ∀ x, ¬ InUsa O x → ¬ ValueAt O a w x → b x = O x) (bmp : Mem) :
    Differs (ValueAt O a w) O (copyIn b (valueOff O a) w bmp) ∧ Behind m O (copyIn b (valueOff O a) w bmp) := by
  constructor
  · refine ⟨fun x hx => (h.inside hO g hw hx).1, fun x hin hv => ?_⟩
    exact (if_neg hv).trans (hb x hin hv)
  · intro x hx
    have hv : ¬ ValueAt O a w x := fun hv => Nat.not_le_of_lt (h.inside hO g hw hv).2.1 hx
    have hin : ¬ InUsa O x := hO.not_inUsa_behind g hx
    exact (if_neg hv).trans (hb x hin hv)

theorem BitmapOk.differs_saved (h : BitmapOk m O type a) (hO : HeaderOk m O) (g : m.Geometry)
    (hw : w ≤ (valueLen O a).toNat) (hb : ∀ x, ¬ InUsa O x → ¬ ValueAt O a w x → b x = O x) {len : Nat} (hlen : w ≤ len) :
    Differs Nowhere O (copyIn b (valueOff O a) w (valueBytes O a len)) := by
  refine ⟨fun x hx => absurd hx id, fun x hin _ => ?_⟩
  by_cases hv : ValueAt O a w x
  · have hlt : x - valueOff O a < len := by
      unfold ValueAt at hv
      omega
    have hback : valueOff O a + (x - valueOff O a) = x := Nat.add_sub_cancel' hv.1
    have hcopy : copyIn b (valueOff O a) w (valueBytes O a len) x = valueBytes O a len (x - valueOff O a) := if_pos hv
    rw [hcopy, valueBytes, if_pos hlt, hback]
  · exact ((h.differs hO g hw hb _).1.same x hin hv)

theorem Differs.recOk {V : Nat → Prop} (h : Differs V O b) (hO : RecOk m O) : RecOk m b :=
  hO.congr fun _ hx => h.low hO.usa (Nat.lt_trans hx (by omega))

structure SaveBuf (m : Mnt) (O : Mem) (a w : Nat) (bmp buf : Mem) : Prop where
  differs : Differs (ValueAt O a w) O buf
  behind : Behind m O buf
  saved : ∀ len, w ≤ len → bmp = valueBytes O a len → Differs Nowhere O buf

theorem BitmapOk.saveMap (h : BitmapOk m O type a) (hO : HeaderOk m O) (g : m.Geometry)
    (hw : w = min (valueLen O a).toNat room) (hh : Holds m st.dev.cells no (ValueAt O a w) O) (hchild : Behind m O child)
    (bmp : Mem) :
    ∃ buf, saveMap m st child no type bmp room = ntWriteRecord m st no buf ∧ SaveBuf m O a w bmp buf := by
  obtain ⟨b, hread, hb⟩ := hh child hchild
  obtain ⟨hval, hoff, hlen⟩ := h.stable hO g hb
  have hle : w ≤ (valueLen O a).toNat := hw ▸ Nat.min_le_left _ _
  obtain ⟨hdiff, hbehind⟩ := h.differs hO g hle hb bmp
  refine ⟨copyIn b (valueOff O a) w bmp, ?_, hdiff, hbehind, ?_⟩
  · unfold Ntfs.saveMap
    rw [hread]
    dsimp only
    rw [hval]
    dsimp only
    rw [hoff, hlen, hw]
  · intro len hl he
    rw [he]
    exact h.differs_saved hO g hle hb hl

theorem saveMap_lost (h : Lost m st.dev.cells no O) (hchild : Behind m O child) :
    saveMap m st child no type bmp room = (false, child, st) := by
  unfold saveMap
  rw [h child hchild]

theorem saveMap_other (h : Placed m no lbas) {x : U32} (hx : x ∉ lbas) :
    (saveMap m st child no type bmp room).2.2.dev.cells x = st.dev.cells x := by
  unfold saveMap
  cases ntReadRecord m st.dev.cells no child with
  | none => rfl
  | some rec =>
    dsimp only
    cases bitmapValue rec type with
    | none => rfl
    | some a => exact h.write_other st _ hx

theorem mapsSave_other {lbas' : List U32} (h6 : Placed m ntBitmapFile lbas) (h0 : Placed m 0 lbas') {x : U32}
    (hx : x ∉ lbas) (hx' : x ∉ lbas') (maps : Maps) :
    (ntMapsSave m st child maps).2.2.dev.cells x = st.dev.cells x := by
  have hfirst : (saveMap m st child ntBitmapFile ntAtData maps.vbmp maps.vbmpLen).2.2.dev.cells x = st.dev.cells x :=
    saveMap_other h6 hx
  unfold ntMapsSave
  generalize saveMap m st child ntBitmapFile ntAtData maps.vbmp maps.vbmpLen = r at hfirst ⊢
  obtain ⟨ok, child', st'⟩ := r
  cases ok with
  | false => exact hfirst
  | true => exact (saveMap_other h0 hx').trans hfirst

/-! ## Loading -/

def mapsOf (O6 O0 : Mem) (a6 a0 : Nat) : Maps :=
  { vbmp := valueBytes O6 a6 (min (valueLen O6 a6).toNat ntBitmapCap)
    vbmpLen := min (valueLen O6 a6).toNat ntBitmapCap
    mbmp := valueBytes O0 a0 (min (valueLen O0 a0).toNat ntMbmpBytes) }

variable {O6 O0 : Mem} {a6 a0 : Nat}

theorem BitmapOk.valueBytes_congr (h : BitmapOk m O type a) (hO : HeaderOk m O) (g : m.Geometry)
    (hs : ∀ x, ¬ InUsa O x → b x = O x) {len : Nat} (hlen : len ≤ (valueLen O a).toNat) :
    valueBytes b a len = valueBytes O a len := by
  obtain ⟨-, hoff, -⟩ := h.stable (w := 0) hO g fun x hin _ => hs x hin
  funext i
  unfold valueBytes
  rw [hoff]
  by_cases hi : i < len
  · have hv : ValueAt O a len (valueOff O a + i) := ⟨Nat.le_add_right _ _, Nat.add_lt_add_left hi _⟩
    rw [if_pos hi, if_pos hi, hs _ (h.inside hO g hlen hv).2.2]
  · rw [if_neg hi, if_neg hi]

theorem mapsLoad_holds (g : m.Geometry) (h6 : BitmapOk m O6 ntAtData a6) (hO6 : HeaderOk m O6)
    (h0 : BitmapOk m O0 ntAtBitmap a0) (hO0 : HeaderOk m O0) (hh6 : Holds m disk ntBitmapFile Nowhere O6)
    (hh0 : Holds m disk 0 Nowhere O0) (hchild : Behind m O6 child) (hboth : Behind m O0 O6) :
    (ntMapsLoad m disk child).map Prod.fst = some (mapsOf O6 O0 a6 a0) := by
  obtain ⟨b6, hread6, hb6⟩ := hh6 child hchild
  have hs6 : ∀ x, ¬ InUsa O6 x → b6 x = O6 x := fun x hin => hb6 x hin id
  have hbehind : Behind m O0 b6 := by
    intro x hx
    have hin : ¬ InUsa O6 x := hO6.not_inUsa_behind g hx
    exact (hs6 x hin).trans (hboth x hx)
  obtain ⟨b0, hread0, hb0⟩ := hh0 b6 hbehind
  have hs0 : ∀ x, ¬ InUsa O0 x → b0 x = O0 x := fun x hin => hb0 x hin id
  obtain ⟨hval6, -, hlen6⟩ := h6.stable (w := 0) hO6 g fun x hin _ => hs6 x hin
  obtain ⟨hval0, -, hlen0⟩ := h0.stable (w := 0) hO0 g fun x hin _ => hs0 x hin
  unfold ntMapsLoad mapsOf
  rw [hread6]
  dsimp only
  rw [hval6]
  dsimp only
  rw [hread0]
  dsimp only
  rw [hval0]
  dsimp only
  rw [Option.map_some, hlen6, hlen0, h6.valueBytes_congr hO6 g hs6 (Nat.min_le_left _ _),
    h0.valueBytes_congr hO0 g hs0 (Nat.min_le_left _ _)]

theorem mapsLoad_lost (g : m.Geometry) (hO6 : HeaderOk m O6) (hchild : Behind m O6 child) (hboth : Behind m O0 O6)
    (h : Lost m disk ntBitmapFile O6 ∨ (Holds m disk ntBitmapFile Nowhere O6 ∧ Lost m disk 0 O0)) :
    ntMapsLoad m disk child = none := by
  unfold ntMapsLoad
  rcases h with h | ⟨hh6, h⟩
  · rw [h child hchild]
  · obtain ⟨b6, hread6, hb6⟩ := hh6 child hchild
    have hbehind : Behind m O0 b6 := by
      intro x hx
      have hin : ¬ InUsa O6 x := hO6.not_inUsa_behind g hx
      exact (hb6 x hin id).trans (hboth x hx)
    rw [hread6]
    dsimp only
    cases bitmapValue b6 ntAtData with
    | none => rfl
    | some a6 =>
      dsimp only
      rw [h b6 hbehind]

end Ezos.Ntfs

/-!
## Consistent volumes, and what `ntfs_rmdir` finds on one
-/

namespace Ezos.Ntfs

open Lib.Memory Lib.FaultyStore Exfat

inductive Reached (m : Mnt) (disk : Device) (sc : Scratch) : U32 → Prop
  | root : Reached m disk sc ntRootFile
  | entry {no : U32} {rec : Mem} {e : Ent} : Reached m disk sc no → ntReadRecord m disk no sc.ntRec = some rec →
      ntRecIsDir rec = true → e ∈ dirEnts m disk sc.ntIndx rec → Reached m disk sc e.ref

def Live (m : Mnt) (disk : Device) (sc : Scratch) (no : U32) : Prop :=
  no = 0 ∨ no = ntBitmapFile ∨ Reached m disk sc no

def NoRecord (m : Mnt) (disk : Device) (sc : Scratch) (a : U32) : Prop :=
  ∀ no, Live m disk sc no → ∀ lbas, Placed m no lbas → a ∉ lbas

structure Consistent (m : Mnt) (disk : Device) (sc : Scratch) : Prop where
  geometry : m.Geometry
  /-- Every record has sectors, and shares none. -/
  placed : ∀ no, Live m disk sc no → ∃ lbas, Placed m no lbas
  apart : ∀ no no', Live m disk sc no → Live m disk sc no' → no ≠ no' → ∀ lbas lbas', Placed m no lbas →
    Placed m no' lbas' → lbas.Disjoint lbas'
  /-- Every record can be read, its header and attributes are in order. -/
  records : ∀ no, Live m disk sc no → ∀ buf ∈ [sc.ntRec, sc.ntChild],
    ∃ rec, ntReadRecord m disk no buf = some rec ∧ HeaderOk m rec
  dirs : ∀ no, Reached m disk sc no → ∀ buf ∈ [sc.ntRec, sc.ntChild], ∀ rec, ntReadRecord m disk no buf = some rec →
    ntRecIsDir rec = true → DirOk m disk sc.ntIndx (NoRecord m disk sc) rec
  /-- An entry says of a directory alone that it is one, and no entry leads back to its directory. -/
  kinds : ∀ no rec, Reached m disk sc no → ntReadRecord m disk no sc.ntRec = some rec → ntRecIsDir rec = true →
    ∀ e ∈ dirEnts m disk sc.ntIndx rec, e.isDir = true → ∀ rec', ntReadRecord m disk e.ref sc.ntRec = some rec' →
      ntRecIsDir rec' = true
  tree : ∀ no rec, Reached m disk sc no → ntReadRecord m disk no sc.ntRec = some rec → ntRecIsDir rec = true →
    ∀ e ∈ dirEnts m disk sc.ntIndx rec, e.name ≠ [dot] → e.ref ≠ no
  rootDir : ∀ rec, ntReadRecord m disk ntRootFile sc.ntRec = some rec → ntRecIsDir rec = true
  volume : ∀ rec, ntReadRecord m disk ntBitmapFile sc.ntChild = some rec →
    ntRecIsDir rec = false ∧ ∃ a, BitmapOk m rec ntAtData a
  mft : ∀ rec, ntReadRecord m disk 0 sc.ntChild = some rec → ntRecIsDir rec = false ∧ ∃ a, BitmapOk m rec ntAtBitmap a

variable {m : Mnt} {disk : Device} {sc : Scratch}

theorem Consistent.exactly (hc : Consistent m disk sc) {no : U32} {rec buf : Mem} (hl : Live m disk sc no)
    (hb : buf ∈ [sc.ntRec, sc.ntChild]) (hr : ntReadRecord m disk no buf = some rec) :
    HeaderOk m rec ∧ Exactly m disk no rec ∧ Behind m rec buf := by
  obtain ⟨rec', hr', hok⟩ := hc.records no hl buf hb
  rw [hr] at hr'
  injection hr' with hr'
  subst hr'
  obtain ⟨lbas, hp⟩ := hc.placed no hl
  exact ⟨hok, hp.exactly_of_read hc.geometry hr hok.toRecOk, hp.behind_of_read hc.geometry hr hok.toRecOk⟩

theorem Placed.read_behind {no : U32} {lbas : List U32} (h : Placed m no lbas) (g : m.Geometry) {buf buf' : Mem}
    (hb : ∀ x, m.recBytes ≤ x → buf' x = buf x) : ntReadRecord m disk no buf' = ntReadRecord m disk no buf := by
  have hsame : gather disk lbas buf' = gather disk lbas buf := by
    refine gather_congr_old fun x hx => ?_
    rw [h.length_eq, ← g.record] at hx
    exact hb x hx
  rw [h.readRecord, h.readRecord, hsame]

theorem Placed.isDir_eq {no : U32} {lbas : List U32} (h : Placed m no lbas) (g : m.Geometry) {buf buf' rec rec' : Mem}
    (hr : ntReadRecord m disk no buf = some rec) (hr' : ntReadRecord m disk no buf' = some rec') :
    ntRecIsDir rec = ntRecIsDir rec' := by
  have hpos := g.recPos
  rw [h.readRecord] at hr hr'
  have hsame : ∀ x < 510, rec x = rec' x := by
    intro x hx
    rw [(ntFixup_some hr).2 x (by omega), (ntFixup_some hr').2 x (by omega)]
    unfold gather
    have hlen : x / 512 < lbas.length := by
      rw [h.length_eq]
      omega
    rw [List.getElem?_eq_getElem hlen]
  unfold ntRecIsDir
  rw [read16_congr fun x _ hx => hsame x (by omega)]

theorem Consistent.walkPath_dirs (hc : Consistent m disk sc) {cut : Nat} {cs : List (List U8)} {cur : U32} {rec : Mem}
    {no : U32} {rec' : Mem} (hcur : Reached m disk sc cur) (hrec : ntReadRecord m disk cur sc.ntRec = some rec)
    (hdir : ntRecIsDir rec = true)
    (h : walkPath m disk sc.ntIndx (fun e _ => e.isDir) cut cs cur rec = some (no, rec')) :
    Reached m disk sc no ∧ ntReadRecord m disk no sc.ntRec = some rec' ∧ ntRecIsDir rec' = true := by
  induction cs generalizing cur rec with
  | nil =>
    injection h with h
    injection h with h1 h2
    subst h1
    subst h2
    exact ⟨hcur, hrec, hdir⟩
  | cons c cs ih =>
    have hdirOk := hc.dirs cur hcur _ List.mem_cons_self rec hrec hdir
    rw [walkPath] at h
    generalize hw : ntDirWalk m disk sc.ntIndx rec (ntLookupCb (c.take cut)) none = r at h
    cases r with
    | none => contradiction
    | some r =>
      cases r with
      | none => contradiction
      | some e =>
        have hmem := hdirOk.lookup hw
        have hnext : Reached m disk sc e.ref := .entry hcur hrec hdir hmem
        obtain ⟨lbas, hp⟩ := hc.placed e.ref (Or.inr (Or.inr hnext))
        have hbehind := (hc.exactly (Or.inr (Or.inr hcur)) List.mem_cons_self hrec).2.2
        have hread : ntReadRecord m disk e.ref rec = ntReadRecord m disk e.ref sc.ntRec :=
          hp.read_behind hc.geometry fun x hx => (hbehind x hx).symm
        dsimp only at h
        rw [hread] at h
        generalize hr : ntReadRecord m disk e.ref sc.ntRec = r at h
        cases r with
        | none => contradiction
        | some rec'' =>
          dsimp only at h
          rw [Option.ite_none_right_eq_some] at h
          exact ih hnext hr (hc.kinds cur rec hcur hrec hdir e hmem h.1 rec'' hr) h.2

theorem ntReadRecord_behind (g : m.Geometry) {no : U32} {buf rec : Mem} (h : ntReadRecord m disk no buf = some rec)
    {x : Nat} (hx : m.recBytes ≤ x) : rec x = buf x := by
  unfold ntReadRecord at h
  generalize hm : (List.range m.recSecs).mapM (m.recLba no) = r at h
  cases r with
  | none => contradiction
  | some lbas =>
    have hlen := congrArg List.length (mapM_eq_some_iff.mp hm)
    rw [List.length_map, List.length_map, List.length_range] at hlen
    have hrec := g.record
    rw [ntFixup_behind h hx, gather_old (by omega)]

theorem walkPath_behind (g : m.Geometry) {accept : Ent → Mem → Bool} {cut : Nat} {cs : List (List U8)} {cur no : U32}
    {rec rec' : Mem} (h : walkPath m disk sc.ntIndx accept cut cs cur rec = some (no, rec')) {x : Nat}
    (hx : m.recBytes ≤ x) : rec' x = rec x := by
  induction cs generalizing cur rec with
  | nil =>
    injection h with h
    injection h with _ h
    rw [h]
  | cons c cs ih =>
    rw [walkPath] at h
    generalize ntDirWalk m disk sc.ntIndx rec (ntLookupCb (c.take cut)) none = r at h
    cases r with
    | none => contradiction
    | some r =>
      cases r with
      | none => contradiction
      | some e =>
        dsimp only at h
        generalize hr : ntReadRecord m disk e.ref rec = r at h
        cases r with
        | none => contradiction
        | some rec'' =>
          dsimp only at h
          rw [Option.ite_none_right_eq_some] at h
          rw [ih h.2]
          exact ntReadRecord_behind g hr hx

theorem Consistent.resolveDir (hc : Consistent m disk sc) {path : List U8} {no : U32} {rec : Mem}
    (h : ntResolveDir m disk sc.ntIndx sc.ntRec path = some (no, rec)) :
    Reached m disk sc no ∧ ntReadRecord m disk no sc.ntRec = some rec ∧ ntRecIsDir rec = true := by
  have g := hc.geometry
  unfold ntResolveDir at h
  generalize hres : ntResolve m disk sc.ntIndx sc.ntRec path = r at h
  cases r with
  | none => contradiction
  | some rec0 =>
    have hbehind : ∀ x, m.recBytes ≤ x → rec0 x = sc.ntRec x := by
      intro x hx
      unfold ntResolve at hres
      rw [Option.ite_none_left_eq_some, Option.ite_none_left_eq_some] at hres
      have hres := hres.2.2
      generalize hroot : ntReadRecord m disk ntRootFile sc.ntRec = r at hres
      cases r with
      | none => contradiction
      | some rec1 =>
        obtain ⟨⟨no', rec2⟩, hw, he⟩ := Option.map_eq_some_iff.mp hres
        subst he
        exact (walkPath_behind g hw hx).trans (ntReadRecord_behind g hroot hx)
    dsimp only at h
    rw [Option.ite_none_left_eq_some] at h
    have h := h.2
    obtain ⟨lbas, hp⟩ := hc.placed ntRootFile (Or.inr (Or.inr .root))
    rw [hp.read_behind g hbehind] at h
    generalize hroot : ntReadRecord m disk ntRootFile sc.ntRec = r at h
    cases r with
    | none => contradiction
    | some rec1 =>
      dsimp only at h
      generalize hw : walkPath m disk sc.ntIndx (fun e _ => e.isDir) 255 (comps path) ntRootFile rec1 = r at h
      cases r with
      | none => contradiction
      | some r =>
        obtain ⟨no', rec2⟩ := r
        dsimp only at h
        rw [Option.ite_none_left_eq_some] at h
        have h := h.2
        injection h with h
        injection h with h1 h2
        subst h1
        subst h2
        exact hc.walkPath_dirs .root hroot (hc.rootDir rec1 hroot) hw

end Ezos.Ntfs
