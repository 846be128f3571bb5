import Ezos.Ntfs.Records

/-!
# What parsing a record depends on

The attributes of a record tile it behind the array of its update sequence, so nothing that the driver takes from a
record depends on the array.
-/

namespace Ezos.Ntfs

open Lib.Memory Exfat

set_option autoImplicit false

variable {m : Mnt} {rec rec' : Mem} {fin off a : Nat} {type : U32} {name : Option (List U8)}

def attrLen (rec : Mem) (a : Nat) : Nat := (read32 rec (a + 4)).toNat

def firstAttr (rec : Mem) : Nat := (read16 rec 0x14).toNat

/-- From `off` on there are attributes, one after another, up to an end mark or to the end of what is used. -/
inductive Attrs (rec : Mem) (fin : Nat) : Nat → Prop
  | done {off : Nat} : fin < off + 16 ∨ read32 rec off = 0xFFFFFFFF → Attrs rec fin off
  | more {off : Nat} : 16 ≤ attrLen rec off → off + attrLen rec off ≤ fin → Attrs rec fin (off + attrLen rec off) →
      Attrs rec fin off

structure HeaderOk (m : Mnt) (rec : Mem) : Prop extends RecOk m rec where
  usaEnd : usaOff rec + 2 * usaCount rec ≤ firstAttr rec
  used : (read32 rec 0x18).toNat ≤ m.recBytes
  attrs : Attrs rec (read32 rec 0x18).toNat (firstAttr rec)

def AgreeFrom (lo : Nat) (b b' : Mem) : Prop := ∀ x, lo ≤ x → b' x = b x

def Alike (rec rec' : Mem) : Prop := ∀ x, ¬ InUsa rec x → rec' x = rec x

variable {lo pos : Nat}

theorem AgreeFrom.read32 (h : AgreeFrom lo rec rec') (hx : lo ≤ pos) : read32 rec' pos = read32 rec pos :=
  read32_congr fun x hx' _ => h x (by omega)

theorem AgreeFrom.read16 (h : AgreeFrom lo rec rec') (hx : lo ≤ pos) : read16 rec' pos = read16 rec pos :=
  read16_congr fun x hx' _ => h x (by omega)

theorem AgreeFrom.attrLen (h : AgreeFrom lo rec rec') (hx : lo ≤ a) : attrLen rec' a = attrLen rec a :=
  congrArg BitVec.toNat (h.read32 (by omega))

theorem AgreeFrom.resident (h : AgreeFrom lo rec rec') (hx : lo ≤ a) : resident rec' a = resident rec a :=
  congrArg (· == 0) (h (a + 8) (by omega))

theorem AgreeFrom.valueOff (h : AgreeFrom lo rec rec') (hx : lo ≤ a) : valueOff rec' a = valueOff rec a :=
  congrArg (fun v : U16 => a + v.toNat) (h.read16 (by omega))

theorem AgreeFrom.valueLen (h : AgreeFrom lo rec rec') (hx : lo ≤ a) : valueLen rec' a = valueLen rec a :=
  h.read32 (by omega)

theorem AgreeFrom.runOff (h : AgreeFrom lo rec rec') (hx : lo ≤ a) : runOff rec' a = runOff rec a :=
  congrArg (fun v : U16 => a + v.toNat) (h.read16 (by omega))

theorem HeaderOk.low_of_alike (h : HeaderOk m rec) (hs : Alike rec rec') {x : Nat} (hx : x < 0x28) : rec' x = rec x :=
  hs x (h.usa.not_inUsa (Or.inl hx))

theorem HeaderOk.agreeFrom (h : HeaderOk m rec) (hs : Alike rec rec') : AgreeFrom (firstAttr rec) rec rec' := by
  intro x hx
  refine hs x fun hin => ?_
  have hend := h.usaEnd
  unfold InUsa at hin
  omega

/-! ## Finding an attribute -/

theorem toNat_add_attrLen {off32 : U32} (h : off32.toNat + attrLen rec off32.toNat ≤ fin) (hfin : fin ≤ ntMaxRec) :
    (off32 + read32 rec (off32.toNat + 4)).toNat = off32.toNat + attrLen rec off32.toNat := by
  unfold attrLen at h ⊢
  rw [BitVec.toNat_add, Nat.mod_eq_of_lt]
  have hmax : ntMaxRec = 4096 := rfl
  omega

theorem bound_iff {off32 fin32 : U32} (hoff : off32.toNat ≤ 65536) (hfin32 : fin32.toNat = fin) (hfin : fin ≤ ntMaxRec) :
    (off32 + 16 ≤ fin32 ∧ off32 + 16 ≤ BitVec.ofNat 32 ntMaxRec) ↔ off32.toNat + 16 ≤ fin := by
  have hmax : ntMaxRec = 4096 := rfl
  have hsum : (off32 + 16).toNat = off32.toNat + 16 := by
    have h16 : (16 : U32).toNat = 16 := rfl
    rw [BitVec.toNat_add, h16, Nat.mod_eq_of_lt]
    omega
  rw [BitVec.le_def, BitVec.le_def, hsum, hfin32, hmax, BitVec.toNat_ofNat]
  omega

theorem findAttrFrom_more {n : Nat} {off32 fin32 : U32} (hoff : off32.toNat ≤ 65536) (hfin32 : fin32.toNat = fin)
    (hfin : fin ≤ ntMaxRec) (hend : read32 rec off32.toNat ≠ 0xFFFFFFFF) (hlen : 16 ≤ attrLen rec off32.toNat)
    (hfits : off32.toNat + attrLen rec off32.toNat ≤ fin) :
    ntFindAttrFrom rec fin32 type name (n + 1) off32 =
      if read32 rec off32.toNat = type then
        foundOr off32.toNat (ntFindAttrFrom rec fin32 type name n (off32 + read32 rec (off32.toNat + 4)))
          (attrNamed rec off32.toNat (read32 rec (off32.toNat + 4)) name)
      else ntFindAttrFrom rec fin32 type name n (off32 + read32 rec (off32.toNat + 4)) := by
  have hgo : ¬ (read32 rec (off32.toNat + 4) < 16 ∨ fin32 < off32 + read32 rec (off32.toNat + 4)) := by
    rw [BitVec.lt_def, BitVec.lt_def, toNat_add_attrLen hfits hfin, hfin32]
    exact not_or.mpr ⟨Nat.not_lt.mpr hlen, Nat.not_lt.mpr hfits⟩
  rw [ntFindAttrFrom, if_neg (not_not.mpr ((bound_iff hoff hfin32 hfin).mpr (by omega)))]
  dsimp only
  rw [if_neg hend, if_neg hgo]

theorem findAttrFrom_done {n : Nat} {off32 fin32 : U32} (hoff : off32.toNat ≤ 65536) (hfin32 : fin32.toNat = fin)
    (hfin : fin ≤ ntMaxRec) (hend : fin < off32.toNat + 16 ∨ read32 rec off32.toNat = 0xFFFFFFFF) :
    ntFindAttrFrom rec fin32 type name n off32 = none := by
  cases n with
  | zero => rfl
  | succ n =>
    rw [ntFindAttrFrom]
    by_cases hb : off32 + 16 ≤ fin32 ∧ off32 + 16 ≤ BitVec.ofNat 32 ntMaxRec
    · have hle := (bound_iff hoff hfin32 hfin).mp hb
      rw [if_neg (not_not.mpr hb)]
      dsimp only
      rw [if_pos (hend.resolve_left (by omega))]
    · rw [if_pos hb]

theorem AgreeFrom.attrNamed (h : AgreeFrom lo rec rec') (hx : lo ≤ a) (len : U32) (name : Option (List U8)) :
    attrNamed rec' a len name = attrNamed rec a len name := by
  have hunits : ∀ o n, unitsAt rec' (a + o) n = unitsAt rec (a + o) n := by
    intro o n
    exact List.map_congr_left fun i _ => h.read16 (by omega)
  unfold Ntfs.attrNamed
  rw [h (a + 9) (by omega), h.read16 (show lo ≤ a + 0xA by omega)]
  cases name with
  | none => rfl
  | some name =>
    dsimp only
    rw [hunits]

theorem Attrs.find_congr {n : Nat} {off32 fin32 : U32} (h : Attrs rec fin off32.toNat) (hoff : off32.toNat ≤ 65536)
    (hfin32 : fin32.toNat = fin) (hfin : fin ≤ ntMaxRec) (hs : AgreeFrom lo rec rec') (hlo : lo ≤ off32.toNat) :
    ntFindAttrFrom rec' fin32 type name n off32 = ntFindAttrFrom rec fin32 type name n off32 := by
  have hmax : ntMaxRec = 4096 := rfl
  induction n generalizing off32 with
  | zero => rfl
  | succ n ih =>
    have htype : read32 rec' off32.toNat = read32 rec off32.toNat := hs.read32 hlo
    have hlen32 : read32 rec' (off32.toNat + 4) = read32 rec (off32.toNat + 4) := hs.read32 (by omega)
    by_cases hend : fin < off32.toNat + 16 ∨ read32 rec off32.toNat = 0xFFFFFFFF
    · rw [findAttrFrom_done hoff hfin32 hfin hend, findAttrFrom_done hoff hfin32 hfin (htype ▸ hend)]
    · cases h with
      | done he => exact absurd he hend
      | more hlen hfits hrest =>
        have hnext := toNat_add_attrLen hfits hfin
        have hne := (not_or.mp hend).2
        have hlen' : 16 ≤ Ntfs.attrLen rec' off32.toNat := (hs.attrLen hlo).symm ▸ hlen
        have hfits' : off32.toNat + Ntfs.attrLen rec' off32.toNat ≤ fin := (hs.attrLen hlo).symm ▸ hfits
        rw [findAttrFrom_more hoff hfin32 hfin hne hlen hfits,
          findAttrFrom_more hoff hfin32 hfin (htype ▸ hne) hlen' hfits', htype, hlen32, hs.attrNamed hlo,
          ih (hnext.symm ▸ hrest) (by omega) (by omega)]

theorem Attrs.find_some {n : Nat} {off32 fin32 : U32} (h : Attrs rec fin off32.toNat) (hoff : off32.toNat ≤ 65536)
    (hfin32 : fin32.toNat = fin) (hfin : fin ≤ ntMaxRec)
    (ha : ntFindAttrFrom rec fin32 type name n off32 = some a) : off32.toNat ≤ a ∧ a + attrLen rec a ≤ fin := by
  have hmax : ntMaxRec = 4096 := rfl
  induction n generalizing off32 with
  | zero => contradiction
  | succ n ih =>
    by_cases hend : fin < off32.toNat + 16 ∨ read32 rec off32.toNat = 0xFFFFFFFF
    · rw [findAttrFrom_done hoff hfin32 hfin hend] at ha
      contradiction
    · cases h with
      | done he => exact absurd he hend
      | more hlen hfits hrest =>
        have hnext := toNat_add_attrLen hfits hfin
        have hlater : ntFindAttrFrom rec fin32 type name n (off32 + read32 rec (off32.toNat + 4)) = some a →
            off32.toNat ≤ a ∧ a + attrLen rec a ≤ fin := by
          intro hl
          obtain ⟨hle, hin⟩ := ih (hnext.symm ▸ hrest) (by omega) hl
          exact ⟨by omega, hin⟩
        rw [findAttrFrom_more hoff hfin32 hfin (not_or.mp hend).2 hlen hfits] at ha
        by_cases ht : read32 rec off32.toNat = type
        · rw [if_pos ht] at ha
          cases hv : attrNamed rec off32.toNat (read32 rec (off32.toNat + 4)) name with
          | none =>
            rw [hv] at ha
            contradiction
          | some v =>
            rw [hv] at ha
            cases v with
            | true =>
              injection ha with ha
              subst ha
              exact ⟨Nat.le_refl _, hfits⟩
            | false => exact hlater ha
        · rw [if_neg ht] at ha
          exact hlater ha

theorem Attrs.find_stable {n : Nat} {off32 fin32 : U32} (h : Attrs rec fin off32.toNat) (hoff : off32.toNat ≤ 65536)
    (hfin32 : fin32.toNat = fin) (hfin : fin ≤ ntMaxRec)
    (ha : ntFindAttrFrom rec fin32 type none n off32 = some a)
    (hs : ∀ x, off32.toNat ≤ x → x < a + 16 → rec' x = rec x) : ntFindAttrFrom rec' fin32 type none n off32 = some a := by
  have hmax : ntMaxRec = 4096 := rfl
  induction n generalizing off32 with
  | zero => contradiction
  | succ n ih =>
    have hle := (h.find_some hoff hfin32 hfin ha).1
    have htype : read32 rec' off32.toNat = read32 rec off32.toNat := read32_congr fun x hx hx' => hs x hx (by omega)
    have hlen32 : read32 rec' (off32.toNat + 4) = read32 rec (off32.toNat + 4) :=
      read32_congr fun x hx hx' => hs x (by omega) (by omega)
    have hnine : rec' (off32.toNat + 9) = rec (off32.toNat + 9) := hs _ (by omega) (by omega)
    by_cases hend : fin < off32.toNat + 16 ∨ read32 rec off32.toNat = 0xFFFFFFFF
    · rw [findAttrFrom_done hoff hfin32 hfin hend] at ha
      contradiction
    · cases h with
      | done he => exact absurd he hend
      | more hlen hfits hrest =>
        have hnext := toNat_add_attrLen hfits hfin
        have hne := (not_or.mp hend).2
        have hlenEq : attrLen rec' off32.toNat = attrLen rec off32.toNat := congrArg BitVec.toNat hlen32
        rw [findAttrFrom_more hoff hfin32 hfin (htype ▸ hne) (hlenEq ▸ hlen) (hlenEq ▸ hfits), htype, hlen32]
        rw [findAttrFrom_more hoff hfin32 hfin hne hlen hfits] at ha
        have hnamed : attrNamed rec' off32.toNat (read32 rec (off32.toNat + 4)) none =
            attrNamed rec off32.toNat (read32 rec (off32.toNat + 4)) none := by
          unfold attrNamed
          rw [hnine]
        rw [hnamed]
        have hlater : ntFindAttrFrom rec fin32 type none n (off32 + read32 rec (off32.toNat + 4)) = some a →
            ntFindAttrFrom rec' fin32 type none n (off32 + read32 rec (off32.toNat + 4)) = some a := by
          intro hl
          exact ih (hnext.symm ▸ hrest) (by omega) hl fun x hx hx' => hs x (by omega) hx'
        by_cases ht : read32 rec off32.toNat = type
        · rw [if_pos ht] at ha ⊢
          cases hv : attrNamed rec off32.toNat (read32 rec (off32.toNat + 4)) none with
          | none =>
            rw [hv] at ha
            contradiction
          | some v =>
            rw [hv] at ha
            cases v with
            | true => exact ha
            | false => exact hlater ha
        · rw [if_neg ht] at ha ⊢
          exact hlater ha

theorem ntFindAttr_eq (h : (read32 rec 0x18).toNat ≤ ntMaxRec) : ntFindAttr rec type name =
    ntFindAttrFrom rec (read32 rec 0x18) type name ntMaxRec ((read16 rec 0x14).setWidth 32) := by
  have hcap : ¬ BitVec.ofNat 32 ntMaxRec < read32 rec 0x18 := by
    rw [BitVec.lt_def, BitVec.toNat_ofNat]
    exact Nat.not_lt.mpr h
  unfold ntFindAttr
  dsimp only
  rw [if_neg hcap]

theorem toNat_start (rec : Mem) : ((read16 rec 0x14).setWidth 32 : U32).toNat = firstAttr rec :=
  BitVec.toNat_setWidth_of_le (by decide)

theorem firstAttr_le (rec : Mem) : firstAttr rec ≤ 65536 := Nat.le_of_lt (read16 rec 0x14).isLt

theorem HeaderOk.findAttr_congr (h : HeaderOk m rec) (g : m.Geometry) (hs : Alike rec rec') :
    ntFindAttr rec' type name = ntFindAttr rec type name := by
  have hlow : ∀ x < 0x28, rec' x = rec x := fun x hx => h.low_of_alike hs hx
  have hused : read32 rec' 0x18 = read32 rec 0x18 := read32_congr fun x _ hx => hlow x (by omega)
  have hfirst : read16 rec' 0x14 = read16 rec 0x14 := read16_congr fun x _ hx => hlow x (by omega)
  have hmax := Nat.le_trans h.used g.recMax
  rw [ntFindAttr_eq hmax, ntFindAttr_eq (hused.symm ▸ hmax), hused, hfirst]
  have hstart := toNat_start rec
  exact Attrs.find_congr (hstart.symm ▸ h.attrs) (hstart.symm ▸ firstAttr_le rec) rfl hmax (h.agreeFrom hs)
    (Nat.le_of_eq hstart.symm)

theorem HeaderOk.findAttr_some (h : HeaderOk m rec) (g : m.Geometry) (ha : ntFindAttr rec type name = some a) :
    firstAttr rec ≤ a ∧ a + attrLen rec a ≤ m.recBytes := by
  have hmax := Nat.le_trans h.used g.recMax
  rw [ntFindAttr_eq hmax] at ha
  have hstart := toNat_start rec
  obtain ⟨hlo, hhi⟩ := Attrs.find_some (hstart.symm ▸ h.attrs) (hstart.symm ▸ firstAttr_le rec) rfl hmax ha
  exact ⟨hstart ▸ hlo, Nat.le_trans hhi h.used⟩

theorem HeaderOk.findAttr_stable (h : HeaderOk m rec) (g : m.Geometry) (ha : ntFindAttr rec type none = some a)
    (hs : ∀ x, x < a + 16 → ¬ InUsa rec x → rec' x = rec x) : ntFindAttr rec' type none = some a := by
  have hfirst := (h.findAttr_some g ha).1
  have hend := h.usaEnd
  have hlo := h.usa.lo
  have hlow : ∀ x < 0x28, rec' x = rec x := fun x hx => hs x (by omega) (h.usa.not_inUsa (Or.inl hx))
  have hused : read32 rec' 0x18 = read32 rec 0x18 := read32_congr fun x _ hx => hlow x (by omega)
  have hfirst' : read16 rec' 0x14 = read16 rec 0x14 := read16_congr fun x _ hx => hlow x (by omega)
  have hmax := Nat.le_trans h.used g.recMax
  rw [ntFindAttr_eq hmax] at ha
  rw [ntFindAttr_eq (hused.symm ▸ hmax), hused, hfirst']
  have hstart := toNat_start rec
  refine Attrs.find_stable (hstart.symm ▸ h.attrs) (hstart.symm ▸ firstAttr_le rec) rfl hmax ha ?_
  intro x hx hx'
  refine hs x hx' ?_
  unfold InUsa
  omega

end Ezos.Ntfs
