import Ezos.Ntfs.Remove
import Mathlib.Data.List.Nodup

/-!
# Update sequences: what a written buffer reads back as

The number of a write stands at the end of each of its sectors and in front of the array, so a row of sectors of which
some are of another write is refused, unless the two writes have one number.
-/

namespace Ezos.Ntfs

open Lib.Memory Lib.FaultyStore

set_option autoImplicit false

variable {pu n : Nat} {us : U16} {l : List Nat} {buf b : Mem}

theorem copy2_apply (m : Mem) {dst src : Nat} (h : src + 1 ≠ dst) (x : Nat) :
    copy2 m dst src x = if x = dst + 1 then m (src + 1) else if x = dst then m src else m x := by
  have hsrc : write8 m dst (m src) (src + 1) = m (src + 1) := if_neg h
  unfold copy2
  rw [hsrc]
  rfl

theorem copy2_other (m : Mem) {dst src x : Nat} (h : x ≠ dst) (h' : x ≠ dst + 1) : copy2 m dst src x = m x := by
  unfold copy2 write8
  rw [if_neg h', if_neg h]

theorem restoreTails_other {b' : Mem} (h : restoreTails pu us l b = some b') {x : Nat} (hx : x % 512 < 510) :
    b' x = b x := by
  induction l generalizing b with
  | nil =>
    injection h with h
    rw [h]
  | cons i l ih =>
    rw [restoreTails, Option.ite_none_left_eq_some] at h
    rw [ih h.2]
    exact copy2_other b (by omega) (by omega)

theorem restoreTails_behind {b' : Mem} (h : restoreTails pu us l b = some b') {x : Nat} (hx : ∀ i ∈ l, i * 512 + 511 < x) :
    b' x = b x := by
  induction l generalizing b with
  | nil =>
    injection h with h
    rw [h]
  | cons i l ih =>
    have hi := hx i List.mem_cons_self
    rw [restoreTails, Option.ite_none_left_eq_some] at h
    rw [ih h.2 fun j hj => hx j (List.mem_cons_of_mem i hj)]
    exact copy2_other b (by omega) (by omega)

def restored (pu : Nat) (l : List Nat) (b : Mem) : Mem := fun x =>
  if 510 ≤ x % 512 ∧ x / 512 ∈ l then b (pu + 2 + x / 512 * 2 + (x % 512 - 510)) else b x

def stamped (pu : Nat) (l : List Nat) (b : Mem) : Mem := fun x =>
  if 510 ≤ x % 512 ∧ x / 512 ∈ l then b (pu + (x % 512 - 510))
  else if pu + 2 ≤ x ∧ (x - pu - 2) / 2 ∈ l then b ((x - pu - 2) / 2 * 512 + 510 + (x - pu - 2) % 2)
  else b x

def Fits (pu : Nat) (l : List Nat) : Prop := ∀ i ∈ l, pu + 2 + i * 2 + 2 ≤ 510

theorem Fits.tail {i : Nat} (h : Fits pu (i :: l)) : Fits pu l := fun j hj => h j (List.mem_cons_of_mem i hj)

theorem restoreTails_eq (hfit : Fits pu l) (hnd : l.Nodup) :
    restoreTails pu us l b = if ∀ i ∈ l, read16 b (i * 512 + 510) = us then some (restored pu l b) else none := by
  induction l generalizing b with
  | nil =>
    rw [if_pos fun i hi => absurd hi List.not_mem_nil]
    have hb : restored pu [] b = b := by
      funext x
      exact if_neg fun h => absurd h.2 List.not_mem_nil
    rw [hb]
    rfl
  | cons i l ih =>
    rw [List.nodup_cons] at hnd
    have hi : pu + 2 + i * 2 + 2 ≤ 510 := hfit i List.mem_cons_self
    have hcopy := copy2_apply b (show pu + 2 + i * 2 + 1 ≠ i * 512 + 510 by omega)
    rw [restoreTails]
    by_cases hus : read16 b (i * 512 + 510) = us
    · rw [if_neg (not_not.mpr hus), ih hfit.tail hnd.2]
      have htail : ∀ j ∈ l, read16 (copy2 b (i * 512 + 510) (pu + 2 + i * 2)) (j * 512 + 510) =
          read16 b (j * 512 + 510) := by
        intro j hj
        have hne : j ≠ i := fun h => hnd.1 (h ▸ hj)
        refine read16_congr fun x hlo hhi => ?_
        rw [hcopy, if_neg (by omega), if_neg (by omega)]
      have hsame : restored pu l (copy2 b (i * 512 + 510) (pu + 2 + i * 2)) = restored pu (i :: l) b := by
        funext x
        unfold restored
        by_cases hx : 510 ≤ x % 512 ∧ x / 512 ∈ l
        · have hfx := hfit.tail _ hx.2
          rw [if_pos hx, if_pos ⟨hx.1, List.mem_cons_of_mem i hx.2⟩, hcopy, if_neg (by omega), if_neg (by omega)]
        · rw [if_neg hx]
          by_cases hxi : 510 ≤ x % 512 ∧ x / 512 = i
          · have hmem : 510 ≤ x % 512 ∧ x / 512 ∈ i :: l := by
              refine ⟨hxi.1, ?_⟩
              rw [hxi.2]
              exact List.mem_cons_self
            rw [if_pos hmem, hcopy]
            by_cases hodd : x % 512 = 510
            · have hsrc : pu + 2 + x / 512 * 2 + (x % 512 - 510) = pu + 2 + i * 2 := by omega
              rw [if_neg (by omega), if_pos (by omega), hsrc]
            · have hsrc : pu + 2 + x / 512 * 2 + (x % 512 - 510) = pu + 2 + i * 2 + 1 := by omega
              rw [if_pos (by omega), hsrc]
          · have hnot : ¬ (510 ≤ x % 512 ∧ x / 512 ∈ i :: l) := by
              rintro ⟨hlo, hmem⟩
              rcases List.mem_cons.mp hmem with he | hmem
              · exact hxi ⟨hlo, he⟩
              · exact hx ⟨hlo, hmem⟩
            rw [if_neg hnot, hcopy, if_neg (by omega), if_neg (by omega)]
      rw [hsame]
      refine if_congr ?_ rfl rfl
      constructor
      · intro h j hj
        rcases List.mem_cons.mp hj with rfl | hj
        · exact hus
        · exact (htail j hj).symm.trans (h j hj)
      · intro h j hj
        exact (htail j hj).trans (h j (List.mem_cons_of_mem i hj))
    · rw [if_pos hus, if_neg fun h => hus (h i List.mem_cons_self)]

theorem stampTails_eq (hfit : Fits pu l) (hnd : l.Nodup) : stampTails pu l b = stamped pu l b := by
  induction l generalizing b with
  | nil =>
    funext x
    unfold stamped
    rw [if_neg fun h => absurd h.2 List.not_mem_nil, if_neg fun h => absurd h.2 List.not_mem_nil]
    rfl
  | cons i l ih =>
    rw [List.nodup_cons] at hnd
    have hi : pu + 2 + i * 2 + 2 ≤ 510 := hfit i List.mem_cons_self
    have hone : ∀ x, copy2 (copy2 b (pu + 2 + i * 2) (i * 512 + 510)) (i * 512 + 510) pu x =
        if x = i * 512 + 510 + 1 then b (pu + 1) else if x = i * 512 + 510 then b pu
        else if x = pu + 2 + i * 2 + 1 then b (i * 512 + 510 + 1)
        else if x = pu + 2 + i * 2 then b (i * 512 + 510) else b x := by
      intro x
      have hkept := copy2_apply b (show i * 512 + 510 + 1 ≠ pu + 2 + i * 2 by omega)
      rw [copy2_apply _ (by omega), hkept, hkept, hkept]
      rw [if_neg (show ¬ pu + 1 = pu + 2 + i * 2 + 1 by omega), if_neg (show ¬ pu + 1 = pu + 2 + i * 2 by omega),
        if_neg (show ¬ pu = pu + 2 + i * 2 + 1 by omega), if_neg (show ¬ pu = pu + 2 + i * 2 by omega)]
    have hcons : stampTails pu (i :: l) b =
        stampTails pu l (copy2 (copy2 b (pu + 2 + i * 2) (i * 512 + 510)) (i * 512 + 510) pu) := rfl
    rw [hcons, ih hfit.tail hnd.2]
    funext x
    unfold stamped
    by_cases hx : 510 ≤ x % 512 ∧ x / 512 ∈ l
    · rw [if_pos hx, if_pos ⟨hx.1, List.mem_cons_of_mem i hx.2⟩, hone, if_neg (by omega), if_neg (by omega),
        if_neg (by omega), if_neg (by omega)]
    · rw [if_neg hx]
      by_cases hxi : 510 ≤ x % 512 ∧ x / 512 = i
      · have hmem : 510 ≤ x % 512 ∧ x / 512 ∈ i :: l := by
          refine ⟨hxi.1, ?_⟩
          rw [hxi.2]
          exact List.mem_cons_self
        have hslot : ¬ (pu + 2 ≤ x ∧ (x - pu - 2) / 2 ∈ l) := by
          rintro ⟨hlo, hm⟩
          have := hfit.tail _ hm
          omega
        rw [if_pos hmem, if_neg hslot, hone]
        by_cases hodd : x % 512 = 510
        · have hsrc : pu + (x % 512 - 510) = pu := by omega
          rw [if_neg (by omega), if_pos (by omega), hsrc]
        · have hsrc : pu + (x % 512 - 510) = pu + 1 := by omega
          rw [if_pos (by omega), hsrc]
      · have hnot : ¬ (510 ≤ x % 512 ∧ x / 512 ∈ i :: l) := by
          rintro ⟨hlo, hm⟩
          rcases List.mem_cons.mp hm with he | hm
          · exact hxi ⟨hlo, he⟩
          · exact hx ⟨hlo, hm⟩
        rw [if_neg hnot]
        by_cases hs : pu + 2 ≤ x ∧ (x - pu - 2) / 2 ∈ l
        · have hfx := hfit.tail _ hs.2
          have hne : (x - pu - 2) / 2 ≠ i := fun h => hnd.1 (h ▸ hs.2)
          rw [if_pos hs, if_pos ⟨hs.1, List.mem_cons_of_mem i hs.2⟩, hone, if_neg (by omega), if_neg (by omega),
            if_neg (by omega), if_neg (by omega)]
        · rw [if_neg hs, hone, if_neg (by omega), if_neg (by omega)]
          by_cases hsi : pu + 2 ≤ x ∧ (x - pu - 2) / 2 = i
          · have hmem : pu + 2 ≤ x ∧ (x - pu - 2) / 2 ∈ i :: l := by
              refine ⟨hsi.1, ?_⟩
              rw [hsi.2]
              exact List.mem_cons_self
            rw [if_pos hmem]
            by_cases hodd : (x - pu - 2) % 2 = 0
            · have hsrc : (x - pu - 2) / 2 * 512 + 510 + (x - pu - 2) % 2 = i * 512 + 510 := by omega
              rw [if_neg (by omega), if_pos (by omega), hsrc]
            · have hsrc : (x - pu - 2) / 2 * 512 + 510 + (x - pu - 2) % 2 = i * 512 + 510 + 1 := by omega
              rw [if_pos (by omega), hsrc]
          · have hnotSlot : ¬ (pu + 2 ≤ x ∧ (x - pu - 2) / 2 ∈ i :: l) := by
              rintro ⟨hlo, hm⟩
              rcases List.mem_cons.mp hm with he | hm
              · exact hsi ⟨hlo, he⟩
              · exact hs ⟨hlo, hm⟩
            rw [if_neg hnotSlot, if_neg (by omega), if_neg (by omega)]

theorem lt_of_tail {i x : Nat} (hi : i < n) (hx : x < i * 512 + 510 + 2) : x < n * 512 := by
  have hle : (i + 1) * 512 ≤ n * 512 := Nat.mul_le_mul_right 512 hi
  rw [Nat.add_mul] at hle
  exact Nat.lt_of_lt_of_le hx hle

/-! ## A buffer as it goes to the disk -/

/-- The array of `n` sectors lies behind the fields of a header, and in front of the end of the first sector. -/
structure UsaOk (n : Nat) (buf : Mem) : Prop where
  pos : 0 < n
  count : usaCount buf = n + 1
  lo : 0x28 ≤ usaOff buf
  hi : usaOff buf + 2 * (n + 1) ≤ 510

def InUsa (buf : Mem) (x : Nat) : Prop := usaOff buf ≤ x ∧ x < usaOff buf + 2 * usaCount buf

def armed (buf : Mem) (usn : U32) : Mem :=
  stampTails (usaOff buf) (List.range (usaCount buf - 1)) (setUsn buf usn)

variable {usn : U32} {magic : U32}

theorem usa_congr {b b' : Mem} (h : ∀ x < 8, b' x = b x) : usaOff b' = usaOff b ∧ usaCount b' = usaCount b := by
  constructor
  · exact congrArg BitVec.toNat (read16_congr fun x _ hx => h x (by omega))
  · exact congrArg BitVec.toNat (read16_congr fun x _ hx => h x (by omega))

theorem UsaOk.congr {b b' : Mem} (h : UsaOk n b) (hb : ∀ x < 8, b' x = b x) : UsaOk n b' := by
  obtain ⟨hoff, hcount⟩ := usa_congr hb
  exact ⟨h.pos, hcount.trans h.count, hoff ▸ h.lo, hoff ▸ h.hi⟩

theorem UsaOk.fits (h : UsaOk n buf) : Fits (usaOff buf) (List.range n) := by
  intro i hi
  have hlt := List.mem_range.mp hi
  have hhi := h.hi
  omega

theorem UsaOk.not_inUsa (h : UsaOk n buf) {x : Nat} (hx : x < 0x28 ∨ 510 ≤ x) : ¬ InUsa buf x := by
  unfold InUsa
  rw [h.count]
  have hlo := h.lo
  have hhi := h.hi
  omega

theorem setUsn_apply {x : Nat} (h : x < usaOff buf ∨ usaOff buf + 2 ≤ x) : setUsn buf usn x = buf x :=
  write16_of_disjoint h

theorem UsaOk.armed_eq (h : UsaOk n buf) : armed buf usn = stamped (usaOff buf) (List.range n) (setUsn buf usn) := by
  rw [armed, h.count, Nat.add_sub_cancel]
  exact stampTails_eq h.fits List.nodup_range

theorem UsaOk.armed_low (h : UsaOk n buf) {x : Nat} (hx : x < 8) : armed buf usn x = buf x := by
  have hlo := h.lo
  rw [h.armed_eq, stamped, if_neg (by omega), if_neg (by omega)]
  exact setUsn_apply (Or.inl (by omega))

theorem UsaOk.armed_usn (h : UsaOk n buf) : read16 (armed buf usn) (usaOff buf) = usn.setWidth 16 := by
  have hhi := h.hi
  have hsame : read16 (armed buf usn) (usaOff buf) = read16 (setUsn buf usn) (usaOff buf) := by
    refine read16_congr fun x _ hx => ?_
    rw [h.armed_eq, stamped, if_neg (by omega), if_neg (by omega)]
  exact hsame.trans (read16_write16_self _ _ _)

theorem UsaOk.armed_tail (h : UsaOk n buf) {i : Nat} (hi : i < n) :
    read16 (armed buf usn) (i * 512 + 510) = usn.setWidth 16 := by
  have hmem : ∀ k < 2, 510 ≤ (i * 512 + 510 + k) % 512 ∧ (i * 512 + 510 + k) / 512 ∈ List.range n := by
    intro k hk
    have hdiv : (i * 512 + 510 + k) / 512 = i := by omega
    rw [hdiv]
    exact ⟨by omega, List.mem_range.mpr hi⟩
  have hval : ∀ k < 2, armed buf usn (i * 512 + 510 + k) = setUsn buf usn (usaOff buf + k) := by
    intro k hk
    have hmod : (i * 512 + 510 + k) % 512 - 510 = k := by omega
    rw [h.armed_eq, stamped, if_pos (hmem k hk), hmod]
  have h0 := hval 0 (by omega)
  have h1 := hval 1 (by omega)
  rw [Nat.add_zero, Nat.add_zero] at h0
  rw [read16, h0, h1]
  exact read16_write16_self _ _ _

theorem UsaOk.armed_congr {O : Mem} (h : UsaOk n O) (hs : ∀ x < n * 512, buf x = O x) {x : Nat} (hx : x < n * 512) :
    armed buf usn x = armed O usn x := by
  have hpos := h.pos
  have hlow : ∀ x < 8, buf x = O x := fun x hx => hs x (by omega)
  have hbuf : UsaOk n buf := h.congr hlow
  have hhi := h.hi
  have hset : ∀ {x}, x < n * 512 → setUsn buf usn x = setUsn O usn x := by
    intro x hx
    unfold setUsn write16 writeBytes copyIn
    rw [(usa_congr hlow).1, hs x hx]
  rw [hbuf.armed_eq, h.armed_eq, (usa_congr hlow).1]
  unfold stamped
  by_cases ht : 510 ≤ x % 512 ∧ x / 512 ∈ List.range n
  · rw [if_pos ht, if_pos ht]
    exact hset (by omega)
  · rw [if_neg ht, if_neg ht]
    by_cases hslot : usaOff O + 2 ≤ x ∧ (x - usaOff O - 2) / 2 ∈ List.range n
    · have := List.mem_range.mp hslot.2
      rw [if_pos hslot, if_pos hslot]
      exact hset (by omega)
    · rw [if_neg hslot, if_neg hslot]
      exact hset hx

theorem UsaOk.armed_behind (h : UsaOk n buf) {x : Nat} (hx : n * 512 ≤ x) : armed buf usn x = buf x := by
  have hpos := h.pos
  have hhi := h.hi
  have ht : ¬ (510 ≤ x % 512 ∧ x / 512 ∈ List.range n) := by
    rintro ⟨-, hm⟩
    have := List.mem_range.mp hm
    omega
  have hslot : ¬ (usaOff buf + 2 ≤ x ∧ (x - usaOff buf - 2) / 2 ∈ List.range n) := by
    rintro ⟨-, hm⟩
    have := List.mem_range.mp hm
    omega
  rw [h.armed_eq, stamped, if_neg ht, if_neg hslot]
  exact setUsn_apply (Or.inr (by omega))

theorem UsaOk.restored_armed (h : UsaOk n buf) {x : Nat} (hx : ¬ InUsa buf x) :
    restored (usaOff buf) (List.range n) (armed buf usn) x = buf x := by
  have hlo := h.lo
  have hhi := h.hi
  unfold InUsa at hx
  rw [h.count] at hx
  rw [h.armed_eq]
  unfold restored
  by_cases ht : 510 ≤ x % 512 ∧ x / 512 ∈ List.range n
  · have hlt := List.mem_range.mp ht.2
    have hslot : (usaOff buf + 2 + x / 512 * 2 + (x % 512 - 510) - usaOff buf - 2) / 2 = x / 512 := by omega
    have hback : x / 512 * 512 + 510 + (usaOff buf + 2 + x / 512 * 2 + (x % 512 - 510) - usaOff buf - 2) % 2 = x := by
      omega
    rw [if_pos ht, stamped, if_neg (by omega), hslot, if_pos ⟨by omega, ht.2⟩, hback]
    exact setUsn_apply (Or.inr (by omega))
  · have hno : ¬ (usaOff buf + 2 ≤ x ∧ (x - usaOff buf - 2) / 2 ∈ List.range n) := by
      rintro ⟨hge, hm⟩
      have := List.mem_range.mp hm
      omega
    rw [if_neg ht, stamped, if_neg ht, if_neg hno]
    exact setUsn_apply (by omega)

variable {raw raw' : Mem}

theorem UsaOk.fixup_eq (h : UsaOk n raw) (hmagic : read32 raw 0 = magic) :
    ntFixup raw (n * 512) magic =
      if ∀ i ∈ List.range n, read16 raw (i * 512 + 510) = read16 raw (usaOff raw) then
        some (restored (usaOff raw) (List.range n) raw)
      else none := by
  have hcount : ¬ (usaCount raw = 0 ∨ (usaCount raw - 1) * 512 ≠ n * 512) := by
    rw [h.count]
    omega
  unfold ntFixup
  rw [if_neg (not_not.mpr hmagic)]
  dsimp only
  rw [if_neg hcount, h.count, Nat.add_sub_cancel]
  exact restoreTails_eq h.fits List.nodup_range

theorem UsaOk.fixup_apply (h : UsaOk n raw) (hmagic : read32 raw 0 = magic) (hb : ntFixup raw (n * 512) magic = some b)
    {x : Nat} (hx : x % 512 < 510 ∨ n * 512 ≤ x) : b x = raw x := by
  rw [h.fixup_eq hmagic, Option.ite_none_right_eq_some] at hb
  obtain ⟨-, hb⟩ := hb
  injection hb with hb
  subst hb
  refine if_neg ?_
  rintro ⟨hge, hm⟩
  have := List.mem_range.mp hm
  omega

theorem ntFixup_some {bytes : Nat} (h : ntFixup raw bytes magic = some b) :
    read32 raw 0 = magic ∧ ∀ x, x % 512 < 510 → b x = raw x := by
  unfold ntFixup at h
  rw [Option.ite_none_left_eq_some] at h
  obtain ⟨hmagic, h⟩ := h
  dsimp only at h
  rw [Option.ite_none_left_eq_some] at h
  exact ⟨not_not.mp hmagic, fun x hx => restoreTails_other h.2 hx⟩

theorem ntFixup_behind {bytes : Nat} (h : ntFixup raw bytes magic = some b) {x : Nat} (hx : bytes ≤ x) : b x = raw x := by
  unfold ntFixup at h
  rw [Option.ite_none_left_eq_some] at h
  have h := h.2
  dsimp only at h
  rw [Option.ite_none_left_eq_some] at h
  obtain ⟨hcount, h⟩ := h
  refine restoreTails_behind h fun i hi => ?_
  have := List.mem_range.mp hi
  omega

theorem UsaOk.fixup_armed (h : UsaOk n buf) (hmagic : read32 buf 0 = magic)
    (hraw : ∀ x < n * 512, raw x = armed buf usn x) :
    ∃ b, ntFixup raw (n * 512) magic = some b ∧ (∀ x < n * 512, ¬ InUsa buf x → b x = buf x) ∧
      ∀ x, n * 512 ≤ x → b x = raw x := by
  have hpos := h.pos
  have hlow : ∀ x < 8, raw x = buf x := fun x hx => (hraw x (by omega)).trans (h.armed_low hx)
  have hok : UsaOk n raw := h.congr hlow
  have hoff : usaOff raw = usaOff buf := (usa_congr hlow).1
  have hmag : read32 raw 0 = magic := (read32_congr fun x _ hx => hlow x (by omega)).trans hmagic
  have hhi := h.hi
  have htails : ∀ i ∈ List.range n, read16 raw (i * 512 + 510) = read16 raw (usaOff raw) := by
    intro i hi
    have hlt := List.mem_range.mp hi
    have htail : read16 raw (i * 512 + 510) = read16 (armed buf usn) (i * 512 + 510) := by
      exact read16_congr fun x _ hx => hraw x (lt_of_tail hlt hx)
    have husn : read16 raw (usaOff raw) = read16 (armed buf usn) (usaOff buf) := by
      rw [hoff]
      exact read16_congr fun x _ hx => hraw x (by omega)
    rw [htail, husn, h.armed_tail hlt, h.armed_usn]
  have hfix := hok.fixup_eq hmag
  rw [if_pos htails, hoff] at hfix
  refine ⟨_, hfix, ?_, ?_⟩
  · intro x hx hin
    have hsame : restored (usaOff buf) (List.range n) raw x =
        restored (usaOff buf) (List.range n) (armed buf usn) x := by
      unfold restored
      by_cases ht : 510 ≤ x % 512 ∧ x / 512 ∈ List.range n
      · have := List.mem_range.mp ht.2
        rw [if_pos ht, if_pos ht]
        exact hraw _ (by omega)
      · rw [if_neg ht, if_neg ht]
        exact hraw x hx
    exact hsame.trans (h.restored_armed hin)
  · intro x hx
    refine if_neg ?_
    rintro ⟨-, hm⟩
    have := List.mem_range.mp hm
    omega

theorem UsaOk.fixup_torn_none (h : UsaOk n buf) {k : Nat} (hk : 0 < k) (hkn : k < n) (hok : UsaOk n raw)
    (hb : ntFixup raw (n * 512) magic = some b) (hmagic : read32 raw 0 = magic)
    (hbuf : read32 buf 0 = magic)
    (hne : read16 raw (usaOff raw) ≠ usn.setWidth 16)
    (hraw : ∀ x, raw' x = if x < k * 512 then armed buf usn x else raw x) : ntFixup raw' (n * 512) magic = none := by
  have hlow : ∀ x < 8, raw' x = buf x := by
    intro x hx
    rw [hraw, if_pos (by omega)]
    exact h.armed_low hx
  have hmag : read32 raw' 0 = magic := (read32_congr fun x _ hx => hlow x (by omega)).trans hbuf
  have hhi := h.hi
  rw [hok.fixup_eq hmagic, Option.ite_none_right_eq_some] at hb
  have htail : read16 raw' (k * 512 + 510) = read16 raw (usaOff raw) := by
    have hsame : read16 raw' (k * 512 + 510) = read16 raw (k * 512 + 510) := by
      refine read16_congr fun x hx _ => ?_
      rw [hraw, if_neg (by omega)]
    exact hsame.trans (hb.1 k (List.mem_range.mpr hkn))
  have husn : read16 raw' (usaOff raw') = usn.setWidth 16 := by
    rw [(usa_congr hlow).1, ← h.armed_usn]
    refine read16_congr fun x _ hx => ?_
    rw [hraw, if_pos (by omega)]
  rw [(h.congr hlow).fixup_eq hmag]
  refine if_neg fun hall => hne ?_
  have hat := hall k (List.mem_range.mpr hkn)
  rw [htail, husn] at hat
  exact hat

/-- The first `k` sectors of one buffer over those of another. The array of the first sector comes with them, and so do
the ends of all sectors, which are restored from it. -/
def torn (n k : Nat) (old new : Mem) : Mem := fun x =>
  if x < k * 512 ∨ 510 ≤ x % 512 ∧ x / 512 < n then new x else old x

theorem UsaOk.fixup_torn_some (h : UsaOk n buf) {k : Nat} (hk : 0 < k) (hkn : k ≤ n) (hok : UsaOk n raw)
    (hb : ntFixup raw (n * 512) magic = some b) (hmagic : read32 raw 0 = magic)
    (hbuf : read32 buf 0 = magic)
    (heq : read16 raw (usaOff raw) = usn.setWidth 16)
    (hraw : ∀ x, raw' x = if x < k * 512 then armed buf usn x else raw x) :
    ∃ b', ntFixup raw' (n * 512) magic = some b' ∧
      (∀ x, ¬ InUsa buf x → b' x = torn n k b buf x) ∧ ∀ x, n * 512 ≤ x → b' x = raw x := by
  have hlow : ∀ x < 8, raw' x = buf x := by
    intro x hx
    rw [hraw, if_pos (by omega)]
    exact h.armed_low hx
  have hmag : read32 raw' 0 = magic := (read32_congr fun x _ hx => hlow x (by omega)).trans hbuf
  have hoff' : usaOff raw' = usaOff buf := (usa_congr hlow).1
  have hhi := h.hi
  have happly : ∀ {x}, x % 512 < 510 ∨ n * 512 ≤ x → b x = raw x := hok.fixup_apply hmagic hb
  rw [hok.fixup_eq hmagic, Option.ite_none_right_eq_some] at hb
  have husn : read16 raw' (usaOff raw') = usn.setWidth 16 := by
    rw [hoff', ← h.armed_usn]
    refine read16_congr fun x _ hx => ?_
    rw [hraw, if_pos (by omega)]
  have htails : ∀ i ∈ List.range n, read16 raw' (i * 512 + 510) = read16 raw' (usaOff raw') := by
    intro i hi
    rw [husn]
    by_cases hik : i < k
    · rw [← h.armed_tail (List.mem_range.mp hi)]
      refine read16_congr fun x _ hx => ?_
      rw [hraw, if_pos (lt_of_tail hik hx)]
    · have hsame : read16 raw' (i * 512 + 510) = read16 raw (i * 512 + 510) := by
        refine read16_congr fun x hx _ => ?_
        rw [hraw, if_neg (by omega)]
      rw [hsame, hb.1 i hi, heq]
  have hfix := (h.congr hlow).fixup_eq hmag
  rw [if_pos htails, hoff'] at hfix
  refine ⟨_, hfix, ?_, ?_⟩
  · intro x hin
    have hback : restored (usaOff buf) (List.range n) (armed buf usn) x = buf x := h.restored_armed hin
    unfold restored at hback ⊢
    by_cases ht : 510 ≤ x % 512 ∧ x / 512 ∈ List.range n
    · have hlt := List.mem_range.mp ht.2
      rw [if_pos ht] at hback ⊢
      rw [hraw, if_pos (by omega), torn, if_pos (Or.inr ⟨ht.1, hlt⟩)]
      exact hback
    · have hno : ¬ (510 ≤ x % 512 ∧ x / 512 < n) := fun h => ht ⟨h.1, List.mem_range.mpr h.2⟩
      rw [if_neg ht] at hback ⊢
      rw [hraw, torn]
      by_cases hxk : x < k * 512
      · rw [if_pos hxk, if_pos (Or.inl hxk)]
        exact hback
      · rw [if_neg hxk, if_neg fun h => h.elim hxk hno]
        refine (happly ?_).symm
        by_cases hx : x % 512 < 510
        · exact Or.inl hx
        · refine Or.inr (Nat.le_of_not_lt fun hlt => ht ⟨by omega, List.mem_range.mpr (by omega)⟩)
  · intro x hx
    have hno : ¬ (510 ≤ x % 512 ∧ x / 512 ∈ List.range n) := by
      rintro ⟨-, hm⟩
      have := List.mem_range.mp hm
      omega
    have hval : restored (usaOff buf) (List.range n) raw' x = raw' x := if_neg hno
    rw [hval, hraw, if_neg]
    have : k * 512 ≤ n * 512 := Nat.mul_le_mul_right 512 hkn
    omega

end Ezos.Ntfs
