import Ezos.Ntfs.Fixups

/-!
# Records on the disk

A record holds a buffer when reading it gives that buffer, but for the array of its update sequence and for the bytes
of a set `V`. A write that goes through leaves the record with the buffer written; one that is cut leaves a record that
cannot be read, or one whose bytes are each of the old or of the new one.
-/

namespace Ezos.Ntfs

open Lib.Memory Lib.FaultyStore

set_option autoImplicit false

def secWrites (lbas : List U32) (buf : Mem) (k : Nat) : List (U32 × Mem) :=
  (lbas.zipIdx k).map fun p => (p.1, fun i => buf (p.2 * 512 + i))

variable {m : Mnt} {disk disk' : Device} {lbas : List U32} {buf b old O : Mem} {no : U32} {k : Nat}

theorem length_secWrites : (secWrites lbas buf k).length = lbas.length := by
  rw [secWrites, List.length_map, List.length_zipIdx]

theorem map_fst_secWrites : (secWrites lbas buf k).map Prod.fst = lbas := by
  have hfst : (Prod.fst ∘ fun p : U32 × Nat => (p.1, fun i => buf (p.2 * 512 + i))) = Prod.fst := rfl
  rw [secWrites, List.map_map, hfst, List.zipIdx_map_fst]

theorem writeSecs_eq {lba : Nat → Option U32} (h : ∀ i, ∀ hi : i < lbas.length, lba (k + i) = some lbas[i])
    (dev : Store U32 Mem) :
    writeSecs lba buf (List.range' k lbas.length) dev = dev.writeAll (secWrites lbas buf k) := by
  induction lbas generalizing k dev with
  | nil => rfl
  | cons a lbas ih =>
    have h0 : lba k = some a := h 0 (Nat.succ_pos _)
    have hrest : ∀ i, ∀ hi : i < lbas.length, lba (k + 1 + i) = some lbas[i] := by
      intro i hi
      have hat := h (i + 1) (Nat.succ_lt_succ hi)
      rw [Nat.add_assoc, Nat.add_comm 1 i]
      exact hat
    have hcons : secWrites (a :: lbas) buf k = (a, fun i => buf (k * 512 + i)) :: secWrites lbas buf (k + 1) := by
      rw [secWrites, List.zipIdx_cons, List.map_cons]
      rfl
    rw [List.length_cons, List.range'_succ, writeSecs, h0, hcons, Store.writeAll]
    dsimp only
    cases hw : dev.write a fun i => buf (k * 512 + i) with
    | mk ok dev' =>
      cases ok with
      | false => rfl
      | true => exact ih hrest dev'

theorem gather_put_take (hnd : lbas.Nodup) (k : Nat) (hk : k ≤ lbas.length) (x : Nat) :
    gather (put ((secWrites lbas buf 0).take k) disk) lbas old x =
      if x < k * 512 then buf x else gather disk lbas old x := by
  have hfst : ((secWrites lbas buf 0).take k).map Prod.fst = lbas.take k := by
    rw [List.map_take, map_fst_secWrites]
  unfold gather
  by_cases hx : x / 512 < lbas.length
  · rw [List.getElem?_eq_getElem hx]
    dsimp only
    by_cases hxk : x < k * 512
    · have hik : x / 512 < k := by omega
      have hmem : (lbas[x / 512], fun i => buf (x / 512 * 512 + i)) ∈ (secWrites lbas buf 0).take k := by
        rw [secWrites, ← List.map_take]
        refine List.mem_map.mpr ⟨(lbas[x / 512], x / 512), ?_, rfl⟩
        rw [List.mem_take_iff_getElem]
        refine ⟨x / 512, ?_, ?_⟩
        · rw [List.length_zipIdx]
          omega
        · rw [List.getElem_zipIdx, Nat.zero_add]
      have hput := put_of_mem (by rw [hfst]; exact hnd.sublist (List.take_sublist k lbas)) hmem disk
      have hback : x / 512 * 512 + x % 512 = x := by omega
      rw [if_pos hxk]
      dsimp only at hput
      rw [hput]
      exact congrArg buf hback
    · rw [if_neg hxk]
      refine congrFun (put_of_notMem ?_ disk) _
      rw [hfst]
      intro hmem
      obtain ⟨j, hj, he⟩ := List.mem_take_iff_getElem.mp hmem
      have hij : j = x / 512 := (List.Nodup.getElem_inj_iff hnd).mp he
      omega
  · rw [List.getElem?_eq_none (Nat.le_of_not_lt hx)]
    rw [if_neg (by omega)]

theorem gather_congr (h : ∀ a ∈ lbas, disk' a = disk a) : gather disk' lbas old = gather disk lbas old := by
  funext x
  unfold gather
  by_cases hx : x / 512 < lbas.length
  · rw [List.getElem?_eq_getElem hx]
    exact congrFun (h _ (List.getElem_mem hx)) _
  · rw [List.getElem?_eq_none (Nat.le_of_not_lt hx)]

theorem gather_old {x : Nat} (hx : lbas.length * 512 ≤ x) : gather disk lbas old x = old x := by
  unfold gather
  rw [List.getElem?_eq_none (by omega)]

theorem gather_congr_old {old' : Mem} (h : ∀ x, lbas.length * 512 ≤ x → old' x = old x) :
    gather disk lbas old' = gather disk lbas old := by
  funext x
  unfold gather
  by_cases hx : x / 512 < lbas.length
  · rw [List.getElem?_eq_getElem hx]
  · rw [List.getElem?_eq_none (Nat.le_of_not_lt hx)]
    exact h x (by omega)

structure Placed (m : Mnt) (no : U32) (lbas : List U32) : Prop where
  sectors : (List.range m.recSecs).map (m.recLba no) = lbas.map some
  nodup : lbas.Nodup

theorem mapM_eq_some_iff {α β : Type} {f : α → Option β} {l : List α} {r : List β} :
    l.mapM f = some r ↔ l.map f = r.map some := by
  induction l generalizing r with
  | nil => cases r <;> simp
  | cons a l ih => cases r <;> simp [List.mapM_cons, Option.bind_eq_some_iff, ih]

theorem Placed.length_eq (h : Placed m no lbas) : lbas.length = m.recSecs := by
  have hlen := congrArg List.length h.sectors
  rw [List.length_map, List.length_map, List.length_range] at hlen
  exact hlen.symm

theorem Placed.readRecord (h : Placed m no lbas) (disk : Device) (buf : Mem) :
    ntReadRecord m disk no buf = ntFixup (gather disk lbas buf) m.recBytes fileMagic := by
  rw [ntReadRecord, mapM_eq_some_iff.mpr h.sectors]

structure RecOk (m : Mnt) (rec : Mem) : Prop where
  usa : UsaOk m.recSecs rec
  magic : read32 rec 0 = fileMagic

theorem RecOk.congr {rec rec' : Mem} (h : RecOk m rec) (hlow : ∀ x < 8, rec' x = rec x) : RecOk m rec' :=
  ⟨h.usa.congr hlow, (read32_congr fun x _ hx => hlow x (by omega)).trans h.magic⟩

theorem Placed.writeRecord (h : Placed m no lbas) (g : m.Geometry) (hbuf : RecOk m buf) (st : St) :
    ntWriteRecord m st no buf =
      ((st.dev.writeAll (secWrites lbas (armed buf (st.usn + 1)) 0)).1, armed buf (st.usn + 1),
        { dev := (st.dev.writeAll (secWrites lbas (armed buf (st.usn + 1)) 0)).2, usn := st.usn + 1 }) := by
  have hcount : ¬ (usaCount buf = 0 ∨ (usaCount buf - 1) * 512 ≠ m.recBytes) := by
    rw [hbuf.usa.count, g.record]
    omega
  have hlba : ∀ i, ∀ hi : i < lbas.length, m.recLba no (0 + i) = some lbas[i] := by
    intro i hi
    have hrange : i < ((List.range m.recSecs).map (m.recLba no)).length := by
      rw [List.length_map, List.length_range, ← h.length_eq]
      exact hi
    have hat := List.getElem_of_eq h.sectors hrange
    rw [List.getElem_map, List.getElem_map, List.getElem_range] at hat
    rw [Nat.zero_add]
    exact hat
  have hsecs : writeSecs (m.recLba no) (armed buf (st.usn + 1)) (List.range' 0 lbas.length) st.dev =
      st.dev.writeAll (secWrites lbas (armed buf (st.usn + 1)) 0) := writeSecs_eq hlba st.dev
  rw [h.length_eq, ← List.range_eq_range'] at hsecs
  unfold ntWriteRecord
  rw [if_neg (not_not.mpr hbuf.magic)]
  dsimp only
  rw [if_neg hcount]
  exact congrArg (fun r : Bool × Store U32 Mem => (r.1, armed buf (st.usn + 1), (⟨r.2, st.usn + 1⟩ : St))) hsecs

/-! ## What a record holds -/

def Behind (m : Mnt) (O buf : Mem) : Prop := ∀ x, m.recBytes ≤ x → buf x = O x

def Exactly (m : Mnt) (disk : Device) (no : U32) (O : Mem) : Prop :=
  ∀ buf, Behind m O buf → ntReadRecord m disk no buf = some O

def Holds (m : Mnt) (disk : Device) (no : U32) (V : Nat → Prop) (O : Mem) : Prop :=
  ∀ buf, Behind m O buf → ∃ b, ntReadRecord m disk no buf = some b ∧ ∀ x, ¬ InUsa O x → ¬ V x → b x = O x

def Lost (m : Mnt) (disk : Device) (no : U32) (O : Mem) : Prop :=
  ∀ buf, Behind m O buf → ntReadRecord m disk no buf = none

def Nowhere : Nat → Prop := fun _ => False

variable {V : Nat → Prop} {usn : U32}

theorem Exactly.holds (h : Exactly m disk no O) : Holds m disk no V O :=
  fun buf hbuf => ⟨O, h buf hbuf, fun _ _ _ => rfl⟩

theorem Placed.readRecord_congr (h : Placed m no lbas) (hd : ∀ a ∈ lbas, disk' a = disk a) (buf : Mem) :
    ntReadRecord m disk' no buf = ntReadRecord m disk no buf := by
  rw [h.readRecord, h.readRecord, gather_congr hd]

theorem Placed.holds_congr (h : Placed m no lbas) (hd : ∀ a ∈ lbas, disk' a = disk a) (hh : Holds m disk no V O) :
    Holds m disk' no V O := by
  intro buf hbuf
  rw [h.readRecord_congr hd]
  exact hh buf hbuf

theorem Placed.exactly_congr (h : Placed m no lbas) (hd : ∀ a ∈ lbas, disk' a = disk a) (hh : Exactly m disk no O) :
    Exactly m disk' no O :=
  fun buf hbuf => (h.readRecord_congr hd buf).trans (hh buf hbuf)

theorem Placed.lost_congr (h : Placed m no lbas) (hd : ∀ a ∈ lbas, disk' a = disk a) (hu : Lost m disk no O) :
    Lost m disk' no O :=
  fun buf hbuf => (h.readRecord_congr hd buf).trans (hu buf hbuf)

theorem Placed.behind_of_read (h : Placed m no lbas) (g : m.Geometry) (hb : ntReadRecord m disk no old = some b)
    (hok : RecOk m b) : Behind m b old := by
  rw [h.readRecord, g.record] at hb
  obtain ⟨hmagic, hlow⟩ := ntFixup_some hb
  have hraw : UsaOk m.recSecs (gather disk lbas old) := hok.usa.congr fun x hx => (hlow x (by omega)).symm
  intro x hx
  rw [g.record] at hx
  rw [hraw.fixup_apply hmagic hb (Or.inr hx), gather_old (by rw [h.length_eq]; exact hx)]

theorem Placed.exactly_of_read (h : Placed m no lbas) (g : m.Geometry) (hb : ntReadRecord m disk no old = some b)
    (hok : RecOk m b) : Exactly m disk no b := by
  intro buf hbuf
  have hold := h.behind_of_read g hb hok
  have hsame : gather disk lbas buf = gather disk lbas old := by
    refine gather_congr_old fun x hx => ?_
    rw [h.length_eq, ← g.record] at hx
    exact (hbuf x hx).trans (hold x hx).symm
  rw [h.readRecord] at hb ⊢
  rw [hsame]
  exact hb

theorem put_secWrites_other {a : U32} (h : a ∉ lbas) : put (secWrites lbas buf k) disk a = disk a :=
  put_of_notMem (by rw [map_fst_secWrites]; exact h) disk

theorem put_take_secWrites_other {a : U32} {j : Nat} (h : a ∉ lbas) :
    put ((secWrites lbas buf k).take j) disk a = disk a := by
  refine put_of_notMem (fun hm => h ?_) disk
  rw [List.map_take, map_fst_secWrites] at hm
  exact List.mem_of_mem_take hm

theorem Placed.holds_put (h : Placed m no lbas) (g : m.Geometry) (hO : RecOk m O)
    (hbuf : ∀ x < m.recBytes, buf x = O x) (usn : U32) (disk : Device) :
    Holds m (put (secWrites lbas (armed buf usn) 0) disk) no Nowhere O := by
  intro old hold
  have hall : (secWrites lbas (armed buf usn) 0).take lbas.length = secWrites lbas (armed buf usn) 0 :=
    List.take_of_length_le (Nat.le_of_eq length_secWrites)
  have hraw : ∀ x, gather (put ((secWrites lbas (armed buf usn) 0).take lbas.length) disk) lbas old x =
      if x < lbas.length * 512 then armed buf usn x else gather disk lbas old x :=
    gather_put_take h.nodup lbas.length (Nat.le_refl _)
  rw [hall, h.length_eq] at hraw
  rw [g.record] at hbuf
  obtain ⟨b, hb, hlow, hhigh⟩ := hO.usa.fixup_armed hO.magic fun x hx =>
    ((hraw x).trans (if_pos hx)).trans (hO.usa.armed_congr hbuf hx)
  rw [← g.record, ← h.readRecord] at hb
  refine ⟨b, hb, fun x hin _ => ?_⟩
  by_cases hx : x < m.recSecs * 512
  · exact hlow x hx hin
  · have hge := Nat.le_of_not_lt hx
    rw [hhigh x hge, hraw, if_neg hx, gather_old (by rw [h.length_eq]; exact hge)]
    exact hold x (by rw [g.record]; exact hge)

def recUsn (rec : Mem) : U16 := read16 rec (usaOff rec)

theorem Placed.raw_of_read (h : Placed m no lbas) (hO : RecOk m b) (hb : ntReadRecord m disk no old = some b) :
    RecOk m (gather disk lbas old) ∧ read16 (gather disk lbas old) (usaOff (gather disk lbas old)) = recUsn b := by
  rw [h.readRecord] at hb
  obtain ⟨-, hlow⟩ := ntFixup_some hb
  have hok := hO.congr fun x hx => (hlow x (by omega)).symm
  have hoff : usaOff b = usaOff (gather disk lbas old) := (usa_congr fun x hx => hlow x (by omega)).1
  refine ⟨hok, ?_⟩
  rw [recUsn, hoff]
  have hhi := hok.usa.hi
  refine (read16_congr fun x _ hx => hlow x ?_).symm
  omega

structure Differs (V : Nat → Prop) (O buf : Mem) : Prop where
  behind : ∀ x, V x → 0x28 ≤ x
  same : ∀ x, ¬ InUsa O x → ¬ V x → buf x = O x

theorem Differs.low (h : Differs V O buf) {n : Nat} (hO : UsaOk n O) {x : Nat} (hx : x < 0x28) : buf x = O x :=
  h.same x (hO.not_inUsa (Or.inl hx)) fun hv => Nat.not_le_of_lt hx (h.behind x hv)

theorem Differs.inUsa (h : Differs V O buf) {n : Nat} (hO : UsaOk n O) {x : Nat} : InUsa buf x ↔ InUsa O x := by
  obtain ⟨hoff, hcount⟩ := usa_congr fun x hx => h.low hO (show x < 0x28 by omega)
  unfold InUsa
  rw [hoff, hcount]

theorem Holds.differs (h : Holds m disk no Nowhere buf) (hbuf : Differs V O buf) (hO : RecOk m O)
    (hbehind : Behind m O buf) : Holds m disk no V O := by
  intro old hold
  obtain ⟨b, hb, hsame⟩ := h old fun x hx => (hold x hx).trans (hbehind x hx).symm
  refine ⟨b, hb, fun x hin hv => ?_⟩
  rw [hsame x (fun hx => hin ((hbuf.inUsa hO.usa).mp hx)) id]
  exact hbuf.same x hin hv

theorem Placed.gather_torn (h : Placed m no lbas) {k : Nat} (hk : k < m.recSecs) (x : Nat) :
    gather (put ((secWrites lbas buf 0).take k) disk) lbas old x =
      if x < k * 512 then buf x else gather disk lbas old x :=
  gather_put_take h.nodup k (by rw [h.length_eq]; exact Nat.le_of_lt hk) x

theorem Placed.holds_torn (h : Placed m no lbas) (g : m.Geometry) (hO : RecOk m O) (hbuf : Differs V O buf)
    (hh : Exactly m disk no O) {k : Nat} (hk : k < m.recSecs) (heq : k = 0 ∨ recUsn O = usn.setWidth 16) :
    Holds m (put ((secWrites lbas (armed buf usn) 0).take k) disk) no V O := by
  by_cases hk0 : k = 0
  · subst hk0
    exact hh.holds
  · intro old hold
    have hb := hh old hold
    obtain ⟨hraw, husn⟩ := h.raw_of_read hO hb
    rw [h.readRecord, g.record] at hb
    have hok := hO.congr fun x hx => hbuf.low hO.usa (show x < 0x28 by omega)
    obtain ⟨b', hb', hsame, -⟩ := hok.usa.fixup_torn_some (Nat.pos_of_ne_zero hk0) (Nat.le_of_lt hk) hraw.usa hb hraw.magic
      hok.magic (husn.trans (heq.resolve_left hk0)) (h.gather_torn hk)
    refine ⟨b', ?_, fun x hin hv => ?_⟩
    · rw [h.readRecord, g.record]
      exact hb'
    · rw [hsame x fun hx => hin ((hbuf.inUsa hO.usa).mp hx), torn]
      split
      · exact hbuf.same x hin hv
      · rfl

theorem Placed.lost_torn (h : Placed m no lbas) (g : m.Geometry) (hO : RecOk m O) (hbuf : Differs V O buf)
    (hh : Exactly m disk no O) {k : Nat} (hk : k < m.recSecs) (hk0 : 0 < k) (hne : recUsn O ≠ usn.setWidth 16) :
    Lost m (put ((secWrites lbas (armed buf usn) 0).take k) disk) no O := by
  intro old hold
  have hb := hh old hold
  obtain ⟨hraw, husn⟩ := h.raw_of_read hO hb
  rw [h.readRecord, g.record] at hb
  have hok := hO.congr fun x hx => hbuf.low hO.usa (show x < 0x28 by omega)
  rw [h.readRecord, g.record]
  exact hok.usa.fixup_torn_none hk0 hk hraw.usa hb hraw.magic hok.magic
    (fun he => hne (husn.symm.trans he)) (h.gather_torn hk)

theorem writeSecs_other {lba : Nat → Option U32} {a : U32} {l : List Nat} (h : ∀ s ∈ l, lba s ≠ some a)
    (dev : Store U32 Mem) : (writeSecs lba buf l dev).2.cells a = dev.cells a := by
  induction l generalizing dev with
  | nil => rfl
  | cons s l ih =>
    have hs := h s List.mem_cons_self
    have hrest := fun x hx => h x (List.mem_cons_of_mem s hx)
    rw [writeSecs]
    cases hl : lba s with
    | none => rfl
    | some b =>
      have hne : a ≠ b := fun he => hs (he ▸ hl)
      dsimp only
      cases hw : dev.write b fun i => buf (s * 512 + i) with
      | mk ok dev' =>
        have hcell : dev'.cells a = dev.cells a := by
          have he := congrArg Prod.snd hw
          dsimp only at he
          rw [← he, Store.write]
          cases dev.fault with
          | none => exact Function.update_of_ne hne _ _
          | some n =>
            cases n with
            | zero => rfl
            | succ n => exact Function.update_of_ne hne _ _
        cases ok with
        | false => exact hcell
        | true => exact (ih hrest dev').trans hcell

theorem Placed.write_other (h : Placed m no lbas) (st : St) (buf : Mem) {a : U32} (ha : a ∉ lbas) :
    (ntWriteRecord m st no buf).2.2.dev.cells a = st.dev.cells a := by
  unfold ntWriteRecord
  split
  · rfl
  · dsimp only
    split
    · rfl
    · refine writeSecs_other (fun s hs he => ha ?_) st.dev
      have hmem : m.recLba no s ∈ (List.range m.recSecs).map (m.recLba no) := List.mem_map_of_mem hs
      rw [h.sectors, he] at hmem
      obtain ⟨b, hb, hbe⟩ := List.mem_map.mp hmem
      injection hbe with hbe
      exact hbe ▸ hb

def Passes (st : St) (n : Nat) : Prop := ∀ k, st.dev.fault = some k → n ≤ k

def written (st : St) (lbas : List U32) (buf : Mem) : St :=
  { dev :=
      { cells := put (secWrites lbas (armed buf (st.usn + 1)) 0) st.dev.cells
        fault := st.dev.fault.map (· - lbas.length) }
    usn := st.usn + 1 }

def cutAt (st : St) (lbas : List U32) (buf : Mem) (k : Nat) : St :=
  { dev :=
      { cells := put ((secWrites lbas (armed buf (st.usn + 1)) 0).take k) st.dev.cells
        fault := none }
    usn := st.usn + 1 }

variable {st : St}

theorem Placed.write_ok (h : Placed m no lbas) (g : m.Geometry) (hbuf : RecOk m buf) (hp : Passes st m.recSecs) :
    ntWriteRecord m st no buf = (true, armed buf (st.usn + 1), written st lbas buf) := by
  have hlen : ∀ k, st.dev.fault = some k → (secWrites lbas (armed buf (st.usn + 1)) 0).length ≤ k := by
    intro k hk
    rw [length_secWrites, h.length_eq]
    exact hp k hk
  rw [h.writeRecord g hbuf, Store.writeAll_ok hlen, length_secWrites]
  rfl

theorem Placed.write_cut (h : Placed m no lbas) (g : m.Geometry) (hbuf : RecOk m buf) {k : Nat}
    (hf : st.dev.fault = some k) (hk : k < m.recSecs) :
    ntWriteRecord m st no buf = (false, armed buf (st.usn + 1), cutAt st lbas buf k) := by
  have hlen : k < (secWrites lbas (armed buf (st.usn + 1)) 0).length := by
    rw [length_secWrites, h.length_eq]
    exact hk
  rw [h.writeRecord g hbuf, Store.writeAll_torn hf hlen]
  rfl

theorem Passes.written {n : Nat} (hp : Passes st (lbas.length + n)) : Passes (written st lbas buf) n := by
  intro k hk
  obtain ⟨j, hj, he⟩ := Option.map_eq_some_iff.mp hk
  have := hp j hj
  omega

end Ezos.Ntfs
