import Ezos.Fat.Entries
import Ezos.Lib.Run

/-!
# Runs of reads and writes of FAT entries

The cache holds what the device holds, as long as no write fails and no load fails after its first block; and a write
goes where it should, as long as the bytes of its entry lie on the device where no other byte of the FAT does. The
driver steps from sector to sector by one block of 512 bytes, so larger sectors lie on one another.
-/

namespace Ezos.Fat

open Lib Lib.Memory Lib.BlockMoves

set_option autoImplicit false

variable {fi : FatInfo} {s s' : Codec} {d d' : Dev} {buf : Mem} {ps : List (U32 × Nat)} {n n' v : U32} {k : Kind}
  {i j o o' : Nat} {disk : Disk}

def Dev.Answers (d : Dev) (n : Nat) : Prop := ∀ i < n, d.replies (d.asked.length + i) = .done

theorem answers_succ {n : Nat} {lba : U32} : d.Answers (n + 1) ↔
    d.reply = .done ∧ ({ d with asked := lba :: d.asked } : Dev).Answers n := by
  unfold Dev.Answers Dev.reply
  rw [List.length_cons]
  constructor
  · refine fun h => ⟨h 0 (by omega), fun i hi => ?_⟩
    have hnext := h (i + 1) (by omega)
    rwa [Nat.add_comm i 1, ← Nat.add_assoc] at hnext
  · rintro ⟨hzero, h⟩ i hi
    cases i with
    | zero => exact hzero
    | succ i =>
      have hnext := h i (by omega)
      rwa [Nat.add_assoc, Nat.add_comm 1 i] at hnext

theorem readParts_answered (h : d.Answers ps.length) : readParts ps d buf =
    (true, { d with asked := (ps.map Prod.fst).reverse ++ d.asked }, fetch 512 d.disk ps buf) := by
  induction ps generalizing d buf with
  | nil => rfl
  | cons p ps ih =>
    obtain ⟨hdone, hrest⟩ := (@answers_succ d ps.length p.1).mp h
    unfold readParts Dev.ataReadSector
    rw [if_pos hdone]
    dsimp only
    rw [ih hrest, List.map_cons, List.reverse_cons, List.append_assoc]
    rfl

theorem readParts_failed (h : ¬ d.Answers ps.length) : ∃ d' buf', readParts ps d buf = (false, d', buf') ∧
    d'.disk = d.disk ∧ d'.replies = d.replies ∧ (d.reply ≠ .done → buf' = buf) := by
  induction ps generalizing d buf with
  | nil => exact absurd (fun i hi => absurd hi (Nat.not_lt_zero i)) h
  | cons p ps ih =>
    unfold readParts Dev.ataReadSector
    by_cases hdone : d.reply = .done
    · have hrest : ¬ ({ d with asked := p.1 :: d.asked } : Dev).Answers ps.length :=
        fun hrest => h (answers_succ.mpr ⟨hdone, hrest⟩)
      rw [if_pos hdone]
      dsimp only
      obtain ⟨d', buf', heq, hdisk, hreplies, -⟩ := @ih _ (copyIn buf p.2 512 (d.disk p.1)) hrest
      exact ⟨d', buf', heq, hdisk, hreplies, fun hno => absurd hdone hno⟩
    · rw [if_neg hdone]
      exact ⟨_, buf, rfl, rfl, rfl, fun _ => rfl⟩

theorem writeParts_answered (h : d.Answers ps.length) : writeParts buf ps d =
    (true, { d with disk := flush buf ps d.disk, asked := (ps.map Prod.fst).reverse ++ d.asked }) := by
  induction ps generalizing d with
  | nil => rfl
  | cons p ps ih =>
    obtain ⟨hdone, hrest⟩ := (@answers_succ d ps.length p.1).mp h
    have hrefused : ¬ d.reply = .refused := by
      rw [hdone]
      decide
    unfold writeParts Dev.ataWriteSector
    rw [decide_eq_true hdone, if_neg hrefused]
    dsimp only
    rw [@ih { d with disk := Fat.ataWriteSector d.disk p.1 fun x => buf (p.2 + x), asked := p.1 :: d.asked } hrest,
      List.map_cons, List.reverse_cons, List.append_assoc]
    have hsame : Fat.ataWriteSector d.disk p.1 (fun x => buf (p.2 + x)) = Function.update d.disk p.1 fun x => buf (p.2 + x) := by
      funext l
      unfold Fat.ataWriteSector Function.update
      by_cases hl : l = p.1
      · rw [if_pos hl, dif_pos hl]
        subst hl
        rfl
      · rw [if_neg hl, dif_neg hl]
    rw [hsame]
    rfl

structure FatInfo.Formed (fi : FatInfo) : Prop where
  size : fi.bytesPerSector ∈ sectorSizes
  few : match fi.kind with
    | .fat12 => fi.clusterCount.toNat < 4085
    | .fat16 => fi.clusterCount.toNat < 65525
    | .fat32 => fi.clusterCount.toNat + 2 < 2 ^ 32

def FatInfo.Short (fi : FatInfo) : Prop := fi.kind = .fat32 → fi.clusterCount.toNat + 2 ≤ 2 ^ 30

def FatInfo.bps (fi : FatInfo) : Nat := fi.bytesPerSector.toNat

def FatInfo.fat (fi : FatInfo) (disk : Disk) : Nat → Byte := disk.fatBytes (fi.partStart + fi.reservedSectors) fi.bps

def FatInfo.place (fi : FatInfo) (o : Nat) : Nat × Nat := (o / fi.bps + o % fi.bps / 512, o % 512)

def Codec.entry (fi : FatInfo) (s : Codec) (n : U32) : Nat := entryAt fi.kind (fi.fat s.dev.disk) n.toNat

def FatInfo.sectors (fi : FatInfo) : Nat :=
  (fi.kind.offset (fi.clusterCount.toNat + 1) + fi.kind.len.toNat + fi.bps - 1) / fi.bps

def FatInfo.Alone (fi : FatInfo) (n : U32) : Prop :=
  ∀ o o', fi.kind.offset n.toNat ≤ o → o < fi.kind.offset n.toNat + fi.kind.len.toNat → o' < fi.sectors * fi.bps →
    fi.place o' = fi.place o → o' = o

theorem FatInfo.Formed.bps_eq (h : fi.Formed) : ∃ r, fi.bps = r * 512 ∧ 1 ≤ r ∧ r ≤ 8 ∧ (fi.bytesPerSector / 512).toNat = r := by
  have hsize := h.size
  unfold sectorSizes at hsize
  unfold FatInfo.bps
  simp only [List.mem_cons, List.not_mem_nil, or_false] at hsize
  rcases hsize with heq | heq | heq | heq
  · exact ⟨1, by rw [heq]; rfl, by omega, by omega, by rw [heq]; rfl⟩
  · exact ⟨2, by rw [heq]; rfl, by omega, by omega, by rw [heq]; rfl⟩
  · exact ⟨4, by rw [heq]; rfl, by omega, by omega, by rw [heq]; rfl⟩
  · exact ⟨8, by rw [heq]; rfl, by omega, by omega, by rw [heq]; rfl⟩

theorem FatInfo.Formed.bps_pos (h : fi.Formed) : 0 < fi.bps := by
  obtain ⟨r, hr, hpos, -⟩ := h.bps_eq
  omega

theorem fat_eq (h : fi.Formed) : fi.fat disk o =
    disk (fi.partStart + fi.reservedSectors + BitVec.ofNat 32 (fi.place o).1) (fi.place o).2 := by
  obtain ⟨r, hr, -⟩ := h.bps_eq
  have hdvd : 512 ∣ fi.bps := ⟨r, by rw [hr, Nat.mul_comm]⟩
  unfold FatInfo.fat Disk.fatBytes Disk.byte FatInfo.place
  rw [BitVec.add_assoc, ← BitVec.ofNat_add, Nat.mod_mod_of_dvd o hdvd]

theorem alone_of_small (hs : fi.bytesPerSector = 512) : fi.Alone n := by
  have hbps : fi.bps = 512 := by
    unfold FatInfo.bps
    rw [hs]
    rfl
  intro o o' _ _ _ heq
  unfold FatInfo.place at heq
  rw [hbps, Prod.mk.injEq] at heq
  omega

theorem mem_parts {sec : U32} {p : U32 × Nat} {r n : Nat} (hr : (fi.bytesPerSector / 512).toNat = r) :
    p ∈ fi.parts sec n ↔ ∃ i j, i < n ∧ j < r ∧
      p = (fi.partStart + (sec + BitVec.ofNat 32 i) + BitVec.ofNat 32 j, i * fi.bps + j * 512) := by
  unfold FatInfo.parts FatInfo.volParts FatInfo.bps
  simp only [List.mem_flatMap, List.mem_map, List.mem_range, hr]
  constructor
  · rintro ⟨i, hi, j, hj, rfl⟩
    exact ⟨i, j, hi, hj, rfl⟩
  · rintro ⟨i, j, hi, hj, rfl⟩
    exact ⟨i, hi, j, hj, rfl⟩

theorem parts_length {sec : U32} {r n : Nat} (hr : (fi.bytesPerSector / 512).toNat = r) :
    (fi.parts sec n).length = n * r := by
  unfold FatInfo.parts FatInfo.volParts
  rw [hr]
  induction n with
  | zero => rw [List.range_zero, List.flatMap_nil, List.length_nil, Nat.zero_mul]
  | succ n ih =>
    rw [List.range_succ, List.flatMap_append, List.length_append, ih, List.flatMap_cons, List.flatMap_nil, List.append_nil,
      List.length_map, List.length_range, Nat.succ_mul]

theorem part_lba {j i t : Nat} : fi.partStart + (fi.reservedSectors + BitVec.ofNat 32 j + BitVec.ofNat 32 i) + BitVec.ofNat 32 t =
    fi.partStart + fi.reservedSectors + BitVec.ofNat 32 (j + i + t) := by
  rw [BitVec.ofNat_add, BitVec.ofNat_add, BitVec.add_assoc, BitVec.add_assoc, BitVec.add_assoc, BitVec.add_assoc,
    BitVec.add_assoc]

theorem place_window {r t x : Nat} (hr : fi.bps = r * 512) (ht : t < r) (hx : x < 512) :
    fi.place (j * fi.bps + (i * fi.bps + t * 512 + x)) = (j + i + t, x) := by
  have hlt : t * 512 + x < fi.bps := by omega
  have hpos : 0 < fi.bps := by omega
  have hsum : j * fi.bps + (i * fi.bps + t * 512 + x) = (t * 512 + x) + (j + i) * fi.bps := by
    rw [Nat.add_mul]
    omega
  have hdiv : (j * fi.bps + (i * fi.bps + t * 512 + x)) / fi.bps = j + i := by
    rw [hsum, Nat.add_mul_div_right _ _ hpos, Nat.div_eq_of_lt hlt, Nat.zero_add]
  have hmod : (j * fi.bps + (i * fi.bps + t * 512 + x)) % fi.bps = t * 512 + x := by
    rw [hsum, Nat.add_mul_mod_self_right, Nat.mod_eq_of_lt hlt]
  have hlow : (j * fi.bps + (i * fi.bps + t * 512 + x)) % 512 = x := by
    have hdvd : 512 ∣ fi.bps := ⟨r, by rw [hr, Nat.mul_comm]⟩
    rw [← Nat.mod_mod_of_dvd _ hdvd, hmod]
    omega
  unfold FatInfo.place
  rw [hdiv, hmod, hlow, Prod.mk.injEq]
  omega

theorem window_split {r N : Nat} (hr : fi.bps = r * 512) (hi : i < N * fi.bps) :
    ∃ a t x, a < N ∧ t < r ∧ x < 512 ∧ i = a * fi.bps + t * 512 + x := by
  have hpos : 0 < fi.bps := by
    rcases Nat.eq_zero_or_pos fi.bps with hzero | hpos
    · rw [hzero, Nat.mul_zero] at hi
      omega
    · exact hpos
  have hmod := Nat.mod_lt i hpos
  have hdiv := Nat.div_add_mod i fi.bps
  rw [Nat.mul_comm] at hdiv
  refine ⟨i / fi.bps, i % fi.bps / 512, i % 512, (Nat.div_lt_iff_lt_mul hpos).mpr hi, by omega, by omega, ?_⟩
  have hdvd : 512 ∣ fi.bps := ⟨r, by rw [hr, Nat.mul_comm]⟩
  have hlow := Nat.mod_mod_of_dvd i hdvd
  omega

theorem fetch_window {N : Nat} (h : fi.Formed) (hi : i < N * fi.bps) :
    fetch 512 disk (fi.parts (fi.reservedSectors + BitVec.ofNat 32 j) N) buf i = fi.fat disk (j * fi.bps + i) := by
  obtain ⟨r, hr, -, -, hr'⟩ := h.bps_eq
  obtain ⟨a, t, x, ha, ht, hx, rfl⟩ := window_split hr hi
  rw [fat_eq h, place_window hr ht hx, ← part_lba]
  refine fetch_at (p := (_, a * fi.bps + t * 512)) (fun q hq hlo hhi => ?_) (Or.inl ?_) hx
  · obtain ⟨a', t', -, ht', rfl⟩ := (mem_parts hr').mp hq
    dsimp only at hlo hhi
    have ha' : a' * fi.bps = a' * r * 512 := by rw [hr, Nat.mul_assoc]
    have haa : a * fi.bps = a * r * 512 := by rw [hr, Nat.mul_assoc]
    have hsum : a' * r + t' = a * r + t := by omega
    have hdiv : a' = a := by
      have hdiv : (a' * r + t') / r = (a * r + t) / r := by rw [hsum]
      rwa [Nat.mul_comm a' r, Nat.mul_comm a r, Nat.mul_add_div (by omega), Nat.mul_add_div (by omega), Nat.div_eq_of_lt ht,
        Nat.div_eq_of_lt ht', Nat.add_zero, Nat.add_zero] at hdiv
    subst hdiv
    have ht : t' = t := by omega
    rw [ht]
  · exact (mem_parts hr').mpr ⟨a, t, ha, ht, rfl⟩

def Codec.Held (fi : FatInfo) (s : Codec) : Prop := s.cacheN = 0 ∨ ∃ j, s.cacheSec = fi.reservedSectors + BitVec.ofNat 32 j ∧
  j + s.cacheN ≤ fi.sectors ∧ ∀ i < s.cacheN * fi.bps, s.cache i = fi.fat s.dev.disk (j * fi.bps + i)

structure Codec.Covers (fi : FatInfo) (s : Codec) (n : U32) (j : Nat) : Prop where
  sec : s.cacheSec = fi.reservedSectors + BitVec.ofNat 32 j
  first : fi.kind.offset n.toNat / fi.bps = j
  room : j + s.cacheN ≤ fi.sectors
  inside : fi.kind.offset n.toNat % fi.bps + fi.kind.len.toNat ≤ s.cacheN * fi.bps
  held : ∀ i < s.cacheN * fi.bps, s.cache i = fi.fat s.dev.disk (j * fi.bps + i)

theorem len_le (k : Kind) : 2 ≤ k.len.toNat ∧ k.len.toNat ≤ 4 := by
  cases k <;> decide

theorem offset_mono {a b : Nat} (h : a ≤ b) : k.offset a ≤ k.offset b := by
  unfold Kind.offset
  cases k <;> dsimp only <;> omega

theorem FatInfo.Formed.clusters_lt (h : fi.Formed) : fi.clusterCount.toNat + 2 < 2 ^ 32 := by
  have hfew := h.few
  cases hk : fi.kind <;> rw [hk] at hfew <;> dsimp only at hfew <;> omega

theorem accepted_lt (h : fi.Formed) (hn : ¬ fi.Refuses n) : 2 ≤ n.toNat ∧ n.toNat < fi.clusterCount.toNat + 2 := by
  have hlt := h.clusters_lt
  obtain ⟨hlow, hhigh⟩ := not_or.mp hn
  have hlow : 2 ≤ n.toNat := BitVec.not_lt.mp hlow
  have hhigh : n.toNat < (fi.clusterCount + 2).toNat := BitVec.not_le.mp hhigh
  have htwo : (2 : U32).toNat = 2 := rfl
  rw [BitVec.toNat_add, htwo, Nat.mod_eq_of_lt hlt] at hhigh
  exact ⟨hlow, hhigh⟩

theorem off_toNat (h : fi.Formed) (hs : fi.Short) (hn : ¬ fi.Refuses n) : (fi.kind.off n).toNat = fi.kind.offset n.toNat := by
  obtain ⟨-, hlt⟩ := accepted_lt h hn
  have hfew := h.few
  unfold FatInfo.Short at hs
  unfold Kind.off Kind.offset
  have htwo : (2 : U32).toNat = 2 := rfl
  have hfour : (4 : U32).toNat = 4 := rfl
  cases hk : fi.kind
  · rw [hk] at hfew
    dsimp only at hfew ⊢
    rw [BitVec.toNat_add, BitVec.toNat_udiv, htwo]
    omega
  · rw [hk] at hfew
    dsimp only at hfew ⊢
    rw [BitVec.toNat_mul, htwo]
    omega
  · have hs := hs hk
    dsimp only
    rw [BitVec.toNat_mul, hfour]
    omega

theorem accepted_room (h : fi.Formed) (hn : ¬ fi.Refuses n) :
    fi.kind.offset n.toNat + fi.kind.len.toNat ≤ fi.sectors * fi.bps := by
  have hpos := h.bps_pos
  obtain ⟨-, hlt⟩ := accepted_lt h hn
  have hmono := @offset_mono fi.kind n.toNat (fi.clusterCount.toNat + 1) (by omega)
  have hlast := Nat.lt_mul_div_succ (fi.kind.offset (fi.clusterCount.toNat + 1) + fi.kind.len.toNat + fi.bps - 1) hpos
  unfold FatInfo.sectors
  rw [Nat.mul_add, Nat.mul_one, Nat.mul_comm] at hlast
  omega

/-- The sectors that `fat_cache_load` wants for the entry at an offset. -/
def FatInfo.count (fi : FatInfo) (o : Nat) : Nat := (o % fi.bps + fi.kind.len.toNat + fi.bps - 1) / fi.bps

theorem count_bounds (h : fi.Formed) : 1 ≤ fi.count o ∧ fi.count o ≤ 2 ∧
    o % fi.bps + fi.kind.len.toNat ≤ fi.count o * fi.bps := by
  obtain ⟨r, hr, hpos, -⟩ := h.bps_eq
  obtain ⟨htwo, hfour⟩ := len_le fi.kind
  have hmod := Nat.mod_lt o h.bps_pos
  have hlast := Nat.lt_mul_div_succ (o % fi.bps + fi.kind.len.toNat + fi.bps - 1) h.bps_pos
  unfold FatInfo.count
  rw [Nat.mul_add, Nat.mul_one, Nat.mul_comm] at hlast
  refine ⟨(Nat.le_div_iff_mul_le h.bps_pos).mpr (by omega), ?_, by omega⟩
  rw [← Nat.lt_succ_iff, Nat.div_lt_iff_lt_mul h.bps_pos]
  omega

theorem count_room (h : fi.Formed) (ho : o + fi.kind.len.toNat ≤ fi.sectors * fi.bps) :
    o / fi.bps + fi.count o ≤ fi.sectors := by
  have hpos := h.bps_pos
  have hdiv := Nat.div_add_mod o fi.bps
  have hsum : o / fi.bps + fi.count o = (o + fi.kind.len.toNat + fi.bps - 1) / fi.bps := by
    unfold FatInfo.count
    rw [← Nat.mul_add_div hpos]
    congr 1
    omega
  rw [hsum, ← Nat.lt_succ_iff, Nat.div_lt_iff_lt_mul hpos, Nat.succ_mul]
  omega

theorem sectors_lt (h : fi.Formed) : fi.sectors + 8 < 2 ^ 32 := by
  obtain ⟨r, hr, hpos, -⟩ := h.bps_eq
  have hlt := h.clusters_lt
  obtain ⟨-, hfour⟩ := len_le fi.kind
  have hoff : fi.kind.offset (fi.clusterCount.toNat + 1) ≤ 2 ^ 34 := by
    unfold Kind.offset
    cases fi.kind <;> dsimp only <;> omega
  have hdiv : fi.sectors ≤ (fi.kind.offset (fi.clusterCount.toNat + 1) + fi.kind.len.toNat + fi.bps - 1) / 512 :=
    Nat.div_le_div_left (by omega) (by decide)
  have hsize : fi.bps < 2 ^ 32 := fi.bytesPerSector.isLt
  omega

def Codec.Hit (fi : FatInfo) (s : Codec) (o : Nat) : Prop :=
  s.cacheSec = fi.reservedSectors + BitVec.ofNat 32 (o / fi.bps) ∧ fi.count o ≤ s.cacheN

instance : Decidable (s.Hit fi o) :=
  inferInstanceAs (Decidable (s.cacheSec = fi.reservedSectors + BitVec.ofNat 32 (o / fi.bps) ∧ fi.count o ≤ s.cacheN))

theorem load_eq (h : fi.Formed) {off : U32} : s.fatCacheLoad fi off fi.kind.len =
    if s.Hit fi off.toNat then (true, s)
    else
      match readParts (fi.parts (fi.reservedSectors + BitVec.ofNat 32 (off.toNat / fi.bps)) (fi.count off.toNat)) s.dev s.cache with
      | (false, dev, cache) => (false, { s with dev := dev, cache := cache })
      | (true, dev, cache) => (true,
          { dev := dev
            cache := cache
            cacheSec := fi.reservedSectors + BitVec.ofNat 32 (off.toNat / fi.bps)
            cacheN := fi.count off.toNat }) := by
  obtain ⟨r, hr, hpos, hle, -⟩ := h.bps_eq
  obtain ⟨hone, htwo, -⟩ := @count_bounds fi off.toNat h
  obtain ⟨hlen, hlen'⟩ := len_le fi.kind
  have hmod := Nat.mod_lt off.toNat h.bps_pos
  have hword : (1 : U32).toNat = 1 := rfl
  have hsec : off / fi.bytesPerSector = BitVec.ofNat 32 (off.toNat / fi.bps) := by
    rw [BitVec.udiv_def]
    rfl
  have hcount : ((off % fi.bytesPerSector + fi.kind.len + fi.bytesPerSector - 1) / fi.bytesPerSector).toNat = fi.count off.toNat := by
    have hsum : (off % fi.bytesPerSector + fi.kind.len + fi.bytesPerSector).toNat =
        off.toNat % fi.bps + fi.kind.len.toNat + fi.bps := by
      rw [BitVec.toNat_add, BitVec.toNat_add, BitVec.toNat_umod]
      unfold FatInfo.bps at *
      omega
    have hone' : (1 : U32) ≤ off % fi.bytesPerSector + fi.kind.len + fi.bytesPerSector := by
      show (1 : U32).toNat ≤ _
      rw [hsum, hword]
      omega
    rw [BitVec.toNat_udiv, BitVec.toNat_sub_of_le hone', hsum, hword]
    rfl
  have hmin : ¬ fi.count off.toNat < 1 := by omega
  have hmax : ¬ fi.count off.toNat > 2 := by omega
  unfold Codec.fatCacheLoad
  dsimp only
  rw [hsec, hcount, if_neg hmin, if_neg hmax]
  rfl

def Codec.loads (fi : FatInfo) (s : Codec) (n : U32) : Nat :=
  if s.Hit fi (fi.kind.offset n.toNat) then 0 else fi.count (fi.kind.offset n.toNat) * (fi.bps / 512)

def Codec.stores (fi : FatInfo) (s : Codec) (n : U32) : Nat :=
  (if s.Hit fi (fi.kind.offset n.toNat) then s.cacheN else fi.count (fi.kind.offset n.toNat)) * (fi.bps / 512)

def Codec.CalmLoad (fi : FatInfo) (s : Codec) (n : U32) : Prop :=
  s.cacheN = 0 ∨ s.dev.reply ≠ .done ∨ s.dev.Answers (s.loads fi n)

theorem load_answered (h : fi.Formed) (hs : fi.Short) (hheld : s.Held fi) (hn : ¬ fi.Refuses n)
    (ha : s.dev.Answers (s.loads fi n)) : ∃ s', s.fatCacheLoad fi (fi.kind.off n) fi.kind.len = (true, s') ∧
      s'.Covers fi n (fi.kind.offset n.toNat / fi.bps) ∧ s'.dev.disk = s.dev.disk ∧ s'.dev.replies = s.dev.replies ∧
        s'.dev.asked.length = s.dev.asked.length + s.loads fi n ∧ s'.cacheN * (fi.bps / 512) = s.stores fi n := by
  obtain ⟨r, hr, hpos, -, hr'⟩ := h.bps_eq
  have hblocks : fi.bps / 512 = r := by omega
  obtain ⟨hone, htwo, hinside⟩ := @count_bounds fi (fi.kind.offset n.toNat) h
  have hroom := count_room h (accepted_room h hn)
  have hlt := sectors_lt h
  rw [load_eq h, off_toNat h hs hn]
  unfold Codec.loads at ha ⊢
  unfold Codec.stores
  by_cases hhit : s.Hit fi (fi.kind.offset n.toNat)
  · rw [if_pos hhit, if_pos hhit, if_pos hhit]
    refine ⟨s, rfl, ?_, rfl, rfl, rfl, rfl⟩
    rcases hheld with hzero | ⟨j, hsec, hj, hcache⟩
    · have hle := hhit.2
      omega
    · have heq : j = fi.kind.offset n.toNat / fi.bps := by
        have hsame := hsec.symm.trans hhit.1
        rw [BitVec.add_right_inj] at hsame
        have hnat := congrArg BitVec.toNat hsame
        rwa [BitVec.toNat_ofNat, BitVec.toNat_ofNat, Nat.mod_eq_of_lt (by omega), Nat.mod_eq_of_lt (by omega)] at hnat
      subst heq
      exact ⟨hsec, rfl, hj, Nat.le_trans hinside (Nat.mul_le_mul_right _ hhit.2), hcache⟩
  · rw [if_neg hhit] at ha
    rw [if_neg hhit, if_neg hhit, if_neg hhit]
    rw [hblocks, ← @parts_length fi (fi.reservedSectors + BitVec.ofNat 32 (fi.kind.offset n.toNat / fi.bps)) _ _ hr'] at ha
    rw [readParts_answered ha]
    dsimp only
    refine ⟨_, rfl, ⟨rfl, rfl, hroom, hinside, fun i hi => fetch_window h hi⟩, rfl, rfl, ?_, rfl⟩
    dsimp only
    rw [List.length_append, List.length_reverse, List.length_map, parts_length hr', hblocks, Nat.add_comm]

theorem load_failed (h : fi.Formed) (hs : fi.Short) (hn : ¬ fi.Refuses n) (ha : ¬ s.dev.Answers (s.loads fi n)) :
    ∃ s', s.fatCacheLoad fi (fi.kind.off n) fi.kind.len = (false, s') ∧ s'.dev.disk = s.dev.disk ∧
      s'.cacheSec = s.cacheSec ∧ s'.cacheN = s.cacheN ∧ (s.dev.reply ≠ .done → s'.cache = s.cache) := by
  obtain ⟨r, hr, hpos, -, hr'⟩ := h.bps_eq
  have hblocks : fi.bps / 512 = r := by omega
  rw [load_eq h, off_toNat h hs hn]
  unfold Codec.loads at ha
  by_cases hhit : s.Hit fi (fi.kind.offset n.toNat)
  · rw [if_pos hhit] at ha
    exact absurd (fun i hi => absurd hi (Nat.not_lt_zero i)) ha
  · rw [if_neg hhit] at ha
    rw [if_neg hhit]
    rw [hblocks, ← @parts_length fi (fi.reservedSectors + BitVec.ofNat 32 (fi.kind.offset n.toNat / fi.bps)) _ _ hr'] at ha
    obtain ⟨d', buf', heq, hdisk, -, hkeep⟩ := @readParts_failed s.dev s.cache _ ha
    rw [heq]
    exact ⟨_, rfl, hdisk, rfl, rfl, hkeep⟩

theorem cache_put (hc : s.Covers fi n j) (hi : i < s.cacheN * fi.bps) :
    writeBytes s.cache (fi.kind.offset n.toNat % fi.bps)
      (fi.kind.encode n s.cache (fi.kind.offset n.toNat % fi.bps) v) i = fi.kind.put (fi.fat s.dev.disk) n v (j * fi.bps + i) := by
  have hdiv := Nat.div_add_mod (fi.kind.offset n.toNat) fi.bps
  rw [hc.first, Nat.mul_comm] at hdiv
  have hinside := hc.inside
  have hsame : fi.kind.encode n s.cache (fi.kind.offset n.toNat % fi.bps) v =
      fi.kind.encode n (fi.fat s.dev.disk) (fi.kind.offset n.toNat) v := by
    refine encode_congr fun x hx => ?_
    rw [hc.held _ (by omega), ← Nat.add_assoc, hdiv]
  by_cases hin : fi.kind.offset n.toNat % fi.bps ≤ i ∧ i < fi.kind.offset n.toNat % fi.bps + fi.kind.len.toNat
  · obtain ⟨x, rfl⟩ := Nat.exists_eq_add_of_le hin.1
    rw [writeBytes_inside (by rw [encode_length]; omega), hsame, ← Nat.add_assoc, hdiv, put_at (by omega)]
  · rw [writeBytes_of_disjoint (by rw [encode_length]; omega), put_off (by omega), hc.held i hi]

theorem flush_put (h : fi.Formed) (hc : s.Covers fi n j) (halone : fi.Alone n)
    (hbuf : ∀ i < s.cacheN * fi.bps, buf i = fi.kind.put (fi.fat s.dev.disk) n v (j * fi.bps + i))
    (ho : o < fi.sectors * fi.bps) :
    fi.fat (flush buf (fi.parts s.cacheSec s.cacheN) s.dev.disk) o = fi.kind.put (fi.fat s.dev.disk) n v o := by
  obtain ⟨r, hr, hpos, hle, hr'⟩ := h.bps_eq
  have hlt := sectors_lt h
  have hroom := hc.room
  have hdiv := Nat.div_add_mod (fi.kind.offset n.toNat) fi.bps
  rw [hc.first, Nat.mul_comm] at hdiv
  have hinside := hc.inside
  have hsector : o / fi.bps < fi.sectors := (Nat.div_lt_iff_lt_mul h.bps_pos).mpr ho
  have hblock : o % fi.bps / 512 < 8 := by
    have hmod := Nat.mod_lt o h.bps_pos
    omega
  rw [fat_eq h]
  rcases @flush_at U32 _ s.dev.disk buf (fi.parts s.cacheSec s.cacheN)
    (fi.partStart + fi.reservedSectors + BitVec.ofNat 32 (fi.place o).1) with ⟨q, hq, hqa, hval⟩ | ⟨hnone, hval⟩
  · obtain ⟨a, t, ha, ht, rfl⟩ := (mem_parts hr').mp hq
    dsimp only at hqa hval
    rw [hval]
    have hx : (fi.place o).2 < 512 := Nat.mod_lt _ (by decide)
    have hwin : a * fi.bps + t * 512 + (fi.place o).2 < s.cacheN * fi.bps := by
      have hmul : (a + 1) * fi.bps ≤ s.cacheN * fi.bps := Nat.mul_le_mul_right _ ha
      rw [Nat.succ_mul] at hmul
      omega
    rw [hbuf _ hwin]
    have hplace := place_window (j := j) (i := a) hr ht hx
    -- the byte that went out last lies where the byte in question lies
    have hsame : fi.place (j * fi.bps + (a * fi.bps + t * 512 + (fi.place o).2)) = fi.place o := by
      rw [hplace]
      rw [hc.sec, part_lba, BitVec.add_right_inj] at hqa
      have hnat := congrArg BitVec.toNat hqa
      have hfirst : (fi.place o).1 = o / fi.bps + o % fi.bps / 512 := rfl
      rw [BitVec.toNat_ofNat, BitVec.toNat_ofNat, Nat.mod_eq_of_lt (by omega), Nat.mod_eq_of_lt (by omega)] at hnat
      rw [hnat]
    generalize hp : j * fi.bps + (a * fi.bps + t * 512 + (fi.place o).2) = p at hsame
    have hpr : p < fi.sectors * fi.bps := by
      have hmul : (j + s.cacheN) * fi.bps ≤ fi.sectors * fi.bps := Nat.mul_le_mul_right _ hroom
      rw [Nat.add_mul] at hmul
      omega
    by_cases hpin : fi.kind.offset n.toNat ≤ p ∧ p < fi.kind.offset n.toNat + fi.kind.len.toNat
    · rw [halone p o hpin.1 hpin.2 ho hsame.symm]
    · by_cases hoin : fi.kind.offset n.toNat ≤ o ∧ o < fi.kind.offset n.toNat + fi.kind.len.toNat
      · rw [halone o p hoin.1 hoin.2 hpr hsame]
      · rw [put_off (by omega), put_off (by omega), fat_eq h, fat_eq h, hsame]
  · have hfat : fi.fat s.dev.disk o = _ := fat_eq h
    rw [hval, ← hfat]
    refine (put_off ?_).symm
    by_contra hin
    obtain ⟨i, hi⟩ : ∃ i, o = j * fi.bps + i := ⟨o - j * fi.bps, by omega⟩
    subst hi
    obtain ⟨a, t, x, ha, ht, hx, rfl⟩ := @window_split fi i r s.cacheN hr (by omega)
    refine hnone _ ((mem_parts hr').mpr ⟨a, t, ha, ht, rfl⟩) ?_
    dsimp only
    rw [hc.sec, part_lba, place_window hr ht hx]

/-! ## The calls -/

inductive Op
  | get (n : U32)
  | set (n v : U32)

def Codec.call (fi : FatInfo) (s : Codec) : Op → Option U32 × Codec
  | .get n => s.fatEntryGet fi n
  | .set n v =>
    match s.fatEntrySet fi n v with
    | (true, s) => (some v, s)
    | (false, s) => (none, s)

def Codec.Calm (fi : FatInfo) (s : Codec) : Op → Prop
  | .get n => fi.Refuses n ∨ s.CalmLoad fi n
  | .set n _ => fi.Refuses n ∨ s.CalmLoad fi n ∧ fi.Alone n ∧
      (s.dev.Answers (s.loads fi n) → s.dev.Answers (s.loads fi n + s.stores fi n))

def stored (k : Kind) : List (Op × Option U32) → U32 → Nat → Nat
  | [], _, x => x
  | (.set m v, some _) :: os, n, x => stored k os n (if n = m then v.toNat % 2 ^ k.width else x)
  | _ :: os, n, x => stored k os n x

theorem entryAt_of_same {f g : Nat → Byte} {n : Nat} (h : ∀ i < k.len.toNat, g (k.offset n + i) = f (k.offset n + i)) :
    entryAt k g n = entryAt k f n := by
  unfold entryAt
  unfold Kind.offset at h
  cases k
  · have h0 : g (n + n / 2 + 0) = f (n + n / 2 + 0) := h 0 (by decide)
    have h1 : g (n + n / 2 + 1) = f (n + n / 2 + 1) := h 1 (by decide)
    rw [Nat.add_zero] at h0
    dsimp only
    rw [h0, h1]
  · have hlen : Kind.fat16.len.toNat = 2 := rfl
    rw [hlen] at h
    dsimp only at h ⊢
    rw [read16_congr fun x hlo hhi => ?_]
    obtain ⟨i, rfl⟩ := Nat.exists_eq_add_of_le hlo
    exact h i (by omega)
  · have hlen : Kind.fat32.len.toNat = 4 := rfl
    rw [hlen] at h
    dsimp only at h ⊢
    rw [read32_congr fun x hlo hhi => ?_]
    obtain ⟨i, rfl⟩ := Nat.exists_eq_add_of_le hlo
    exact h i (by omega)

theorem decode_covered (hc : s.Covers fi n j) :
    (fi.kind.decode n s.cache (fi.kind.offset n.toNat % fi.bps)).toNat = s.entry fi n := by
  have hdiv := Nat.div_add_mod (fi.kind.offset n.toNat) fi.bps
  rw [hc.first, Nat.mul_comm] at hdiv
  have hinside := hc.inside
  refine decode_eq fun i hi => ?_
  rw [hc.held _ (by omega), ← Nat.add_assoc, hdiv]

theorem Codec.Covers.toHeld (hc : s.Covers fi n j) : s.Held fi := Or.inr ⟨j, hc.sec, hc.room, hc.held⟩

theorem load_failed_held (h : fi.Formed) (hs : fi.Short) (hheld : s.Held fi) (hn : ¬ fi.Refuses n)
    (hcalm : s.CalmLoad fi n) (ha : ¬ s.dev.Answers (s.loads fi n)) :
    ∃ s', s.fatCacheLoad fi (fi.kind.off n) fi.kind.len = (false, s') ∧ s'.dev.disk = s.dev.disk ∧ s'.Held fi := by
  obtain ⟨s', heq, hdisk, hsec, hcount, hkeep⟩ := load_failed h hs hn ha
  refine ⟨s', heq, hdisk, ?_⟩
  rcases hcalm with hzero | hfirst | hdone
  · exact Or.inl (by rw [hcount]; exact hzero)
  · unfold Codec.Held at hheld ⊢
    rw [hcount, hsec, hkeep hfirst, hdisk]
    exact hheld
  · exact absurd hdone ha

theorem get_value (h : fi.Formed) (hs : fi.Short) (hheld : s.Held fi) (hget : s.fatEntryGet fi n = (some v, s')) :
    v.toNat = s.entry fi n ∧ s'.Held fi ∧ s'.dev.disk = s.dev.disk := by
  unfold Codec.fatEntryGet at hget
  by_cases hn : fi.Refuses n
  · rw [if_pos hn] at hget
    exact absurd (congrArg Prod.fst hget) (by simp)
  · rw [if_neg hn] at hget
    by_cases ha : s.dev.Answers (s.loads fi n)
    · obtain ⟨t, heq, hc, hdisk, -⟩ := load_answered h hs hheld hn ha
      rw [heq] at hget
      dsimp only at hget
      obtain ⟨hv, rfl⟩ := Prod.mk.inj hget
      have hmod : (fi.kind.off n % fi.bytesPerSector).toNat = fi.kind.offset n.toNat % fi.bps := by
        rw [BitVec.toNat_umod, off_toNat h hs hn]
        rfl
      rw [hmod] at hv
      obtain rfl := Option.some.inj hv
      refine ⟨?_, hc.toHeld, hdisk⟩
      rw [decode_covered hc]
      unfold Codec.entry
      rw [hdisk]
    · obtain ⟨t, heq, -⟩ := load_failed h hs hn ha
      rw [heq] at hget
      exact absurd (congrArg Prod.fst hget) (by simp)

def Codec.Step (fi : FatInfo) (s : Codec) (o : Op × Option U32) (s' : Codec) : Prop :=
  s.Calm fi o.1 ∧ s.call fi o.1 = (o.2, s')

theorem set_step (h : fi.Formed) (hs : fi.Short) (hheld : s.Held fi) {v : U32} {a : Option U32}
    (hstep : s.Step fi (.set n v, a) s') :
    s'.Held fi ∧ ∀ m, ¬ fi.Refuses m → s'.entry fi m = if m = n ∧ a.isSome then v.toNat % 2 ^ fi.kind.width else s.entry fi m := by
  obtain ⟨hcalm, hcall⟩ := hstep
  dsimp only at hcalm hcall
  unfold Codec.call Codec.fatEntrySet at hcall
  dsimp only at hcall
  have hkeep : ∀ t : Codec, t.dev.disk = s.dev.disk → ∀ m, t.entry fi m = s.entry fi m := by
    intro t ht m
    unfold Codec.entry
    rw [ht]
  by_cases hn : fi.Refuses n
  · rw [if_pos hn] at hcall
    obtain ⟨rfl, rfl⟩ := Prod.mk.inj hcall
    refine ⟨hheld, fun m _ => ?_⟩
    rw [if_neg (fun hno => Bool.false_ne_true hno.2)]
  · rw [if_neg hn] at hcall
    obtain ⟨hload, halone, hwrites⟩ := hcalm.resolve_left hn
    by_cases ha : s.dev.Answers (s.loads fi n)
    · obtain ⟨t, heq, hc, hdisk, hreplies, hasked, hstores⟩ := load_answered h hs hheld hn ha
      obtain ⟨r, hr, hpos, -, hr'⟩ := h.bps_eq
      have hblocks : fi.bps / 512 = r := by omega
      have hmod : (fi.kind.off n % fi.bytesPerSector).toNat = fi.kind.offset n.toNat % fi.bps := by
        rw [BitVec.toNat_umod, off_toNat h hs hn]
        rfl
      have hsec : fi.reservedSectors + fi.kind.off n / fi.bytesPerSector = t.cacheSec := by
        rw [hc.sec, BitVec.udiv_def, off_toNat h hs hn]
        rfl
      have hout : t.dev.Answers (fi.parts t.cacheSec t.cacheN).length := by
        intro i hi
        rw [parts_length hr', ← hblocks, hstores] at hi
        rw [hreplies, hasked, Nat.add_assoc]
        exact hwrites ha _ (by omega)
      rw [heq] at hcall
      dsimp only at hcall
      rw [hmod, hsec, writeParts_answered hout] at hcall
      dsimp only at hcall
      obtain ⟨rfl, rfl⟩ := Prod.mk.inj hcall
      have hput := fun i hi => cache_put (v := v) (i := i) hc hi
      have hflush := fun o ho => flush_put (o := o) h hc halone hput ho
      have hroom := hc.room
      constructor
      · refine Or.inr ⟨_, hc.sec, hc.room, fun i hi => ?_⟩
        dsimp only at hi ⊢
        have hmul : (fi.kind.offset n.toNat / fi.bps + t.cacheN) * fi.bps ≤ fi.sectors * fi.bps := Nat.mul_le_mul_right _ hroom
        rw [Nat.add_mul] at hmul
        rw [hput i hi, hflush _ (by omega)]
      · intro m hm
        have hinside := accepted_room h hm
        have hentry : entryAt fi.kind (fi.fat (flush (writeBytes t.cache (fi.kind.offset n.toNat % fi.bps)
            (fi.kind.encode n t.cache (fi.kind.offset n.toNat % fi.bps) v)) (fi.parts t.cacheSec t.cacheN) t.dev.disk)) m.toNat =
            entryAt fi.kind (fi.kind.put (fi.fat t.dev.disk) n v) m.toNat :=
          entryAt_of_same fun i hi => hflush _ (by omega)
        unfold Codec.entry
        dsimp only
        rw [hentry]
        by_cases hmn : m = n
        · rw [if_pos ⟨hmn, rfl⟩, hmn, put_self]
        · rw [if_neg (fun hand => hmn hand.1), put_other hmn, hdisk]
    · obtain ⟨t, heq, hdisk, hheld'⟩ := load_failed_held h hs hheld hn hload ha
      rw [heq] at hcall
      dsimp only at hcall
      obtain ⟨rfl, rfl⟩ := Prod.mk.inj hcall
      refine ⟨hheld', fun m _ => ?_⟩
      rw [if_neg (fun hno => Bool.false_ne_true hno.2), hkeep t hdisk]

theorem get_step (h : fi.Formed) (hs : fi.Short) (hheld : s.Held fi) {a : Option U32}
    (hstep : s.Step fi (.get n, a) s') : s'.Held fi ∧ ∀ m, s'.entry fi m = s.entry fi m := by
  obtain ⟨hcalm, hcall⟩ := hstep
  dsimp only at hcalm hcall
  unfold Codec.call at hcall
  dsimp only at hcall
  have hkeep : ∀ t : Codec, t.dev.disk = s.dev.disk → ∀ m, t.entry fi m = s.entry fi m := by
    intro t ht m
    unfold Codec.entry
    rw [ht]
  cases a with
  | some v =>
    obtain ⟨-, hheld', hdisk⟩ := get_value h hs hheld hcall
    exact ⟨hheld', hkeep s' hdisk⟩
  | none =>
    unfold Codec.fatEntryGet at hcall
    by_cases hn : fi.Refuses n
    · rw [if_pos hn] at hcall
      obtain ⟨-, rfl⟩ := Prod.mk.inj hcall
      exact ⟨hheld, fun _ => rfl⟩
    · rw [if_neg hn] at hcall
      by_cases ha : s.dev.Answers (s.loads fi n)
      · obtain ⟨t, heq, -⟩ := load_answered h hs hheld hn ha
        rw [heq] at hcall
        exact absurd (congrArg Prod.fst hcall) (by simp)
      · obtain ⟨t, heq, hdisk, hheld'⟩ := load_failed_held h hs hheld hn (hcalm.resolve_left hn) ha
        rw [heq] at hcall
        obtain ⟨-, rfl⟩ := Prod.mk.inj hcall
        exact ⟨hheld', hkeep t hdisk⟩

theorem run_held (h : fi.Formed) (hs : fi.Short) {os : List (Op × Option U32)} (hrun : Run (Codec.Step fi) s os s')
    (hheld : s.Held fi) : s'.Held fi ∧ ∀ m, ¬ fi.Refuses m → s'.entry fi m = stored fi.kind os m (s.entry fi m) := by
  induction hrun with
  | nil s => exact ⟨hheld, fun _ _ => rfl⟩
  | @cons s t u o os hstep _ ih =>
    obtain ⟨op, a⟩ := o
    cases op with
    | get n =>
      obtain ⟨hheld', hkeep⟩ := get_step h hs hheld hstep
      obtain ⟨hend, hall⟩ := ih hheld'
      refine ⟨hend, fun m hm => ?_⟩
      rw [hall m hm, hkeep m]
      rfl
    | set n v =>
      obtain ⟨hheld', hset⟩ := set_step h hs hheld hstep
      obtain ⟨hend, hall⟩ := ih hheld'
      refine ⟨hend, fun m hm => ?_⟩
      rw [hall m hm, hset m hm]
      cases a with
      | none =>
        rw [if_neg (fun hno => Bool.false_ne_true hno.2)]
        rfl
      | some w =>
        have hstored : stored fi.kind ((.set n v, some w) :: os) m (s.entry fi m) =
            stored fi.kind os m (if m = n then v.toNat % 2 ^ fi.kind.width else s.entry fi m) := rfl
        rw [hstored]
        by_cases hmn : m = n
        · rw [if_pos ⟨hmn, rfl⟩, if_pos hmn]
        · rw [if_neg (fun hand => hmn hand.1), if_neg hmn]

def Faithful (fi : FatInfo) (s : Codec) (os : List (Op × Option U32)) (s' : Codec) : Prop :=
  (∀ n, ¬ fi.Refuses n → s'.entry fi n = stored fi.kind os n (s.entry fi n)) ∧
    ∀ n v t, s'.fatEntryGet fi n = (some v, t) → v.toNat = s'.entry fi n

end Ezos.Fat
