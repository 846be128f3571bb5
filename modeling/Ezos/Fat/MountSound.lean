import Ezos.Fat.EntryRuns
import Ezos.Fat.FormatRoom

/-!
# What mounting makes of a boot sector

`fat_probe` adds up the layout in 32 bits and looks at the sum, and nobody compares the size of the FAT with the count of
clusters. Where the sum does not wrap and the FAT has room for its last entry, the layout is sound, and the calls on
entries ask for sectors of the first FAT only, whatever the device answers.
-/

namespace Ezos.Fat

open Lib.Memory

set_option autoImplicit false

variable {fi : FatInfo} {s s' : Codec} {d : Dev} {buf : Mem} {ps : List (U32 × Nat)} {n v part lba : U32} {k : Kind}
  {j N : Nat} {b : Bpb} {bs : Mem} {disk : Disk} {sys : Sys}

theorem readParts_asked (h : lba ∈ (readParts ps d buf).2.1.asked) : lba ∈ d.asked ∨ ∃ p ∈ ps, p.1 = lba := by
  induction ps generalizing d buf with
  | nil => exact Or.inl h
  | cons p ps ih =>
    have hhead : ∀ {l : List U32}, lba ∈ p.1 :: l → lba ∈ l ∨ ∃ q ∈ p :: ps, q.1 = lba := by
      intro l hl
      rcases List.mem_cons.mp hl with heq | hl
      · exact Or.inr ⟨p, List.mem_cons_self, heq.symm⟩
      · exact Or.inl hl
    unfold readParts Dev.ataReadSector at h
    by_cases hdone : d.reply = .done
    · rw [if_pos hdone] at h
      rcases ih h with hl | ⟨q, hq, hqa⟩
      · exact hhead hl
      · exact Or.inr ⟨q, List.mem_cons_of_mem p hq, hqa⟩
    · rw [if_neg hdone] at h
      exact hhead h

theorem writeParts_asked (h : lba ∈ (writeParts buf ps d).2.asked) : lba ∈ d.asked ∨ ∃ p ∈ ps, p.1 = lba := by
  induction ps generalizing d with
  | nil => exact Or.inl h
  | cons p ps ih =>
    have hhead : ∀ {l : List U32}, lba ∈ p.1 :: l → lba ∈ l ∨ ∃ q ∈ p :: ps, q.1 = lba := by
      intro l hl
      rcases List.mem_cons.mp hl with heq | hl
      · exact Or.inr ⟨p, List.mem_cons_self, heq.symm⟩
      · exact Or.inl hl
    unfold writeParts Dev.ataWriteSector at h
    by_cases hdone : d.reply = .done
    · rw [decide_eq_true hdone] at h
      rcases ih h with hl | ⟨q, hq, hqa⟩
      · exact hhead hl
      · exact Or.inr ⟨q, List.mem_cons_of_mem p hq, hqa⟩
    · rw [decide_eq_false hdone] at h
      exact hhead h

def FatInfo.InFat (fi : FatInfo) (m : Nat) (lba : U32) : Prop := ∃ j i, j < m ∧ i < fi.bps / 512 ∧
  lba = fi.partStart + (fi.reservedSectors + BitVec.ofNat 32 j) + BitVec.ofNat 32 i

structure Codec.Within (fi : FatInfo) (s : Codec) : Prop where
  cached : s.cacheN = 0 ∨ ∃ j, s.cacheSec = fi.reservedSectors + BitVec.ofNat 32 j ∧ j + s.cacheN ≤ fi.sectors
  asked : ∀ lba ∈ s.dev.asked, fi.InFat fi.sectors lba

theorem parts_inFat (h : fi.Formed) (hroom : j + N ≤ fi.sectors) :
    ∀ p ∈ fi.parts (fi.reservedSectors + BitVec.ofNat 32 j) N, fi.InFat fi.sectors p.1 := by
  obtain ⟨r, hr, -, -, hr'⟩ := h.bps_eq
  have hblocks : fi.bps / 512 = r := by omega
  intro p hp
  obtain ⟨a, t, ha, ht, rfl⟩ := (mem_parts hr').mp hp
  refine ⟨j + a, t, by omega, by omega, ?_⟩
  dsimp only
  rw [BitVec.ofNat_add, BitVec.add_assoc fi.reservedSectors]

theorem off_le : (k.off n).toNat ≤ k.offset n.toNat := by
  unfold Kind.off Kind.offset
  have htwo : (2 : U32).toNat = 2 := rfl
  have hfour : (4 : U32).toNat = 4 := rfl
  cases k
  · dsimp only
    rw [BitVec.toNat_add, BitVec.toNat_udiv, htwo]
    exact Nat.mod_le _ _
  · dsimp only
    rw [BitVec.toNat_mul, htwo]
    exact Nat.mod_le _ _
  · dsimp only
    rw [BitVec.toNat_mul, hfour]
    exact Nat.mod_le _ _

theorem load_within (h : fi.Formed) (hs : s.Within fi) (hn : ¬ fi.Refuses n) {ok : Bool}
    (hload : s.fatCacheLoad fi (fi.kind.off n) fi.kind.len = (ok, s')) : s'.Within fi ∧
      (ok = true → s'.cacheSec = fi.reservedSectors + BitVec.ofNat 32 ((fi.kind.off n).toNat / fi.bps) ∧ 1 ≤ s'.cacheN) := by
  obtain ⟨hone, -, -⟩ := @count_bounds fi (fi.kind.off n).toNat h
  have hroom : (fi.kind.off n).toNat / fi.bps + fi.count (fi.kind.off n).toNat ≤ fi.sectors := by
    refine count_room h (Nat.le_trans ?_ (accepted_room h hn))
    exact Nat.add_le_add_right off_le _
  rw [load_eq h] at hload
  by_cases hhit : s.Hit fi (fi.kind.off n).toNat
  · rw [if_pos hhit] at hload
    obtain ⟨rfl, rfl⟩ := Prod.mk.inj hload
    exact ⟨hs, fun _ => ⟨hhit.1, Nat.le_trans hone hhit.2⟩⟩
  · rw [if_neg hhit] at hload
    have hasked : ∀ lba ∈ (readParts (fi.parts (fi.reservedSectors + BitVec.ofNat 32 ((fi.kind.off n).toNat / fi.bps))
        (fi.count (fi.kind.off n).toNat)) s.dev s.cache).2.1.asked, fi.InFat fi.sectors lba := by
      intro lba hlba
      rcases readParts_asked hlba with hold | ⟨p, hp, rfl⟩
      · exact hs.asked lba hold
      · exact parts_inFat h hroom p hp
    generalize readParts _ s.dev s.cache = res at hload hasked
    obtain ⟨_ | _, dev, cache⟩ := res
    · obtain ⟨rfl, rfl⟩ := Prod.mk.inj hload
      exact ⟨⟨hs.cached, hasked⟩, fun hno => nomatch hno⟩
    · obtain ⟨rfl, rfl⟩ := Prod.mk.inj hload
      exact ⟨⟨Or.inr ⟨_, rfl, hroom⟩, hasked⟩, fun _ => ⟨rfl, hone⟩⟩

theorem call_within (h : fi.Formed) (hs : s.Within fi) (o : Op) : (s.call fi o).2.Within fi := by
  cases o with
  | get n =>
    unfold Codec.call Codec.fatEntryGet
    dsimp only
    by_cases hn : fi.Refuses n
    · rw [if_pos hn]
      exact hs
    · rw [if_neg hn]
      generalize hload : s.fatCacheLoad fi (fi.kind.off n) fi.kind.len = res
      obtain ⟨ok, t⟩ := res
      obtain ⟨hwithin, -⟩ := load_within h hs hn hload
      cases ok <;> exact hwithin
  | set n v =>
    unfold Codec.call Codec.fatEntrySet
    dsimp only
    by_cases hn : fi.Refuses n
    · rw [if_pos hn]
      exact hs
    · rw [if_neg hn]
      generalize hload : s.fatCacheLoad fi (fi.kind.off n) fi.kind.len = res
      obtain ⟨ok, t⟩ := res
      obtain ⟨hwithin, hsec⟩ := load_within h hs hn hload
      cases ok with
      | false => exact hwithin
      | true =>
        obtain ⟨hsec, hone⟩ := hsec rfl
        have hsame : fi.reservedSectors + fi.kind.off n / fi.bytesPerSector = t.cacheSec := by
          rw [hsec, BitVec.udiv_def]
          rfl
        dsimp only
        rw [hsame]
        have hasked : ∀ cache, ∀ lba ∈ (writeParts cache (fi.parts t.cacheSec t.cacheN) t.dev).2.asked,
            fi.InFat fi.sectors lba := by
          intro cache lba hlba
          rcases writeParts_asked hlba with hold | ⟨p, hp, rfl⟩
          · exact hwithin.asked lba hold
          · rcases hwithin.cached with hzero | ⟨j, hj, hroom⟩
            · omega
            · rw [hj] at hp
              exact parts_inFat h hroom p hp
        generalize writeBytes t.cache _ _ = cache
        have hasked := hasked cache
        generalize writeParts cache _ t.dev = res at hasked
        obtain ⟨_ | _, dev⟩ := res
        · exact ⟨hwithin.cached, hasked⟩
        · exact ⟨hwithin.cached, hasked⟩

theorem calls_within (h : fi.Formed) (hs : s.Within fi) (os : List Op) :
    (os.foldl (fun s o => (s.call fi o).2) s).Within fi := by
  induction os generalizing s with
  | nil => exact hs
  | cons o os ih => exact ih (call_within h hs o)

/-- What `fat_mount` keeps for the calls on entries. -/
def infoOf (k : Kind) (part : U32) (b : Bpb) : FatInfo :=
  { kind := k, partStart := part, bytesPerSector := b.bps, reservedSectors := b.reserved, clusterCount := b.clusters }

def Bpb.rootSectors (b : Bpb) : Nat := (b.rootEntries.toNat * 32 + b.bps.toNat - 1) / b.bps.toNat

structure SoundLayout (part : U32) (k : Kind) (b : Bpb) : Prop where
  sums : b.reserved.toNat + b.nfats.toNat * b.fatSize.toNat + b.rootSectors < b.total.toNat
  room : ∀ n < b.clusters.toNat + 2, k.entryEnd n ≤ b.fatSize.toNat * b.bps.toNat
  stays : ∀ dev cache (os : List Op), dev.asked = [] → ∀ lba ∈
    (os.foldl (fun s o => (s.call (infoOf k part b) o).2) (Codec.mounted dev cache)).dev.asked,
    (infoOf k part b).InFat b.fatSize.toNat lba

def LayoutFits (k : Kind) (b : Bpb) : Prop :=
  b.reserved.toNat + b.nfats.toNat * b.fatSize.toNat + b.rootSectors < 2 ^ 32 ∧
    k.entryEnd (b.clusters.toNat + 1) ≤ b.fatSize.toNat * b.bps.toNat

instance (k : Kind) (b : Bpb) : Decidable (LayoutFits k b) :=
  inferInstanceAs (Decidable (b.reserved.toNat + b.nfats.toNat * b.fatSize.toNat + b.rootSectors < 2 ^ 32 ∧
    k.entryEnd (b.clusters.toNat + 1) ≤ b.fatSize.toNat * b.bps.toNat))

structure Probed (k : Kind) (b : Bpb) : Prop where
  size : b.bps ∈ sectorSizes
  entries : b.rootEntries.toNat < 2 ^ 16
  data : b.firstData < b.total
  few : match k with
    | .fat12 => b.clusters.toNat < 4085
    | .fat16 => b.clusters.toNat < 65525
    | .fat32 => b.clusters.toNat + 2 < 2 ^ 32

theorem probe_looked (h : fatProbe bs = some k) : Probed k (bpbOf bs) := by
  have hentries : (bpbOf bs).rootEntries.toNat < 2 ^ 16 := by
    unfold bpbOf
    dsimp only
    rw [BitVec.toNat_setWidth]
    exact Nat.lt_of_le_of_lt (Nat.mod_le _ _) (read16 bs 17).isLt
  unfold fatProbe at h
  dsimp only at h
  generalize bpbOf bs = b at h hentries
  by_cases hsigned : bootSigned bs = false
  · rw [if_pos hsigned] at h
    contradiction
  rw [if_neg hsigned] at h
  by_cases hsize : b.bps ∉ sectorSizes
  · rw [if_pos hsize] at h
    contradiction
  rw [if_neg hsize] at h
  split at h
  · contradiction
  split at h
  · contradiction
  split at h
  · contradiction
  rename_i hdata
  obtain ⟨hdata, -⟩ := not_or.mp hdata
  have hdata : b.firstData < b.total := BitVec.not_le.mp hdata
  split at h
  · rename_i hfew
    obtain rfl := Option.some.inj h
    exact ⟨not_not.mp hsize, hentries, hdata, hfew⟩
  split at h
  · rename_i hfew
    obtain rfl := Option.some.inj h
    exact ⟨not_not.mp hsize, hentries, hdata, hfew⟩
  split at h
  · contradiction
  split at h
  · contradiction
  rename_i hroot
  obtain rfl := Option.some.inj h
  obtain ⟨hlow, hhigh⟩ := not_or.mp hroot
  refine ⟨not_not.mp hsize, hentries, hdata, ?_⟩
  have hlow : 2 ≤ b.rootCluster.toNat := BitVec.not_lt.mp hlow
  have hhigh : b.rootCluster.toNat < (b.clusters + 2).toNat := BitVec.not_le.mp hhigh
  have hlt := b.clusters.isLt
  have htwo : (2 : U32).toNat = 2 := rfl
  rw [BitVec.toNat_add, htwo] at hhigh
  dsimp only
  omega

theorem Probed.formed (h : Probed k b) (part : U32) : (infoOf k part b).Formed := ⟨h.size, h.few⟩

theorem Probed.rootSectors (h : Probed k b) : b.rootDirSectors.toNat = b.rootSectors := by
  obtain ⟨r, hr, hpos, hle, -⟩ := (h.formed 0).bps_eq
  have hbps : b.bps.toNat = r * 512 := hr
  have hentries := h.entries
  have hone : (1 : U32).toNat = 1 := rfl
  have hword : (32 : U32).toNat = 32 := rfl
  have hsum : (b.rootEntries * 32 + b.bps).toNat = b.rootEntries.toNat * 32 + b.bps.toNat := by
    rw [BitVec.toNat_add, BitVec.toNat_mul, hword]
    omega
  have hle : (1 : U32) ≤ b.rootEntries * 32 + b.bps := by
    show (1 : U32).toNat ≤ _
    rw [hsum, hone]
    omega
  unfold Bpb.rootDirSectors Bpb.rootSectors
  rw [BitVec.toNat_udiv, BitVec.toNat_sub_of_le hle, hsum, hone]

theorem entryEnd_eq (k : Kind) (n : Nat) : k.entryEnd n = k.offset n + k.len.toNat := by
  cases k <;> rfl

theorem entryEnd_mono {a c : Nat} (h : a ≤ c) : k.entryEnd a ≤ k.entryEnd c := by
  rw [entryEnd_eq, entryEnd_eq]
  exact Nat.add_le_add_right (offset_mono h) _

end Ezos.Fat
