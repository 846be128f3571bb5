import Ezos.Exfat.Dir
import Mathlib.Logic.Relation

/-!
# When the search for a name comes back

The scan of a directory sees each slot as the end, a slot to skip or an entry set. A set
whose name has no UTF-8 is passed over without moving on, so the scan never leaves it.
-/

namespace Ezos.Exfat

open Lib.Memory

set_option autoImplicit false

variable {buf : Mem} {total off fuel : Nat} {name : List U8} {merged : Mem}

theorem mergeEntry_idem (buf : Mem) (e : Nat) (out : Mem) :
    mergeEntry buf e (mergeEntry buf e out) = mergeEntry buf e out := by
  have h : Overwrites (mergeEntry buf e) := by
    unfold mergeEntry copyUnits
    apply Overwrites.comp _ (overwrites_write32 _ _)
    apply Overwrites.comp _ (overwrites_write32 _ _)
    apply Overwrites.comp _ (Overwrites.foldl (fun _ => overwrites_write16 _ _) _)
    exact (overwrites_fill 0 32 0).comp (overwrites_writeBytes _ _)
  exact h.idem out

inductive Slot where
  | stop
  | skip
  | truncated
  | set
  deriving DecidableEq

def slotAt (buf : Mem) (total off : Nat) : Slot :=
  if off + 32 > total then .stop
  else if buf off = 0x00 then .stop
  else if buf off = 0x85 then
    if secCount buf off < 2 ∨ secCount buf off > 20 then .skip
    else if off + (1 + secCount buf off) * 32 > total then .truncated
    else .set
  else .skip

def nextOff (buf : Mem) (off : Nat) : Nat := off + (1 + secCount buf off) * 32

def scanSets (buf : Mem) (total : Nat) : Nat → Nat → Mem → List (Nat × Mem)
  | 0, _, _ => []
  | fuel + 1, off, merged =>
    match slotAt buf total off with
    | .stop => []
    | .truncated => []
    | .skip => scanSets buf total fuel (off + 32) merged
    | .set =>
      (off, mergeEntry buf off merged) ::
        scanSets buf total fuel (nextOff buf off) (mergeEntry buf off merged)

def entryName (merged : Mem) : Option (List U8) := utf16ToUtf8 (mergedUnits merged) 512

def nameMatches (name : List U8) (merged : Mem) : Bool :=
  match entryName merged with
  | none => false
  | some n => myStrcmp (cstr n) name = 0

def HasUtf8Name (merged : Mem) : Prop :=
  merged 2 ≠ 0 ∧ (encodeUtf8 (decodeUtf16 none (mergedUnits merged))).length ≤ 511

theorem entryName_ne_none_iff : entryName merged ≠ none ↔ HasUtf8Name merged := by
  have hlen : mergedUnits merged = [] ↔ merged 2 = 0 := by
    rw [mergedUnits, List.map_eq_nil_iff, List.range_eq_nil]
    exact ⟨fun h => BitVec.eq_of_toNat_eq h, fun h => by rw [h]; rfl⟩
  rw [Ne, entryName, utf16ToUtf8_eq_none_iff (by decide), not_or, Nat.not_lt, hlen]
  rfl

def NamesConvert (sets : List (Nat × Mem)) (name : List U8) : Prop :=
  ∀ s ∈ sets.takeWhile (fun s => !nameMatches name s.2), HasUtf8Name s.2

theorem findStep_eq (buf : Mem) (total : Nat) (name : List U8) (off : Nat) (merged : Mem) :
    findStep buf total name off merged =
      match slotAt buf total off with
      | .stop => .missing
      | .truncated => .missing
      | .skip => .next (off + 32) merged
      | .set =>
        if entryName (mergeEntry buf off merged) = none then .next off (mergeEntry buf off merged)
        else if nameMatches name (mergeEntry buf off merged) then
          .found off (mergeEntry buf off merged)
        else .next (nextOff buf off) (mergeEntry buf off merged) := by
  unfold findStep slotAt
  split
  · rfl
  split
  · rfl
  split
  · rename_i h85
    split
    · rfl
    rename_i hsec
    split
    · rfl
    have hparse : exfatParseEntrySet buf off merged = some (mergeEntry buf off merged) := by
      unfold exfatParseEntrySet
      rw [if_neg (not_not_intro h85), if_neg hsec]
    rw [hparse]
    unfold nameMatches entryName nextOff
    dsimp only
    cases utf16ToUtf8 (mergedUnits (mergeEntry buf off merged)) 512 with
    | none => rfl
    | some n =>
      simp only [reduceCtorEq, if_false, decide_eq_true_eq]
  · rfl

theorem slotAt_inside (h : slotAt buf total off ≠ .stop) : off + 32 ≤ total := by
  unfold slotAt at h
  split at h
  · exact absurd rfl h
  · omega

theorem nextOff_le (h : slotAt buf total off = .set) : nextOff buf off ≤ total := by
  unfold slotAt at h
  split at h
  · exact nomatch h
  split at h
  · exact nomatch h
  split at h
  · split at h
    · exact nomatch h
    split at h
    · exact nomatch h
    · unfold nextOff
      omega
  · exact nomatch h

theorem off_lt_nextOff (buf : Mem) (off : Nat) : off + 32 ≤ nextOff buf off := by
  unfold nextOff
  omega

def Enough (total off fuel : Nat) : Prop := off ≤ total ∧ total < off + 32 * fuel

theorem Enough.skip (h : Enough total off (fuel + 1)) (hin : off + 32 ≤ total) :
    Enough total (off + 32) fuel := by
  unfold Enough at h ⊢
  omega

theorem Enough.set (h : Enough total off (fuel + 1)) (hset : slotAt buf total off = .set) :
    Enough total (nextOff buf off) fuel := by
  have := nextOff_le hset
  have := off_lt_nextOff buf off
  unfold Enough at h ⊢
  omega

theorem NamesConvert.cons {s : Nat × Mem} {sets : List (Nat × Mem)} :
    NamesConvert (s :: sets) name ↔
      nameMatches name s.2 = true ∨ (entryName s.2 ≠ none ∧ NamesConvert sets name) := by
  unfold NamesConvert
  rw [entryName_ne_none_iff]
  cases hm : nameMatches name s.2 with
  | true => simp [hm]
  | false => simp [hm]

theorem entryName_of_matches (h : nameMatches name merged = true) : entryName merged ≠ none := by
  intro hn
  rw [nameMatches, hn] at h
  exact nomatch h

theorem findLoop_returns (he : Enough total off fuel)
    (hc : NamesConvert (scanSets buf total fuel off merged) name) :
    findLoop buf total name fuel off merged ≠ none := by
  induction fuel generalizing off merged with
  | zero =>
    unfold Enough at he
    omega
  | succ fuel ih =>
    rw [findLoop, findStep_eq]
    rw [scanSets] at hc
    cases hs : slotAt buf total off with
    | stop => exact nofun
    | truncated => exact nofun
    | skip =>
      rw [hs] at hc
      exact ih (he.skip (slotAt_inside (by rw [hs]; exact nofun))) hc
    | set =>
      rw [hs] at hc
      rcases NamesConvert.cons.mp hc with hm | ⟨hn, hrest⟩
      · simp only [if_neg (entryName_of_matches hm), if_pos hm]
        exact nofun
      · simp only [if_neg hn]
        split
        · rename_i hstep
          split at hstep
          · exact nomatch hstep
          · obtain ⟨rfl, rfl⟩ := ScanStep.next.inj hstep
            exact ih (he.set hs) hrest
        · exact nofun
        · exact nofun

theorem findLoop_stays (hs : slotAt buf total off = .set)
    (hn : entryName (mergeEntry buf off merged) = none) (n : Nat) :
    findLoop buf total name n off merged = none := by
  induction n generalizing merged with
  | zero => rfl
  | succ n ih =>
    rw [findLoop, findStep_eq, hs]
    simp only [if_pos hn]
    exact ih (by rw [mergeEntry_idem, hn])

theorem findLoop_stuck (hc : ¬ NamesConvert (scanSets buf total fuel off merged) name) (n : Nat) :
    findLoop buf total name n off merged = none := by
  have hnil : NamesConvert [] name := fun s hs => nomatch hs
  induction n generalizing off merged fuel with
  | zero => rfl
  | succ n ih =>
    cases fuel with
    | zero => exact absurd hnil hc
    | succ fuel =>
      rw [scanSets] at hc
      cases hs : slotAt buf total off with
      | stop =>
        rw [hs] at hc
        exact absurd hnil hc
      | truncated =>
        rw [hs] at hc
        exact absurd hnil hc
      | skip =>
        rw [hs] at hc
        rw [findLoop, findStep_eq, hs]
        exact ih hc
      | set =>
        rw [hs, NamesConvert.cons, not_or, not_and'] at hc
        obtain ⟨hm, hrest⟩ := hc
        by_cases hn : entryName (mergeEntry buf off merged) = none
        · exact findLoop_stays hs hn (n + 1)
        · rw [findLoop, findStep_eq, hs]
          simp only [if_neg hn, if_neg hm]
          exact ih fun h => hrest h hn

def FindReaches (buf : Mem) (total : Nat) (name : List U8) (s t : Nat × Mem) : Prop :=
  Relation.ReflTransGen (fun a b => findStep buf total name a.1 a.2 = .next b.1 b.2) s t

theorem findStep_moves (he : Enough total off (fuel + 1))
    (hc : NamesConvert (scanSets buf total (fuel + 1) off merged) name) {off' : Nat} {merged' : Mem}
    (h : findStep buf total name off merged = .next off' merged') :
    off < off' ∧ Enough total off' fuel ∧
      NamesConvert (scanSets buf total fuel off' merged') name := by
  rw [findStep_eq] at h
  rw [scanSets] at hc
  cases hs : slotAt buf total off with
  | stop =>
    rw [hs] at h
    exact nomatch h
  | truncated =>
    rw [hs] at h
    exact nomatch h
  | skip =>
    rw [hs] at h hc
    obtain ⟨rfl, rfl⟩ := ScanStep.next.inj h
    exact ⟨by omega, he.skip (slotAt_inside (by rw [hs]; exact nofun)), hc⟩
  | set =>
    rw [hs] at h hc
    rcases NamesConvert.cons.mp hc with hm | ⟨hn, hrest⟩
    · simp only [if_neg (entryName_of_matches hm), if_pos hm] at h
      exact nomatch h
    · simp only [if_neg hn] at h
      split at h
      · exact nomatch h
      · obtain ⟨rfl, rfl⟩ := ScanStep.next.inj h
        have := off_lt_nextOff buf off
        exact ⟨by omega, he.set hs, hrest⟩

theorem findReaches_good {s t : Nat × Mem} (hr : FindReaches buf total name s t)
    (hs : ∃ fuel, Enough total s.1 fuel ∧ NamesConvert (scanSets buf total fuel s.1 s.2) name) :
    ∃ fuel, Enough total t.1 fuel ∧ NamesConvert (scanSets buf total fuel t.1 t.2) name := by
  induction hr with
  | refl => exact hs
  | tail _ hstep ih =>
    obtain ⟨fuel, he, hc⟩ := ih
    cases fuel with
    | zero =>
      unfold Enough at he
      omega
    | succ fuel =>
      obtain ⟨_, he', hc'⟩ := findStep_moves he hc hstep
      exact ⟨fuel, he', hc'⟩

def FindTerminates (buf : Mem) (total : Nat) (name : List U8) (stale : Mem) : Prop :=
  (∃ n, findLoop buf total name n 0 stale ≠ none) ∧
    ∀ s t : Nat × Mem, FindReaches buf total name (0, stale) s →
      findStep buf total name s.1 s.2 = .next t.1 t.2 → s.1 < t.1

def dirSets (buf : Mem) (total : Nat) (stale : Mem) : List (Nat × Mem) :=
  scanSets buf total (total / 32 + 1) 0 stale

theorem enough_all (total : Nat) : Enough total 0 (total / 32 + 1) := by
  unfold Enough
  omega

theorem findTerminates_iff (buf : Mem) (total : Nat) (name : List U8) (stale : Mem) :
    FindTerminates buf total name stale ↔ NamesConvert (dirSets buf total stale) name := by
  constructor
  · rintro ⟨⟨n, hn⟩, _⟩
    by_contra hc
    exact hn (findLoop_stuck hc n)
  · intro hc
    refine ⟨⟨_, findLoop_returns (enough_all total) hc⟩, ?_⟩
    intro s t hr hstep
    obtain ⟨fuel, he, hc'⟩ := findReaches_good hr ⟨_, enough_all total, hc⟩
    cases fuel with
    | zero =>
      unfold Enough at he
      omega
    | succ fuel => exact (findStep_moves he hc' hstep).1

theorem exfatFindEntry_terminates_iff (v : Vol) (dirCluster : U32) (name : List U8) (stale : Mem) :
    let (clusters, buf, v') := exfatReadDirChain v dirCluster zeros
    FindTerminates buf (clusters * v'.clusterSize) name stale ↔
      NamesConvert (dirSets buf (clusters * v'.clusterSize) stale) name :=
  findTerminates_iff _ _ _ _

def oneDirVol (dir : Mem) : Vol :=
  { initialVol 128 with
    mount :=
      { (initialVol 128).mount with
        info := { volumeLength := 64, fatOffset := 25, fatLength := 1, clusterHeapOffset := 26,
                  clusterCount := 16, rootDirCluster := 2, sectorsPerCluster := 1,
                  spc_pos := Nat.one_pos, spc_le := one_le_spc }
        partitionStart := 1
        ready := true }
    disk := fun s =>
      if s = 26 then fill zeros 0 20 0xFF
      else if s = 27 then sectorOf dir 0
      else zeros }

def namelessDir : Mem :=
  writeBytes (writeBytes (writeBytes zeros 0 [0x85, 0x02]) 32 [0xC0]) 64 [0xC1]

def ScanStep.staysAt (off : Nat) : ScanStep → Bool
  | .next off' _ => off' = off
  | _ => false

theorem exfatFindEntry_hangs_on_empty_name :
    let (clusters, buf, v') := exfatReadDirChain (oneDirVol namelessDir) 2 zeros
    ¬ FindTerminates buf (clusters * v'.clusterSize) [0x41] zeros := by
  intro h
  have hstay : ScanStep.staysAt 0 (findStep (exfatReadDirChain (oneDirVol namelessDir) 2 zeros).2.1
      ((exfatReadDirChain (oneDirVol namelessDir) 2 zeros).1 *
        (exfatReadDirChain (oneDirVol namelessDir) 2 zeros).2.2.clusterSize) [0x41] 0 zeros) = true := by
    decide
  unfold ScanStep.staysAt at hstay
  split at hstay
  · rename_i off' merged' hstep
    obtain rfl := of_decide_eq_true hstay
    exact absurd (h.2 (0, zeros) (0, merged') .refl hstep) (Nat.lt_irrefl 0)
  · exact nomatch hstay

end Ezos.Exfat
