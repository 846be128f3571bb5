import Ezos.Fat.Write
import Ezos.Fat.Slots
import Ezos.Fat.Scan
import Mathlib.Data.List.ReduceOption

/-!
# The slots that the driver writes

Each slot reads back as what it was made from, and writing one leaves the others alone.
-/

namespace Ezos.Fat

open Lib.Memory

set_option autoImplicit false

variable {k : Kind} {blk e e' : Mem} {i j n : Nat} {name sn : Str} {ck attr : U8} {first size : Nat}
  {stamp : U16 × U16}

theorem lfnChar_congr (h : ∀ x, x < 32 → e' x = e x) {i : Nat} (hi : i < 13) : lfnChar e' i = lfnChar e i := by
  unfold lfnChar
  refine read16_congr fun x hlo hhi => h x ?_
  have hall : ∀ i < 13, lfnOffTab.getD i 0 + 2 ≤ 32 := by decide
  have hle := hall i hi
  omega

theorem readSlot_congr (h : ∀ x, x < 32 → e' x = e x) : readSlot k e' = readSlot k e := by
  have hchars : (List.range 13).map (lfnChar e') = (List.range 13).map (lfnChar e) :=
    List.map_congr_left fun i hi => lfnChar_congr h (List.mem_range.mp hi)
  have hsn : (List.range 11).map e' = (List.range 11).map e :=
    List.map_congr_left fun i hi => h i (by have hlt := List.mem_range.mp hi; omega)
  have hcluster : entryCluster k e' = entryCluster k e := by
    unfold entryCluster
    rw [read16_congr fun x hlo hhi => h x (by omega), read16_congr fun x hlo hhi => h x (by omega)]
  have hsize : read32 e' 28 = read32 e 28 := read32_congr fun x hlo hhi => h x (by omega)
  unfold readSlot
  rw [h 0 (by omega), h 11 (by omega), h 12 (by omega), h 13 (by omega), hchars, hsn, hcluster, hsize]

theorem lfnEntry_byte (name : Str) (ck : U8) (total n : Nat) {x : Nat} (hx : x = 0 ∨ x = 11 ∨ x = 13) :
    lfnEntry name ck total n x =
      if x = 0 then BitVec.ofNat 8 n ||| (if n = total then 0x40 else 0x00) else if x = 11 then attrLfn else ck := by
  have hclear : ∀ i ∈ List.range 13, x < lfnOffTab.getD i 0 ∨ lfnOffTab.getD i 0 + 2 ≤ x := by
    rcases hx with rfl | rfl | rfl <;> decide
  unfold lfnEntry
  rw [foldl_write16_of_disjoint hclear]
  rcases hx with rfl | rfl | rfl <;> rfl

theorem lfnChar_lfnEntry (name : Str) (ck : U8) (total n : Nat) {i : Nat} (hi : i < 13) :
    lfnChar (lfnEntry name ck total n) i = lfnUnit name ((n - 1) * 13 + i) := by
  unfold lfnChar lfnEntry
  exact @read16_foldl_write16 _ (fun i => lfnOffTab.getD i 0) (fun i => lfnUnit name ((n - 1) * 13 + i)) _
    (by decide) i (List.mem_range.mpr hi)

theorem seqByte : ∀ n < 21, ∀ flag ∈ [(0x40 : U8), 0x00], 1 ≤ n →
    BitVec.ofNat 8 n ||| flag ≠ 0x00 ∧ BitVec.ofNat 8 n ||| flag ≠ deletedEntry ∧
      ((BitVec.ofNat 8 n ||| flag) &&& 0x1F).toNat = n := by
  decide +kernel

theorem readSlot_lfnEntry (total : Nat) (h1 : 1 ≤ n) (hn : n < 21) :
    readSlot k (lfnEntry name ck total n) = .long n ck (piece name n) := by
  obtain ⟨hlast, hgone, hseq⟩ := seqByte n hn (if n = total then 0x40 else 0x00) (by split <;> simp) h1
  have h0 : lfnEntry name ck total n 0 = BitVec.ofNat 8 n ||| (if n = total then 0x40 else 0x00) :=
    lfnEntry_byte name ck total n (Or.inl rfl)
  have h11 : lfnEntry name ck total n 11 = attrLfn := lfnEntry_byte name ck total n (Or.inr (Or.inl rfl))
  have h13 : lfnEntry name ck total n 13 = ck := lfnEntry_byte name ck total n (Or.inr (Or.inr rfl))
  have hchars : (List.range 13).map (lfnChar (lfnEntry name ck total n)) = piece name n :=
    List.map_congr_left fun i hi => lfnChar_lfnEntry name ck total n (List.mem_range.mp hi)
  unfold readSlot
  rw [h0, h11, h13, if_neg hlast, if_neg hgone, if_pos (by decide), hseq, hchars]

def FitsEntry (k : Kind) (first : Nat) : Prop := first < if k = .fat32 then 2 ^ 32 else 2 ^ 16

theorem shortEntry_below {x : Nat} (hx : x < 14) :
    shortEntry k sn attr first size stamp x = writeBytes (writeBytes zeros 0 (sn.take 11)) 11 [attr] x := by
  unfold shortEntry
  have hword : ∀ (m : Mem) (w : BitVec 32), write32 m 28 w x = m x := fun m w => if_neg (by omega)
  rw [hword, write16_of_disjoint (by omega)]
  split
  · iterate 6 rw [write16_of_disjoint (by omega)]
  · iterate 5 rw [write16_of_disjoint (by omega)]

theorem entryCluster_shortEntry (h : FitsEntry k first) :
    entryCluster k (shortEntry k sn attr first size stamp) = first := by
  have hword : ∀ (m : Mem) (w : BitVec 32) (a : Nat), a + 2 ≤ 28 → read16 (write32 m 28 w) a = read16 m a :=
    fun m w a ha => read16_congr fun x hlo hhi => if_neg (by omega)
  have hlo : read16 (shortEntry k sn attr first size stamp) 26 = BitVec.ofNat 16 first := by
    unfold shortEntry
    dsimp only
    rw [hword _ _ _ (by omega), read16_write16_self]
  unfold entryCluster
  rw [hlo, BitVec.toNat_ofNat]
  unfold FitsEntry at h
  by_cases hk : k = .fat32
  · have hhi : read16 (shortEntry k sn attr first size stamp) 20 = BitVec.ofNat 16 (first / 65536) := by
      unfold shortEntry
      dsimp only
      rw [hword _ _ _ (by omega), read16_write16_of_disjoint _ _ (by omega), if_pos hk, read16_write16_self]
    rw [if_pos hk] at h ⊢
    rw [hhi, BitVec.toNat_ofNat]
    omega
  · rw [if_neg hk] at h ⊢
    omega

theorem readSlot_shortEntry {isDir : Bool} (hlen : sn.length = 11) (h0 : sn.getD 0 0 ≠ 0x00)
    (h5 : sn.getD 0 0 ≠ deletedEntry) (hfirst : FitsEntry k first) (hsize : size < 2 ^ 32) :
    readSlot k (shortEntry k sn (if isDir then attrDirectory else attrArchive) first size stamp) =
      .short { sn := sn, isDir := isDir, first := first, size := size } := by
  obtain ⟨attr, hattr⟩ : ∃ attr, (if isDir = true then attrDirectory else attrArchive) = attr := ⟨_, rfl⟩
  rw [hattr]
  have htake : sn.take 11 = sn := List.take_of_length_le (Nat.le_of_eq hlen)
  have hsn : ∀ x, x < 11 → shortEntry k sn attr first size stamp x = sn.getD x 0 := by
    intro x hx
    rw [shortEntry_below (by omega), htake, writeBytes_of_disjoint (by omega)]
    have hin := @writeBytes_inside zeros 0 sn x (by omega)
    rwa [Nat.zero_add] at hin
  have h11 : shortEntry k sn attr first size stamp 11 = attr := by
    rw [shortEntry_below (by omega)]
    rfl
  have h12 : shortEntry k sn attr first size stamp 12 = 0 := by
    rw [shortEntry_below (by omega), writeBytes_of_disjoint (Or.inr (Nat.le_refl 12)), htake,
      writeBytes_of_disjoint (by omega)]
    rfl
  have hlist : (List.range 11).map (shortEntry k sn attr first size stamp) = sn := by
    apply List.ext_getElem
    · rw [List.length_map, List.length_range, hlen]
    · intro x hx hx'
      rw [List.getElem_map, List.getElem_range, hsn x (by omega), List.getD_eq_getElem?_getD,
        List.getElem?_eq_getElem hx', Option.getD_some]
  have hsz : (read32 (shortEntry k sn attr first size stamp) 28).toNat = size := by
    unfold shortEntry
    rw [read32_write32_self, BitVec.toNat_ofNat]
    exact Nat.mod_eq_of_lt hsize
  have hkinds : (attr = attrDirectory ∨ attr = attrArchive) ∧ attr &&& attrLfn ≠ attrLfn ∧
      decide (attr = attrDirectory) = isDir := by
    rw [← hattr]
    cases isDir <;> decide
  unfold readSlot
  rw [hsn 0 (by omega), h11, h12, if_neg h0, if_neg h5, if_neg hkinds.2.1, if_pos ⟨rfl, hkinds.1⟩, hkinds.2.2,
    hlist, entryCluster_shortEntry hfirst, hsz]

theorem slotAt_put (blk : Mem) (i : Nat) (e : Mem) {x : Nat} (hx : x < 32) :
    slotAt (copyIn blk (32 * i) 32 e) i x = e x := by
  unfold slotAt copyIn
  rw [if_pos (by omega), Nat.add_sub_cancel_left]

theorem slotAt_put_of_ne (blk : Mem) (e : Mem) (hij : j ≠ i) {x : Nat} (hx : x < 32) :
    slotAt (copyIn blk (32 * i) 32 e) j x = slotAt blk j x := by
  unfold slotAt copyIn
  exact if_neg (by omega)

theorem slotAt_mark (blk : Mem) (i : Nat) (c : U8) : slotAt (writeBytes blk (32 * i) [c]) i 0 = c :=
  @writeBytes_inside blk (32 * i) [c] 0 Nat.one_pos

theorem slotAt_mark_of_ne (blk : Mem) (c : U8) (hij : j ≠ i) {x : Nat} (hx : x < 32) :
    slotAt (writeBytes blk (32 * i) [c]) j x = slotAt blk j x := by
  refine writeBytes_of_disjoint ?_
  rw [List.length_singleton]
  omega

end Ezos.Fat

/-!
## Entries put into a block and taken out of it

A run of free slots makes room for an entry, and an entry that is deleted becomes a run of deleted slots. The
other entries of the block stay where they are.
-/

namespace Ezos.Fat

open Lib.Memory

variable {k : Kind} {blk blk' e : Mem} {i j m n p q run need total : Nat} {b b' : Block} {ent : Entry}
  {name sn : Str} {ck : U8} {items : List Item} {slots : List Slot} {v : Vol} {w : View}

theorem Reads.cons {x : Slot} (h : readSlot k (slotAt blk i) = x) (h' : Reads k blk (i + 1) slots) :
    Reads k blk i (x :: slots) := by
  intro j s hs
  cases j with
  | zero =>
    obtain rfl := Option.some.inj hs
    exact h
  | succ j =>
    have hj := h' j s hs
    have hplace : i + 1 + j = i + (j + 1) := by omega
    rwa [hplace] at hj

theorem Reads.nil : Reads k blk i [] := fun _ _ hs => by contradiction

theorem Reads.congr (h : Reads k blk i slots)
    (hsame : ∀ j, i ≤ j → j < i + slots.length → readSlot k (slotAt blk' j) = readSlot k (slotAt blk j)) :
    Reads k blk' i slots := by
  intro j s hs
  have hj : j < slots.length := (List.getElem?_eq_some_iff.mp hs).1
  rw [hsame (i + j) (Nat.le_add_right i j) (by omega)]
  exact h j s hs

theorem blockAt_write_self : blockAt (fatWriteBlock v b blk) b = blk := by
  cases b <;> exact if_pos rfl

theorem blockAt_write_of_ne (h : b' ≠ b) : blockAt (fatWriteBlock v b blk) b' = blockAt v b' := by
  cases b with
  | root x =>
    cases b' with
    | root y => exact if_neg fun he => h (congrArg Block.root he)
    | cluster y => rfl
  | cluster x =>
    cases b' with
    | root y => rfl
    | cluster y => exact if_neg fun he => h (congrArg Block.cluster he)

theorem replace_twice (f : Nat → Mem) (x : Nat) :
    (fun y => if y = x then blk' else if y = x then blk else f y) = fun y => if y = x then blk' else f y := by
  funext y
  split <;> rfl

theorem replace_self (f : Nat → Mem) (x : Nat) : (fun y => if y = x then f x else f y) = f := by
  funext y
  split
  · rename_i hy
    rw [hy]
  · rfl

theorem fatWriteBlock_write : fatWriteBlock (fatWriteBlock v b blk) b blk' = fatWriteBlock v b blk' := by
  cases b with
  | root x => exact congrArg (fun r => { v with root := r }) (replace_twice v.root x)
  | cluster x => exact congrArg (fun r => { v with data := r }) (replace_twice v.data x)

theorem fatWriteBlock_self : fatWriteBlock v b (blockAt v b) = v := by
  cases b with
  | root x => exact congrArg (fun r => { v with root := r }) (replace_self v.root x)
  | cluster x => exact congrArg (fun r => { v with data := r }) (replace_self v.data x)

theorem unreadable_write : (fatWriteBlock v b blk).unreadable = v.unreadable := by cases b <;> rfl

theorem kind_write : (fatWriteBlock v b blk).kind = v.kind := by cases b <;> rfl

theorem info_write : (fatWriteBlock v b blk).info = v.info := by cases b <;> rfl

theorem fat_write : (fatWriteBlock v b blk).fat = v.fat := by cases b <;> rfl

theorem blockBytes_congr {v' : Vol} (hi : v'.info = v.info) (b : Block) : blockBytes v' b = blockBytes v b := by
  cases b with
  | root x => rw [blockBytes, blockBytes, hi]
  | cluster x => rw [blockBytes, blockBytes, Vol.clusterSize, Vol.clusterSize, hi]

theorem slotsOf_congr {v' : Vol} (hi : v'.info = v.info) (b : Block) : slotsOf v' b = slotsOf v b := by
  rw [slotsOf, slotsOf, blockBytes_congr hi]

theorem fatWriteDirentAt_eq (hread : ∀ b, v.unreadable b = false) (hi : i < slotsOf v b) :
    fatWriteDirentAt v b i e = (true, fatWriteBlock v b (copyIn (blockAt v b) (32 * i) 32 e)) := by
  unfold slotsOf at hi
  unfold fatWriteDirentAt fatReadBlock
  rw [if_neg (by omega), hread, if_neg Bool.false_ne_true]

def putLong (i : Nat) (name : Str) (ck : U8) (total : Nat) : Mem → Nat → Mem
  | blk, 0 => blk
  | blk, n + 1 =>
    putLong i name ck total (copyIn blk (32 * (i + (total - (n + 1)))) 32 (lfnEntry name ck total (n + 1))) n

theorem writeLong_eq (hread : ∀ b, v.unreadable b = false) (hn : n ≤ total) (hi : i + total ≤ slotsOf v b) :
    writeLong v b i name ck total n = (true, fatWriteBlock v b (putLong i name ck total (blockAt v b) n)) := by
  induction n generalizing v with
  | zero => rw [writeLong, putLong, fatWriteBlock_self]
  | succ n ih =>
    rw [writeLong, fatWriteDirentAt_eq hread (by omega)]
    dsimp only
    rw [ih (by rw [unreadable_write]; exact hread) (Nat.le_of_succ_le hn)
      (by rw [slotsOf_congr info_write]; exact hi), fatWriteBlock_write, blockAt_write_self]
    rfl

theorem putLong_slots (hn : n ≤ total) (htotal : total < 21) :
    Reads k (putLong i name ck total blk n) (i + (total - n)) (longSlots name ck n) ∧
      ∀ j, j < i + (total - n) ∨ i + total ≤ j → ∀ x, x < 32 →
        slotAt (putLong i name ck total blk n) j x = slotAt blk j x := by
  induction n generalizing blk with
  | zero => exact ⟨Reads.nil, fun j _ x _ => rfl⟩
  | succ n ih =>
    obtain ⟨hreads, hkeep⟩ := @ih (copyIn blk (32 * (i + (total - (n + 1)))) 32 (lfnEntry name ck total (n + 1)))
      (Nat.le_of_succ_le hn)
    have hplace : i + (total - n) = i + (total - (n + 1)) + 1 := by omega
    rw [hplace] at hreads hkeep
    refine ⟨Reads.cons ?_ hreads, fun j hj x hx => ?_⟩
    · rw [putLong, readSlot_congr fun x hx => (hkeep _ (by omega) x hx).trans (slotAt_put _ _ _ hx)]
      exact readSlot_lfnEntry total (by omega) (by omega)
    · rw [putLong, hkeep j (by omega) x hx]
      exact slotAt_put_of_ne _ _ (by omega) hx

structure Entry.Fits (k : Kind) (ent : Entry) : Prop extends ent.Ok where
  not_gone : ent.short.sn.getD 0 0 ≠ deletedEntry
  first : FitsEntry k ent.short.first
  size : ent.short.size < 2 ^ 32

theorem Entry.Fits.not_last (h : ent.Fits k) : ent.short.sn.getD 0 0 ≠ 0x00 := by
  have hlen := h.sn_length
  have hmem : ent.short.sn.getD 0 0 ∈ ent.short.sn := by
    rw [List.getD_eq_getElem?_getD, List.getElem?_eq_getElem (by omega)]
    exact List.getElem_mem _
  exact (h.sn_bytes _ hmem).1

theorem lead_length_le (hok : ent.Ok) : ent.lead.length ≤ 10 := by
  cases hlong : ent.long with
  | none =>
    rw [lead_of_plain hlong]
    exact Nat.zero_le _
  | some name =>
    rw [lead_of_long hlong, length_longSlots]
    exact lfnEntries_le (hok.long name hlong).2.1

theorem writeDirEntries_entry (hread : ∀ b, v.unreadable b = false) (hent : ent.Fits v.kind)
    (hlong : ∀ l, ent.long = some l → l = name) (hi : i + ent.slots.length ≤ slotsOf v b) {stamp : U16 × U16} :
    ∃ blk, writeDirEntries v (b, i) name ent.short.sn ent.lead.length
        (if ent.short.isDir then attrDirectory else attrArchive) ent.short.first ent.short.size stamp =
        (true, fatWriteBlock v b blk) ∧
      Reads v.kind blk i ent.slots ∧
      ∀ j, j < i ∨ i + ent.slots.length ≤ j →
        readSlot v.kind (slotAt blk j) = readSlot v.kind (slotAt (blockAt v b) j) := by
  have hten := lead_length_le hent.toOk
  rw [length_slots] at hi ⊢
  obtain ⟨hreads, hkeep⟩ := @putLong_slots v.kind (blockAt v b) i ent.lead.length ent.lead.length name
    (lfnChecksum (memOf ent.short.sn)) (Nat.le_refl _) (by omega)
  rw [Nat.sub_self, Nat.add_zero] at hreads hkeep
  unfold writeDirEntries
  dsimp only
  rw [writeLong_eq hread (Nat.le_refl _) (by omega)]
  dsimp only
  rw [fatWriteDirentAt_eq (by rw [unreadable_write]; exact hread) (by rw [slotsOf_congr info_write]; omega),
    fatWriteBlock_write, blockAt_write_self, kind_write]
  generalize putLong i name (lfnChecksum (memOf ent.short.sn)) ent.lead.length (blockAt v b) ent.lead.length = mid
    at hreads hkeep
  generalize hse : shortEntry v.kind ent.short.sn (if ent.short.isDir then attrDirectory else attrArchive)
    ent.short.first ent.short.size stamp = se
  have hshort : readSlot v.kind se = .short ent.short := by
    rw [← hse]
    exact readSlot_shortEntry hent.sn_length hent.not_last hent.not_gone hent.first hent.size
  have hlead : Reads v.kind mid i ent.lead := by
    cases hl : ent.long with
    | none =>
      rw [lead_of_plain hl]
      exact Reads.nil
    | some l =>
      rw [lead_of_long hl, length_longSlots, ← hlong l hl] at hreads
      rw [lead_of_long hl]
      exact hreads
  refine ⟨_, rfl, ?_, fun j hj => ?_⟩
  · unfold Entry.slots
    refine Reads.append (hlead.congr fun j hlo hhi => ?_) (Reads.cons ?_ Reads.nil)
    · exact readSlot_congr fun x hx => slotAt_put_of_ne mid se (by omega) hx
    · rw [readSlot_congr fun x hx => slotAt_put mid (i + ent.lead.length) se hx]
      exact hshort
  · refine readSlot_congr fun x hx => ?_
    rw [slotAt_put_of_ne mid se (by omega) hx]
    exact hkeep j (by omega) x hx

end Ezos.Fat
