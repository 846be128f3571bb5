import Ezos.Fat.Dirents
import Mathlib.Data.List.Basic
import Mathlib.Data.List.TakeWhile

/-!
# What the slots of a directory hold

A block as the driver leaves it is a row of items, each a deleted slot or an entry with the slots of its long
name in front, and then slots with the end mark. Reading such blocks shows the entries one by one, whatever
`lfn_chars` held before.
-/

namespace Ezos.Fat

open Lib.Memory

set_option autoImplicit false

structure Short where
  sn : Str
  isDir : Bool
  first : Nat
  size : Nat
deriving DecidableEq

inductive Slot
  | last
  | gone
  | long (seq : Nat) (ck : U8) (chars : List U16)
  | short (s : Short)
  | other
deriving DecidableEq

def readSlot (k : Kind) (e : Mem) : Slot :=
  if e 0 = 0x00 then .last
  else if e 0 = deletedEntry then .gone
  else if e 11 &&& attrLfn = attrLfn then
    .long (e 0 &&& 0x1F).toNat (e 13) ((List.range 13).map (lfnChar e))
  else if e 12 = 0 ∧ (e 11 = attrDirectory ∨ e 11 = attrArchive) then
    .short { sn := (List.range 11).map e, isDir := decide (e 11 = attrDirectory), first := entryCluster k e,
             size := (read32 e 28).toNat }
  else .other

structure Entry where
  long : Option Str
  short : Short
deriving DecidableEq

def piece (name : Str) (m : Nat) : List U16 := (List.range 13).map fun i => lfnUnit name ((m - 1) * 13 + i)

def longSlots (name : Str) (ck : U8) : Nat → List Slot
  | 0 => []
  | m + 1 => .long (m + 1) ck (piece name (m + 1)) :: longSlots name ck m

def Entry.lead (e : Entry) : List Slot :=
  match e.long with
  | none => []
  | some name => longSlots name (lfnChecksum (memOf e.short.sn)) (lfnEntries name)

def Entry.slots (e : Entry) : List Slot := e.lead ++ [.short e.short]

abbrev Item := Option Entry

def itemSlots : Item → List Slot
  | none => [.gone]
  | some e => e.slots

def Reads (k : Kind) (blk : Mem) (i : Nat) (slots : List Slot) : Prop :=
  ∀ j s, slots[j]? = some s → readSlot k (slotAt blk (i + j)) = s

def Short.text (s : Short) : Str := sn11ToStr (memOf s.sn)

def shown (name : Str) : Str := name.map fun c => shownChar (c.setWidth 16)

/-- The names under which an entry can be shown: behind a long name that does not fill its slots come
characters that were in `lfn_chars` before. -/
def Entry.ShownAs (e : Entry) (name : Str) : Prop :=
  match e.long with
  | none => name = e.short.text
  | some l => ∃ tail, name = shown l ++ tail ∧ (l.length % 13 = 0 → tail = [])

structure Shows (p : Block × Nat × Entry) (d : Dirent) : Prop where
  block : d.block = p.1
  slot : d.slot = p.2.1
  firstCluster : d.firstCluster = p.2.2.short.first
  size : d.size = p.2.2.short.size
  isDir : d.isDir = p.2.2.short.isDir
  name : p.2.2.ShownAs d.name

def placed (b : Block) : Nat → List Item → List (Block × Nat × Entry)
  | _, [] => []
  | i, none :: items => placed b (i + 1) items
  | i, some e :: items => (b, i + e.lead.length, e) :: placed b (i + e.slots.length) items

structure Entry.Ok (e : Entry) : Prop where
  sn_length : e.short.sn.length = 11
  sn_bytes : ∀ c ∈ e.short.sn, c ≠ 0 ∧ c ≠ 0x05
  long : ∀ name, e.long = some name → name ≠ [] ∧ name.length ≤ 127 ∧ ∀ c ∈ name, c ≠ 0

variable {k : Kind} {blk : Mem} {i n m : Nat} {st : Lfn} {b : Block} {e : Mem} {ent : Entry} {name : Str} {ck : U8}
  {s : Short} {slots slots' : List Slot} {items : List Item}

theorem Reads.tail {x : Slot} (h : Reads k blk i (x :: slots)) : Reads k blk (i + 1) slots := by
  intro j s hs
  have hj := h (j + 1) s hs
  rwa [Nat.add_comm j 1, ← Nat.add_assoc] at hj

theorem Reads.head {x : Slot} (h : Reads k blk i (x :: slots)) : readSlot k (slotAt blk i) = x := h 0 x rfl

theorem Reads.left (h : Reads k blk i (slots ++ slots')) : Reads k blk i slots := by
  intro j s hs
  have hj : j < slots.length := (List.getElem?_eq_some_iff.mp hs).1
  exact h j s (by rw [List.getElem?_append_left hj]; exact hs)

theorem Reads.right (h : Reads k blk i (slots ++ slots')) : Reads k blk (i + slots.length) slots' := by
  intro j s hs
  rw [Nat.add_assoc]
  refine h (slots.length + j) s ?_
  rw [List.getElem?_append_right (Nat.le_add_right _ _), Nat.add_sub_cancel_left]
  exact hs

theorem Reads.append (h : Reads k blk i slots) (h' : Reads k blk (i + slots.length) slots') :
    Reads k blk i (slots ++ slots') := by
  intro j s hs
  by_cases hj : j < slots.length
  · rw [List.getElem?_append_left hj] at hs
    exact h j s hs
  · rw [List.getElem?_append_right (Nat.le_of_not_lt hj)] at hs
    have hi : i + slots.length + (j - slots.length) = i + j := by omega
    have hres := h' (j - slots.length) s hs
    rwa [hi] at hres

theorem last_of_read (h : readSlot k e = .last) : e 0 = 0x00 := by
  unfold readSlot at h
  split at h
  · assumption
  · split at h
    · contradiction
    · split at h
      · contradiction
      · split at h <;> contradiction

theorem gone_of_read (h : readSlot k e = .gone) : e 0 = deletedEntry := by
  unfold readSlot at h
  split at h
  · contradiction
  · split at h
    · assumption
    · split at h
      · contradiction
      · split at h <;> contradiction

structure InUse (e : Mem) : Prop where
  not_last : e 0 ≠ 0x00
  not_gone : e 0 ≠ deletedEntry

theorem long_of_read {seq : Nat} {chars : List U16} (h : readSlot k e = .long seq ck chars) :
    InUse e ∧ e 11 &&& attrLfn = attrLfn ∧ (e 0 &&& 0x1F).toNat = seq ∧ e 13 = ck ∧
      (List.range 13).map (lfnChar e) = chars := by
  unfold readSlot at h
  split at h
  · contradiction
  · rename_i hlast
    split at h
    · contradiction
    · rename_i hgone
      split at h
      · rename_i hlfn
        injection h with hseq hck hchars
        exact ⟨⟨hlast, hgone⟩, hlfn, hseq, hck, hchars⟩
      · split at h <;> contradiction

theorem short_of_read (h : readSlot k e = .short s) :
    InUse e ∧ e 11 &&& attrLfn ≠ attrLfn ∧ e 12 = 0 ∧ (e 11 = attrDirectory ∨ e 11 = attrArchive) ∧
      s = { sn := (List.range 11).map e, isDir := decide (e 11 = attrDirectory), first := entryCluster k e,
            size := (read32 e 28).toNat } := by
  unfold readSlot at h
  split at h
  · contradiction
  · rename_i hlast
    split at h
    · contradiction
    · rename_i hgone
      split at h
      · contradiction
      · rename_i hlfn
        split at h
        · rename_i hok
          injection h with hs
          exact ⟨⟨hlast, hgone⟩, hlfn, hok.1, hok.2, hs.symm⟩
        · contradiction

theorem trimLen_congr {sn sn' : Mem} {off n : Nat} (h : ∀ j, j < n → sn' (off + j) = sn (off + j)) :
    trimLen sn' off n = trimLen sn off n := by
  induction n with
  | zero => rfl
  | succ n ih =>
    unfold trimLen
    rw [h n (Nat.lt_succ_self n), ih fun j hj => h j (Nat.lt_succ_of_lt hj)]

theorem trimLen_le {sn : Mem} {off n : Nat} : trimLen sn off n ≤ n := by
  induction n with
  | zero => exact Nat.le_refl 0
  | succ n ih =>
    unfold trimLen
    split
    · exact Nat.le_succ_of_le ih
    · exact Nat.le_refl _

theorem memOf_range (e : Mem) {n j : Nat} (hj : j < n) : memOf ((List.range n).map e) j = e j := by
  unfold memOf
  rw [List.getD_eq_getElem?_getD, List.getElem?_map, List.getElem?_range hj]
  rfl

theorem lfnChecksum_congr {sn sn' : Mem} (h : ∀ j, j < 11 → sn' j = sn j) : lfnChecksum sn' = lfnChecksum sn := by
  unfold lfnChecksum
  apply List.foldl_ext
  intro sum j hj
  rw [h j (List.mem_range.mp hj)]

theorem shortnameToStr_eq (hnt : e 12 = 0) (hb : ∀ c ∈ (List.range 11).map e, c ≠ 0 ∧ c ≠ 0x05) :
    shortnameToStr e = sn11ToStr (memOf ((List.range 11).map e)) := by
  have hbyte : ∀ j, j < 11 → e j ≠ 0 ∧ e j ≠ 0x05 := fun j hj =>
    hb (e j) (List.mem_map.mpr ⟨j, List.mem_range.mpr hj, rfl⟩)
  have hmem : ∀ j, j < 11 → memOf ((List.range 11).map e) j = e j := fun j hj => memOf_range e hj
  have hbl : trimLen (memOf ((List.range 11).map e)) 0 8 = trimLen e 0 8 :=
    trimLen_congr fun j hj => hmem (0 + j) (by omega)
  have hel : trimLen (memOf ((List.range 11).map e)) 8 3 = trimLen e 8 3 :=
    trimLen_congr fun j hj => hmem (8 + j) (by omega)
  have hinBase : ∀ i ∈ List.range (trimLen e 0 8), i < 11 := by
    intro i hi
    have hle := @trimLen_le e 0 8
    have hlt := List.mem_range.mp hi
    omega
  have hinExt : ∀ i ∈ List.range (trimLen e 8 3), 8 + i < 11 := by
    intro i hi
    have hle := @trimLen_le e 8 3
    have hlt := List.mem_range.mp hi
    omega
  have hlow : ∀ mask c : U8, lowerIf (decide ((0 : U8) &&& mask ≠ 0)) c = c := fun mask c => if_neg (by simp)
  have hbase : (List.range (trimLen e 0 8)).map (fun i => lowerIf (decide (e 12 &&& 0x08 ≠ 0))
      (if e i = 0x05 then 0xE5 else e i)) = (List.range (trimLen e 0 8)).map (memOf ((List.range 11).map e)) := by
    apply List.map_congr_left
    intro i hi
    rw [hnt, hlow, if_neg (hbyte i (hinBase i hi)).2, hmem i (hinBase i hi)]
  have hext : (List.range (trimLen e 8 3)).map (fun i => lowerIf (decide (e 12 &&& 0x10 ≠ 0)) (e (8 + i))) =
      (List.range (trimLen e 8 3)).map fun i => memOf ((List.range 11).map e) (8 + i) := by
    apply List.map_congr_left
    intro i hi
    rw [hnt, hlow, hmem _ (hinExt i hi)]
  unfold shortnameToStr sn11ToStr
  dsimp only
  rw [hbase, hext, hbl, hel]
  -- no byte is zero, so nothing is cut off
  have hall : ∀ l : Str, (∀ c ∈ l, c ≠ 0) → l.takeWhile (· ≠ 0) = l := fun l hl =>
    List.takeWhile_eq_self_iff.mpr fun c hc => decide_eq_true (hl c hc)
  have hbz : ∀ c ∈ (List.range (trimLen e 0 8)).map (memOf ((List.range 11).map e)), c ≠ 0 := by
    intro c hc
    obtain ⟨i, hi, rfl⟩ := List.mem_map.mp hc
    rw [hmem i (hinBase i hi)]
    exact (hbyte i (hinBase i hi)).1
  have hez : ∀ c ∈ (List.range (trimLen e 8 3)).map (fun i => memOf ((List.range 11).map e) (8 + i)), c ≠ 0 := by
    intro c hc
    obtain ⟨i, hi, rfl⟩ := List.mem_map.mp hc
    rw [hmem _ (hinExt i hi)]
    exact (hbyte _ (hinExt i hi)).1
  split
  · exact hall _ hbz
  · apply hall
    intro c hc
    rcases List.mem_append.mp hc with hc | hc
    · exact hbz c hc
    · rcases List.mem_cons.mp hc with rfl | hc
      · decide
      · exact hez c hc

end Ezos.Fat
