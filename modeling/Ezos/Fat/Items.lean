import Ezos.Fat.Rewrite

/-!
# The items of a block before and after

The first run of free slots is one of deleted slots, perhaps with end marks behind them; an entry put there is
one item more. Deleting an entry is one item less.
-/

namespace Ezos.Fat

open Lib.Memory

set_option autoImplicit false

variable {k : Kind} {blk blk' e : Mem} {i j m n p q run need : Nat} {b : Block} {ent : Entry} {items : List Item}
  {slots : List Slot} {v v' : Vol} {w : View}

/-! ## The search -/

def Slot.isFree (s : Slot) : Bool := s = .last || s = .gone

theorem last_isFree : Slot.last.isFree = true := rfl

theorem gone_isFree : Slot.gone.isFree = true := rfl

def runIn (need i run : Nat) : List Slot → Option Nat
  | [] => none
  | s :: slots =>
    if s.isFree then if run + 1 = need then some (i + 1 - need) else runIn need (i + 1) (run + 1) slots
    else runIn need (i + 1) 0 slots

theorem isFreeSlot_iff : isFreeSlot (e 0) = (readSlot k e).isFree := by
  unfold isFreeSlot readSlot
  by_cases hlast : e 0 = 0x00
  · rw [if_pos hlast, hlast]
    rfl
  rw [if_neg hlast]
  by_cases hgone : e 0 = deletedEntry
  · rw [if_pos hgone, hgone]
    rfl
  rw [if_neg hgone, decide_eq_false hlast, decide_eq_false hgone]
  split
  · rfl
  · split <;> rfl

theorem freeRun_eq (h : Reads k blk i slots) :
    freeRun blk need i run slots.length = runIn need i run slots := by
  induction slots generalizing i run with
  | nil => rfl
  | cons s slots ih =>
    rw [List.length_cons, freeRun, runIn, isFreeSlot_iff, h.head, ih h.tail, ih h.tail]

theorem runIn_used (hs : ∀ s ∈ slots, s.isFree = false) {rest : List Slot} (hrun : run = 0 ∨ slots ≠ []) :
    runIn need i run (slots ++ rest) = runIn need (i + slots.length) 0 rest := by
  induction slots generalizing i run with
  | nil =>
    obtain rfl := hrun.resolve_right fun hno => hno rfl
    rfl
  | cons s slots ih =>
    rw [List.cons_append, runIn, hs s List.mem_cons_self, if_neg Bool.false_ne_true,
      ih (fun x hx => hs x (List.mem_cons_of_mem s hx)) (Or.inl rfl), List.length_cons]
    congr 1
    omega

theorem longSlots_used {name : Str} {ck : U8} : ∀ s ∈ longSlots name ck m, s.isFree = false := by
  induction m with
  | zero => exact fun s hs => absurd hs List.not_mem_nil
  | succ m ih =>
    intro s hs
    rcases List.mem_cons.mp hs with rfl | hs
    · rfl
    · exact ih s hs

theorem slots_used : ∀ s ∈ ent.slots, s.isFree = false := by
  intro s hs
  rcases List.mem_append.mp hs with hs | hs
  · cases hlong : ent.long with
    | none =>
      rw [lead_of_plain hlong] at hs
      exact absurd hs List.not_mem_nil
    | some name =>
      rw [lead_of_long hlong] at hs
      exact longSlots_used s hs
  · rw [List.mem_singleton.mp hs]
    rfl

theorem slots_ne_nil : ent.slots ≠ [] := by
  unfold Entry.slots
  exact List.append_ne_nil_of_right_ne_nil _ (List.cons_ne_nil _ _)

structure Room (need : Nat) (items : List Item) (free p : Nat) (A B : List Item) (free' : Nat) : Prop where
  slots : ∃ Y, items.flatMap itemSlots ++ List.replicate free .last =
    A.flatMap itemSlots ++ Y ++ (B.flatMap itemSlots ++ List.replicate free' .last) ∧ Y.length = need
  place : p = (A.flatMap itemSlots).length
  live : items.reduceOption = A.reduceOption ++ B.reduceOption
  free_le : free' ≤ free

theorem flatMap_gaps (n : Nat) : (List.replicate n (none : Item)).flatMap itemSlots = List.replicate n .gone := by
  induction n with
  | zero => rfl
  | succ n ih => rw [List.replicate_succ, List.flatMap_cons, ih]; rfl

theorem reduceOption_gaps (n : Nat) : (List.replicate n (none : Item)).reduceOption = [] :=
  List.reduceOption_replicate_none

theorem runIn_last (hrun : run < need) (hi : run ≤ i) (h : runIn need i run (List.replicate m .last) = some p) :
    p = i - run ∧ need - run ≤ m := by
  induction m generalizing i run with
  | zero => contradiction
  | succ m ih =>
    rw [List.replicate_succ, runIn, if_pos last_isFree] at h
    by_cases hfull : run + 1 = need
    · rw [if_pos hfull] at h
      obtain rfl := Option.some.inj h
      omega
    · rw [if_neg hfull] at h
      have hres := ih (by omega) (by omega) h
      omega

theorem runIn_items (hrun : run < need) (hi : run ≤ i)
    (h : runIn need i run (items.flatMap itemSlots ++ List.replicate m .last) = some p) :
    ∃ A B free', Room need (List.replicate run none ++ items) m (p - (i - run)) A B free' ∧ i - run ≤ p := by
  induction items generalizing i run with
  | nil =>
    obtain ⟨rfl, hm⟩ := runIn_last hrun hi h
    refine ⟨[], [], m - (need - run), ⟨⟨List.replicate run .gone ++ List.replicate (need - run) .last, ?_, ?_⟩,
      ?_, ?_, Nat.sub_le _ _⟩, Nat.le_refl _⟩
    · have hsplit : m = (need - run) + (m - (need - run)) := by omega
      rw [List.append_nil, flatMap_gaps, List.flatMap_nil, List.nil_append, List.nil_append, List.append_assoc,
        ← List.replicate_add, ← hsplit]
    · rw [List.length_append, List.length_replicate, List.length_replicate]
      omega
    · rw [Nat.sub_self]
      rfl
    · rw [List.append_nil, reduceOption_gaps]
      rfl
  | cons x items ih =>
    rw [List.flatMap_cons, List.append_assoc] at h
    cases x with
    | none =>
      have hgap : itemSlots none ++ (items.flatMap itemSlots ++ List.replicate m .last) =
          .gone :: (items.flatMap itemSlots ++ List.replicate m .last) := rfl
      rw [hgap, runIn, if_pos gone_isFree] at h
      have hmove : List.replicate run (none : Item) ++ none :: items = List.replicate (run + 1) none ++ items := by
        rw [List.replicate_succ', List.append_assoc]
        rfl
      by_cases hfull : run + 1 = need
      · rw [if_pos hfull] at h
        obtain rfl := Option.some.inj h
        refine ⟨[], items, m, ⟨⟨List.replicate need .gone, ?_, List.length_replicate⟩, ?_, ?_, Nat.le_refl _⟩,
          by omega⟩
        · rw [hmove, hfull, List.flatMap_append, flatMap_gaps, List.flatMap_nil, List.nil_append, List.append_assoc]
        · have hzero : i + 1 - need - (i - run) = 0 := by omega
          rw [hzero]
          rfl
        · rw [hmove, List.reduceOption_append, reduceOption_gaps]
          rfl
      · rw [if_neg hfull] at h
        obtain ⟨A, B, free', hroom, hle⟩ := ih (by omega) (by omega) h
        have hback : i + 1 - (run + 1) = i - run := by omega
        rw [hback] at hroom hle
        rw [hmove]
        exact ⟨A, B, free', hroom, hle⟩
    | some ent =>
      have hitem : itemSlots (some ent) = ent.slots := rfl
      rw [hitem, runIn_used slots_used (Or.inr slots_ne_nil)] at h
      obtain ⟨A, B, free', hroom, hle⟩ := ih (by omega) (Nat.zero_le _) h
      rw [Nat.sub_zero] at hroom hle
      obtain ⟨Y, hslots, hY⟩ := hroom.slots
      rw [List.replicate_zero, List.nil_append] at hslots
      have hplace := hroom.place
      refine ⟨List.replicate run none ++ some ent :: A, B, free', ⟨⟨Y, ?_, hY⟩, ?_, ?_, hroom.free_le⟩, by omega⟩
      · rw [List.flatMap_append, List.flatMap_cons, List.append_assoc, List.append_assoc, hslots,
          List.flatMap_append, List.flatMap_cons]
        simp only [List.append_assoc]
      · rw [List.flatMap_append, List.flatMap_cons, flatMap_gaps, hitem, List.length_append, List.length_append,
          List.length_replicate]
        omega
      · have hlive := hroom.live
        rw [List.replicate_zero, List.nil_append] at hlive
        rw [List.reduceOption_append, List.reduceOption_append, reduceOption_gaps, List.nil_append, List.nil_append,
          List.reduceOption_cons_of_some, List.reduceOption_cons_of_some, hlive, List.cons_append]

theorem mem_reduceOption {ent : Entry} : ent ∈ items.reduceOption ↔ some ent ∈ items :=
  List.reduceOption_mem_iff

theorem View.Of.room (h : w.Of v) (hneed : 0 < need)
    (hrun : freeRun (blockAt v w.block) need 0 0 (slotsOf v w.block) = some p) :
    ∃ A B free', Room need w.items w.free p A B free' := by
  rw [← h.length, freeRun_eq h.reads, View.slots] at hrun
  obtain ⟨A, B, free', hroom, -⟩ := runIn_items hneed (Nat.zero_le 0) hrun
  rw [Nat.sub_zero, List.replicate_zero, List.nil_append] at hroom
  exact ⟨A, B, free', hroom⟩

theorem room_of_empty {free : Nat} (h : need ≤ free) : Room need [] free 0 [] [] (free - need) := by
  refine ⟨⟨List.replicate need .last, ?_, List.length_replicate⟩, rfl, rfl, Nat.sub_le _ _⟩
  have hsplit : free = need + (free - need) := by omega
  rw [List.flatMap_nil, List.nil_append, List.nil_append, List.nil_append, ← List.replicate_add, ← hsplit]

theorem View.Of.room_le {A B : List Item} {free' : Nat} (h : w.Of v) (hroom : Room need w.items w.free p A B free') :
    p + need ≤ slotsOf v w.block := by
  obtain ⟨Y, hslots, hY⟩ := hroom.slots
  have hplace := hroom.place
  have hlen := h.length
  rw [View.slots, hslots, List.length_append, List.length_append] at hlen
  omega

theorem View.Of.insert {A B : List Item} {free' : Nat} (h : w.Of v)
    (hroom : Room ent.slots.length w.items w.free p A B free') (hok : ent.Ok) (hreads : Reads v.kind blk p ent.slots)
    (hsame : ∀ j, j < p ∨ p + ent.slots.length ≤ j →
      readSlot v.kind (slotAt blk j) = readSlot v.kind (slotAt (blockAt v w.block) j)) :
    View.Of (fatWriteBlock v w.block blk) { block := w.block, items := A ++ some ent :: B, free := free' } := by
  obtain ⟨Y, hslots, hY⟩ := hroom.slots
  have hplace := hroom.place
  have hlive := hroom.live
  have hwslots : w.slots = A.flatMap itemSlots ++ Y ++ (B.flatMap itemSlots ++ List.replicate free' .last) := hslots
  have hlen : slotsOf v w.block = (A.flatMap itemSlots).length + ent.slots.length +
      (B.flatMap itemSlots ++ List.replicate free' Slot.last).length := by
    rw [← h.length, hwslots, List.length_append, List.length_append, hY]
  have hnew : View.slots { block := w.block, items := A ++ some ent :: B, free := free' } =
      A.flatMap itemSlots ++ ent.slots ++ (B.flatMap itemSlots ++ List.replicate free' .last) := by
    unfold View.slots
    rw [List.flatMap_append, List.flatMap_cons, List.append_assoc, List.append_assoc, List.append_assoc]
    rfl
  have hold := h.reads
  rw [hwslots] at hold
  refine ⟨?_, ?_, fun x hx => ?_⟩
  · rw [hnew, blockAt_write_self, kind_write]
    refine Reads.append (Reads.append (hold.left.left.congr fun j hlo hhi => hsame j (by omega)) ?_)
      ((?_ : Reads v.kind (blockAt v w.block) _ _).congr fun j hlo hhi => hsame j ?_)
    · rw [Nat.zero_add, ← hplace]
      exact hreads
    · rw [List.length_append, ← hY, ← List.length_append]
      exact hold.right
    · rw [List.length_append] at hlo
      omega
  · rw [hnew, slotsOf_congr info_write, hlen, List.length_append, List.length_append]
  · have hmem : x ∈ (A ++ some ent :: B).reduceOption := mem_reduceOption.mpr hx
    rw [List.reduceOption_append, List.reduceOption_cons_of_some] at hmem
    rcases List.mem_append.mp hmem with hA | hB
    · exact h.ok x (mem_reduceOption.mp (hlive ▸ List.mem_append_left _ hA))
    · rcases List.mem_cons.mp hB with rfl | hB
      · exact hok
      · exact h.ok x (mem_reduceOption.mp (hlive ▸ List.mem_append_right _ hB))

theorem eraseBack_long (hstop : ∀ x, p = x + 1 → ¬ (slotAt blk x 11 &&& attrLfn = attrLfn ∧
      slotAt blk x 0 ≠ deletedEntry))
    (hlong : ∀ j, j < n → slotAt blk (p + j) 11 &&& attrLfn = attrLfn ∧ slotAt blk (p + j) 0 ≠ deletedEntry) :
    (∀ j, j < n → slotAt (eraseBack blk (p + n)) (p + j) 0 = deletedEntry) ∧
      ∀ j, (j < p ∨ p + n ≤ j) → ∀ x, x < 32 → slotAt (eraseBack blk (p + n)) j x = slotAt blk j x := by
  induction n generalizing blk with
  | zero =>
    have hsame : eraseBack blk (p + 0) = blk := by
      rw [Nat.add_zero]
      cases p with
      | zero => rfl
      | succ x => exact if_neg (hstop x rfl)
    rw [hsame]
    exact ⟨fun j hj => absurd hj (Nat.not_lt_zero j), fun j _ x _ => rfl⟩
  | succ n ih =>
    have hkeep : ∀ j, j ≠ p + n → ∀ x, x < 32 →
        slotAt (writeBytes blk (32 * (p + n)) [deletedEntry]) j x = slotAt blk j x :=
      fun j hj x hx => slotAt_mark_of_ne blk deletedEntry hj hx
    have hstep : eraseBack blk (p + (n + 1)) =
        eraseBack (writeBytes blk (32 * (p + n)) [deletedEntry]) (p + n) := if_pos (hlong n (Nat.lt_succ_self n))
    obtain ⟨hgone, hsame⟩ := @ih (writeBytes blk (32 * (p + n)) [deletedEntry])
      (fun x hx => by
        rw [hkeep x (by omega) 11 (by omega), hkeep x (by omega) 0 (by omega)]
        exact hstop x hx)
      (fun j hj => by
        rw [hkeep (p + j) (by omega) 11 (by omega), hkeep (p + j) (by omega) 0 (by omega)]
        exact hlong j (Nat.lt_succ_of_lt hj))
    rw [hstep]
    refine ⟨fun j hj => ?_, fun j hj x hx => ?_⟩
    · rcases Nat.lt_succ_iff_lt_or_eq.mp hj with hj | rfl
      · exact hgone j hj
      · rw [hsame _ (Or.inr (Nat.le_refl _)) 0 (by omega)]
        exact slotAt_mark _ _ _
    · rw [hsame j (by omega) x hx, hkeep j (by omega) x hx]

theorem readSlot_gone (h : e 0 = deletedEntry) : readSlot k e = .gone := by
  unfold readSlot
  rw [h, if_neg (by decide), if_pos rfl]

theorem reads_gaps (h : ∀ j, j < n → slotAt blk (p + j) 0 = deletedEntry) :
    Reads k blk p (List.replicate n .gone) := by
  intro j s hs
  obtain ⟨hj, rfl⟩ := List.getElem?_eq_some_iff.mp hs
  rw [List.length_replicate] at hj
  rw [List.getElem_replicate]
  exact readSlot_gone (h j hj)

theorem no_lead_before {A : List Item} (hr : Reads k blk 0 (A.flatMap itemSlots)) {x : Nat}
    (hx : (A.flatMap itemSlots).length = x + 1) :
    ¬ (slotAt blk x 11 &&& attrLfn = attrLfn ∧ slotAt blk x 0 ≠ deletedEntry) := by
  rcases List.eq_nil_or_concat A with rfl | ⟨A', a, rfl⟩
  · contradiction
  · rw [List.concat_eq_append, List.flatMap_append, List.flatMap_singleton] at hr hx
    cases a with
    | none =>
      have hgap : readSlot k (slotAt blk x) = .gone := by
        have hread := hr.right.head
        rw [List.length_append] at hx
        have hplace : 0 + (A'.flatMap itemSlots).length = x := by
          have hone : (itemSlots none).length = 1 := rfl
          omega
        rwa [hplace] at hread
      exact fun hno => hno.2 (gone_of_read hgap)
    | some a =>
      have hshort : readSlot k (slotAt blk x) = .short a.short := by
        have hitem : itemSlots (some a) = a.lead ++ [.short a.short] := rfl
        rw [hitem, ← List.append_assoc] at hr hx
        have hread := hr.right.head
        rw [List.length_append, List.length_singleton] at hx
        have hplace : 0 + (A'.flatMap itemSlots ++ a.lead).length = x := by omega
        rwa [hplace] at hread
      exact fun hno => (short_of_read hshort).2.1 hno.1

theorem lead_is_long (hr : Reads k blk p ent.lead) (hj : j < ent.lead.length) :
    slotAt blk (p + j) 11 &&& attrLfn = attrLfn ∧ slotAt blk (p + j) 0 ≠ deletedEntry := by
  have hmem : ∀ s ∈ ent.lead, ∃ seq ck chars, s = .long seq ck chars := by
    have hall : ∀ (name : Str) (ck : U8) (m : Nat), ∀ s ∈ longSlots name ck m, ∃ seq ck chars, s = .long seq ck chars := by
      intro name ck m
      induction m with
      | zero => exact fun s hs => absurd hs List.not_mem_nil
      | succ m ih =>
        intro s hs
        rcases List.mem_cons.mp hs with rfl | hs
        · exact ⟨_, _, _, rfl⟩
        · exact ih s hs
    intro s hs
    cases hlong : ent.long with
    | none =>
      rw [lead_of_plain hlong] at hs
      exact absurd hs List.not_mem_nil
    | some name =>
      rw [lead_of_long hlong] at hs
      exact hall _ _ _ s hs
  obtain ⟨seq, ck, chars, hs⟩ := hmem _ (List.getElem_mem hj)
  have hread := hr j _ (List.getElem?_eq_getElem hj)
  rw [hs] at hread
  obtain ⟨huse, hlfn, -⟩ := long_of_read hread
  exact ⟨hlfn, huse.not_gone⟩

theorem View.Of.erase (h : w.Of v) {A B : List Item} (hw : w.items = A ++ some ent :: B)
    (hq : q = (A.flatMap itemSlots).length + ent.lead.length) :
    q < slotsOf v w.block ∧
    View.Of (fatWriteBlock v w.block
        (writeBytes (eraseBack (blockAt v w.block) q) (32 * q) [deletedEntry]))
      { block := w.block, items := A ++ (List.replicate ent.slots.length none ++ B), free := w.free } := by
  have hwslots : w.slots = A.flatMap itemSlots ++ ent.slots ++
      (B.flatMap itemSlots ++ List.replicate w.free .last) := by
    unfold View.slots
    rw [hw, List.flatMap_append, List.flatMap_cons, List.append_assoc, List.append_assoc, List.append_assoc]
    rfl
  have hreads := h.reads
  have hlen := h.length
  rw [hwslots] at hreads hlen
  rw [List.length_append, List.length_append, length_slots] at hlen
  have hA : Reads v.kind (blockAt v w.block) 0 (A.flatMap itemSlots) := hreads.left.left
  have hent : Reads v.kind (blockAt v w.block) (A.flatMap itemSlots).length ent.slots := by
    have hr := hreads.left.right
    rwa [Nat.zero_add] at hr
  obtain ⟨hgone, hsame⟩ := @eraseBack_long (blockAt v w.block) ent.lead.length (A.flatMap itemSlots).length
    (fun x hx => no_lead_before hA hx) fun j hj => lead_is_long hent.left hj
  rw [← hq] at hgone hsame
  generalize eraseBack (blockAt v w.block) q = mid at hgone hsame
  have hkeep : ∀ j, (j < (A.flatMap itemSlots).length ∨ q + 1 ≤ j) →
      readSlot v.kind (slotAt (writeBytes mid (32 * q) [deletedEntry]) j) =
        readSlot v.kind (slotAt (blockAt v w.block) j) := by
    intro j hj
    refine readSlot_congr fun x hx => ?_
    rw [slotAt_mark_of_ne mid deletedEntry (by omega) hx]
    exact hsame j (by omega) x hx
  have hall : ∀ j, j < ent.slots.length →
      slotAt (writeBytes mid (32 * q) [deletedEntry]) ((A.flatMap itemSlots).length + j) 0 = deletedEntry := by
    intro j hj
    rw [length_slots] at hj
    rcases Nat.lt_succ_iff_lt_or_eq.mp hj with hj | rfl
    · rw [slotAt_mark_of_ne mid deletedEntry (by omega) (by omega)]
      exact hgone j hj
    · rw [← hq]
      exact slotAt_mark _ _ _
  have hnew : View.slots { block := w.block, items := A ++ (List.replicate ent.slots.length none ++ B), free := w.free } =
      A.flatMap itemSlots ++ List.replicate ent.slots.length .gone ++
        (B.flatMap itemSlots ++ List.replicate w.free .last) := by
    unfold View.slots
    rw [List.flatMap_append, List.flatMap_append, flatMap_gaps]
    simp only [List.append_assoc]
  refine ⟨by omega, ?_, ?_, fun x hx => ?_⟩
  · rw [hnew, blockAt_write_self, kind_write]
    refine Reads.append (Reads.append (hA.congr fun j _ hhi => hkeep j (by omega)) ?_)
      ((?_ : Reads v.kind (blockAt v w.block) _ _).congr fun j hlo hhi => hkeep j ?_)
    · rw [Nat.zero_add]
      exact reads_gaps hall
    · have hr := hreads.right
      rw [List.length_append] at hr ⊢
      rw [List.length_replicate]
      exact hr
    · rw [List.length_append, List.length_replicate, length_slots] at hlo
      omega
  · rw [hnew, slotsOf_congr info_write, List.length_append, List.length_append, List.length_replicate, length_slots]
    exact hlen
  · have hmem : x ∈ (A ++ (List.replicate ent.slots.length none ++ B)).reduceOption := mem_reduceOption.mpr hx
    rw [List.reduceOption_append, List.reduceOption_append, reduceOption_gaps, List.nil_append] at hmem
    have hin : x ∈ (A ++ some ent :: B).reduceOption := by
      rw [List.reduceOption_append, List.reduceOption_cons_of_some]
      rcases List.mem_append.mp hmem with hm | hm
      · exact List.mem_append_left _ hm
      · exact List.mem_append_right _ (List.mem_cons_of_mem _ hm)
    exact h.ok x (mem_reduceOption.mp (hw ▸ hin))

end Ezos.Fat
