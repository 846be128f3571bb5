import Mathlib.Data.Finset.Card
import Mathlib.Order.Interval.Finset.Nat

/-!
# Bit sets packed into machine words

A vector of `n` words of `w` bits read as a set of indices below `n * w`. Every
operation is characterised by `bitGet` of its result, so that a client reasons about
membership and never about shifts.
-/

namespace Ezos.Lib.WordBitmap

set_option autoImplicit false

variable {w n : Nat}

def word (bm : Vector (BitVec w) n) (k : Nat) : BitVec w := bm[k]?.getD 0#w

def bitGet (bm : Vector (BitVec w) n) (i : Nat) : Bool :=
  ((word bm (i / w) >>> (i % w)) &&& 1#w) != 0#w

def bitSet (bm : Vector (BitVec w) n) (i : Nat) : Vector (BitVec w) n :=
  bm.setIfInBounds (i / w) (word bm (i / w) ||| (1#w <<< (i % w)))

def bitClear (bm : Vector (BitVec w) n) (i : Nat) : Vector (BitVec w) n :=
  bm.setIfInBounds (i / w) (word bm (i / w) &&& ~~~(1#w <<< (i % w)))

theorem bitGet_eq (hw : 0 < w) (bm : Vector (BitVec w) n) (i : Nat) :
    bitGet bm i = (word bm (i / w)).getLsbD (i % w) := by
  have hlow : ∀ x : BitVec w, (x &&& 1#w != 0#w) = x.getLsbD 0 := by
    intro x
    cases hx : x.getLsbD 0 with
    | false =>
      have hz : x &&& 1#w = 0#w := by
        apply BitVec.eq_of_getLsbD_eq
        intro j hj
        by_cases hj0 : j = 0
        · subst hj0
          simp [hx]
        · simp [hj0]
      simp [hz]
    | true =>
      have hone : (x &&& 1#w).getLsbD 0 = true := by
        rw [BitVec.getLsbD_and, hx, BitVec.getLsbD_one]
        simp [hw]
      simp only [bne_iff_ne, ne_eq]
      intro hz
      simp [hz] at hone
  rw [bitGet, hlow, BitVec.getLsbD_ushiftRight, Nat.add_zero]

theorem word_setIfInBounds (bm : Vector (BitVec w) n) (k l : Nat) (v : BitVec w) (hk : k < n) :
    word (bm.setIfInBounds k v) l = if k = l then v else word bm l := by
  unfold word
  rw [Vector.getElem?_setIfInBounds]
  split
  · simp
  · rfl

theorem div_mod_ne {i j : Nat} (h : i ≠ j) (hd : i / w = j / w) : i % w ≠ j % w := by
  intro hm
  apply h
  rw [← Nat.div_add_mod i w, ← Nat.div_add_mod j w, hd, hm]

theorem getLsbD_one_shiftLeft (hw : 0 < w) {i j : Nat} :
    (1#w <<< (i % w)).getLsbD (j % w) = decide (i % w = j % w) := by
  have hi := Nat.mod_lt i hw
  have hj := Nat.mod_lt j hw
  rw [BitVec.getLsbD_shiftLeft, BitVec.getLsbD_one]
  by_cases h : i % w = j % w
  · simp [h, hj, hw]
  · by_cases hlt : j % w < i % w
    · simp [hlt, h]
    · simp only [hj, hlt, h, hw, decide_true, decide_false, Bool.not_false, Bool.true_and]
      simp
      omega

@[simp] theorem bitGet_bitSet (hw : 0 < w) (bm : Vector (BitVec w) n) {i : Nat} (hi : i < w * n)
    (j : Nat) : bitGet (bitSet bm i) j = (decide (i = j) || bitGet bm j) := by
  have hk : i / w < n := Nat.div_lt_of_lt_mul hi
  rw [bitGet_eq hw, bitGet_eq hw, bitSet, word_setIfInBounds _ _ _ _ hk]
  by_cases hd : i / w = j / w
  · rw [if_pos hd, BitVec.getLsbD_or, getLsbD_one_shiftLeft hw, hd, Bool.or_comm]
    by_cases hij : i = j
    · simp [hij]
    · simp [hij, div_mod_ne hij hd]
  · have hij : i ≠ j := fun h => hd (h ▸ rfl)
    simp [hd, hij]

@[simp] theorem bitGet_bitClear (hw : 0 < w) (bm : Vector (BitVec w) n) {i : Nat} (hi : i < w * n)
    (j : Nat) : bitGet (bitClear bm i) j = (!decide (i = j) && bitGet bm j) := by
  have hk : i / w < n := Nat.div_lt_of_lt_mul hi
  have hj := Nat.mod_lt j hw
  rw [bitGet_eq hw, bitGet_eq hw, bitClear, word_setIfInBounds _ _ _ _ hk]
  by_cases hd : i / w = j / w
  · rw [if_pos hd, BitVec.getLsbD_and, BitVec.getLsbD_not, getLsbD_one_shiftLeft hw, hd,
      Bool.and_comm]
    by_cases hij : i = j
    · simp [hij]
    · simp [hij, div_mod_ne hij hd, hj]
  · have hij : i ≠ j := fun h => hd (h ▸ rfl)
    simp [hd, hij]

/-- `for (k = 0; k < m; k++) bit_set(first + k)`. -/
def setRange (bm : Vector (BitVec w) n) (first m : Nat) : Vector (BitVec w) n :=
  (List.range m).foldl (fun b k => bitSet b (first + k)) bm

def clearRange (bm : Vector (BitVec w) n) (first m : Nat) : Vector (BitVec w) n :=
  (List.range m).foldl (fun b k => bitClear b (first + k)) bm

theorem bitGet_setRange (hw : 0 < w) (bm : Vector (BitVec w) n) {first m : Nat}
    (hm : first + m ≤ w * n) (j : Nat) :
    bitGet (setRange bm first m) j = (decide (first ≤ j ∧ j < first + m) || bitGet bm j) := by
  induction m with
  | zero =>
    have hn : ¬ (first ≤ j ∧ j < first + 0) := by omega
    rw [decide_eq_false hn, Bool.false_or]
    rfl
  | succ m ih =>
    have hstep : setRange bm first (m + 1) = bitSet (setRange bm first m) (first + m) := by
      simp [setRange, List.range_succ]
    rw [hstep, bitGet_bitSet hw _ (by omega), ih (by omega), ← Bool.or_assoc]
    congr 1
    rw [← Bool.decide_or]
    apply decide_eq_decide.mpr
    omega

theorem bitGet_clearRange (hw : 0 < w) (bm : Vector (BitVec w) n) {first m : Nat}
    (hm : first + m ≤ w * n) (j : Nat) :
    bitGet (clearRange bm first m) j = (!decide (first ≤ j ∧ j < first + m) && bitGet bm j) := by
  induction m with
  | zero =>
    have hn : ¬ (first ≤ j ∧ j < first + 0) := by omega
    rw [decide_eq_false hn, Bool.not_false, Bool.true_and]
    rfl
  | succ m ih =>
    have hstep : clearRange bm first (m + 1) = bitClear (clearRange bm first m) (first + m) := by
      simp [clearRange, List.range_succ]
    rw [hstep, bitGet_bitClear hw _ (by omega), ih (by omega), ← Bool.and_assoc]
    congr 1
    rw [← Bool.not_or, ← Bool.decide_or]
    congr 1
    apply decide_eq_decide.mpr
    omega

def members (bm : Vector (BitVec w) n) : Finset Nat :=
  (Finset.range (w * n)).filter (fun i => bitGet bm i = true)

theorem mem_members {bm : Vector (BitVec w) n} {i : Nat} :
    i ∈ members bm ↔ i < w * n ∧ bitGet bm i = true := by
  simp [members]

theorem members_setRange (hw : 0 < w) (bm : Vector (BitVec w) n) {first m : Nat}
    (hm : first + m ≤ w * n) :
    members (setRange bm first m) = members bm ∪ Finset.Ico first (first + m) := by
  ext i
  simp only [mem_members, bitGet_setRange hw bm hm, Finset.mem_union, Finset.mem_Ico,
    Bool.or_eq_true, decide_eq_true_eq]
  constructor
  · rintro ⟨hi, hr | hb⟩
    · exact Or.inr hr
    · exact Or.inl ⟨hi, hb⟩
  · rintro (⟨hi, hb⟩ | hr)
    · exact ⟨hi, Or.inr hb⟩
    · exact ⟨by omega, Or.inl hr⟩

theorem members_clearRange (hw : 0 < w) (bm : Vector (BitVec w) n) {first m : Nat}
    (hm : first + m ≤ w * n) :
    members (clearRange bm first m) = members bm \ Finset.Ico first (first + m) := by
  ext i
  simp only [mem_members, bitGet_clearRange hw bm hm, Finset.mem_sdiff, Finset.mem_Ico,
    Bool.and_eq_true, Bool.not_eq_true', decide_eq_false_iff_not]
  constructor
  · rintro ⟨hi, hr, hb⟩
    exact ⟨⟨hi, hb⟩, hr⟩
  · rintro ⟨⟨hi, hb⟩, hr⟩
    exact ⟨hi, hr, hb⟩

theorem card_members_setRange (hw : 0 < w) (bm : Vector (BitVec w) n) {first m : Nat}
    (hm : first + m ≤ w * n) (hfree : ∀ k < m, bitGet bm (first + k) = false) :
    (members (setRange bm first m)).card = (members bm).card + m := by
  rw [members_setRange hw bm hm, Finset.card_union_of_disjoint, Nat.card_Ico,
    Nat.add_sub_cancel_left]
  rw [Finset.disjoint_left]
  intro i hi hr
  obtain ⟨hlo, hhi⟩ := Finset.mem_Ico.mp hr
  have hf := hfree (i - first) (by omega)
  rw [Nat.add_sub_cancel' hlo] at hf
  simp [mem_members, hf] at hi

theorem card_members_clearRange (hw : 0 < w) (bm : Vector (BitVec w) n) {first m : Nat}
    (hm : first + m ≤ w * n) (hused : ∀ k < m, bitGet bm (first + k) = true) :
    (members (clearRange bm first m)).card = (members bm).card - m := by
  rw [members_clearRange hw bm hm, Finset.card_sdiff_of_subset, Nat.card_Ico,
    Nat.add_sub_cancel_left]
  intro i hr
  obtain ⟨hlo, hhi⟩ := Finset.mem_Ico.mp hr
  have hu := hused (i - first) (by omega)
  rw [Nat.add_sub_cancel' hlo] at hu
  exact mem_members.mpr ⟨by omega, hu⟩

theorem card_members_le (bm : Vector (BitVec w) n) : (members bm).card ≤ w * n := by
  calc (members bm).card ≤ (Finset.range (w * n)).card := Finset.card_filter_le _ _
    _ = w * n := Finset.card_range _

theorem bitGet_replicate_zero (hw : 0 < w) (i : Nat) :
    bitGet (Vector.replicate n 0#w) i = false := by
  have hword : word (Vector.replicate n 0#w) (i / w) = 0#w := by
    unfold word
    rw [Vector.getElem?_replicate]
    split <;> rfl
  rw [bitGet_eq hw, hword, BitVec.getLsbD_zero]

theorem members_replicate_zero (hw : 0 < w) : members (Vector.replicate n 0#w) = ∅ := by
  ext i
  simp [mem_members, bitGet_replicate_zero hw]

end Ezos.Lib.WordBitmap
