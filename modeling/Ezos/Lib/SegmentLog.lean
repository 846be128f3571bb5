import Mathlib.Data.List.Basic
import Mathlib.Logic.Function.Basic

/-!
# Append logs over segments

The blocks of a store stand in segments. A log appends in its current segment, and takes another one when that is full: the
first blank one behind it.
-/

namespace Ezos.Lib.SegmentLog

set_option autoImplicit false

variable {L : Type} [DecidableEq L]

@[ext] structure State (L : Type) where
  used : Nat → Nat → Bool
  seg : L → Nat
  off : L → Nat

section
variable (bps segs : Nat)

def blank (used : Nat → Nat → Bool) (n : Nat) : Bool := (List.range bps).all fun o => !used n o

def nextBlank (used : Nat → Nat → Bool) (a : Nat) : Option Nat := (List.range' a (segs - a)).find? (blank bps used)

def advance (s : State L) (l : L) : Option (State L) :=
  if s.off l < bps then some s
  else (nextBlank bps segs s.used (s.seg l + 1)).map fun n =>
    { s with seg := Function.update s.seg l n, off := Function.update s.off l 0 }

def place (s : State L) (l : L) : Nat × Nat := (s.seg l, s.off l)

def use (s : State L) (n o : Nat) (b : Bool) : State L :=
  { s with used := fun n' o' => if n' = n ∧ o' = o then b else s.used n' o' }

def append (s : State L) (l : L) : State L :=
  { use s (s.seg l) (s.off l) true with off := Function.update s.off l (s.off l + 1) }

def alloc (s : State L) (l : L) : Option (Nat × Nat) × State L :=
  match advance bps segs s l with
  | none => (none, s)
  | some s' => (some (place s' l), append s' l)

structure Sane (s : State L) : Prop where
  seg_lt : ∀ l, s.seg l < segs
  apart : ∀ l l', s.seg l = s.seg l' → l = l'
  fresh : ∀ l o, s.off l ≤ o → o < bps → s.used (s.seg l) o = false

/-- The next request of the log is one that goes well: there is room in its segment, or the segment that is found is nobody's,
or there is no blank segment at all. -/
def Meets (s : State L) (l : L) : Prop :=
  s.off l < bps ∨ (∃ n, nextBlank bps segs s.used (s.seg l + 1) = some n ∧ ∀ l', s.seg l' ≠ n) ∨
    ∀ n < segs, blank bps s.used n = false

/-- What a request should do: give a block that is not in use, leave the logs in segments of their own, and fail only if no
segment is blank. -/
structure Right (s : State L) (l : L) : Prop where
  clear : ∀ p, (alloc bps segs s l).1 = some p → s.used p.1 p.2 = false
  apart : ∀ k k', (alloc bps segs s l).2.seg k = (alloc bps segs s l).2.seg k' → k = k'
  full : (alloc bps segs s l).1 = none → ∀ n < segs, blank bps s.used n = false

end

variable {bps segs : Nat} {s : State L} {l : L} {used : Nat → Nat → Bool}

omit [DecidableEq L] in
theorem used_use (s : State L) (n o : Nat) (b : Bool) (n' o' : Nat) :
    (use s n o b).used n' o' = if n' = n ∧ o' = o then b else s.used n' o' := rfl

theorem blank_iff {n : Nat} : blank bps used n = true ↔ ∀ o < bps, used n o = false := by
  simp [blank]

def tally (bps : Nat) (used : Nat → Nat → Bool) (n : Nat) : Nat := (List.range bps).countP (used n)

theorem blank_iff_tally {n : Nat} : blank bps used n = true ↔ tally bps used n = 0 := by
  rw [blank_iff, tally, List.countP_eq_zero]
  exact ⟨fun h o ho => by rw [h o (List.mem_range.mp ho)]; exact Bool.false_ne_true,
    fun h o ho => Bool.eq_false_iff.mpr (h o (List.mem_range.mpr ho))⟩

theorem tally_le (n : Nat) : tally bps used n ≤ bps :=
  Nat.le_trans List.countP_le_length (Nat.le_of_eq List.length_range)

theorem countP_range_update {f g : Nat → Bool} {o : Nat} (h : ∀ i, i ≠ o → g i = f i) (k : Nat) (ho : o < k) :
    (List.range k).countP g + (f o).toNat = (List.range k).countP f + (g o).toNat := by
  have hsame : ∀ k ≤ o, (List.range k).countP g = (List.range k).countP f := fun k hk =>
    List.countP_congr fun i hi => by rw [h i (Nat.ne_of_lt (Nat.lt_of_lt_of_le (List.mem_range.mp hi) hk))]
  have hone : ∀ b : Bool, (if b = true then 1 else 0) = b.toNat := fun b => by cases b <;> rfl
  induction k with
  | zero => exact absurd ho (Nat.not_lt_zero _)
  | succ k ih =>
    rw [List.range_succ, List.countP_append, List.countP_append, List.countP_singleton, List.countP_singleton, hone, hone]
    by_cases hk : k = o
    · subst hk
      rw [hsame k (Nat.le_refl _)]
      omega
    · rw [h k hk]
      have := ih (by omega)
      omega

omit [DecidableEq L] in
theorem tally_use (s : State L) (n : Nat) {o : Nat} (b : Bool) (ho : o < bps) :
    tally bps (use s n o b).used n + (s.used n o).toNat = tally bps s.used n + b.toNat := by
  have hself : (use s n o b).used n o = b := if_pos ⟨rfl, rfl⟩
  have hother : ∀ i, i ≠ o → (use s n o b).used n i = s.used n i := fun i hi => if_neg fun hno => hi hno.2
  have hcount := countP_range_update hother bps ho
  rwa [hself] at hcount

omit [DecidableEq L] in
theorem tally_use_other (s : State L) {n m : Nat} (o : Nat) (b : Bool) (hne : m ≠ n) :
    tally bps (use s n o b).used m = tally bps s.used m :=
  List.countP_congr fun i _ => by
    have hsame : (use s n o b).used m i = s.used m i := if_neg fun hno => hne hno.1
    rw [hsame]

theorem nextBlank_some {a n : Nat} (h : nextBlank bps segs used a = some n) :
    blank bps used n = true ∧ a ≤ n ∧ n < segs := by
  have hmem := List.mem_of_find?_eq_some h
  rw [List.mem_range'_1] at hmem
  exact ⟨List.find?_some h, hmem.1, by omega⟩

theorem advance_room (h : s.off l < bps) : advance bps segs s l = some s := if_pos h

theorem advance_full (h : bps ≤ s.off l) :
    advance bps segs s l = (nextBlank bps segs s.used (s.seg l + 1)).map fun n =>
      { s with seg := Function.update s.seg l n, off := Function.update s.off l 0 } := if_neg (Nat.not_lt.mpr h)

theorem alloc_none (h : advance bps segs s l = none) : alloc bps segs s l = (none, s) := by
  rw [alloc, h]

theorem alloc_some {s' : State L} (h : advance bps segs s l = some s') :
    alloc bps segs s l = (some (place s' l), append s' l) := by
  rw [alloc, h]

theorem alloc_cases (s : State L) (l : L) :
    (s.off l < bps ∧ alloc bps segs s l = (some (s.seg l, s.off l), append s l)) ∨
    (bps ≤ s.off l ∧ ∃ n, nextBlank bps segs s.used (s.seg l + 1) = some n ∧ alloc bps segs s l = (some (n, 0), append
      { s with seg := Function.update s.seg l n, off := Function.update s.off l 0 } l)) ∨
    (bps ≤ s.off l ∧ nextBlank bps segs s.used (s.seg l + 1) = none ∧ alloc bps segs s l = (none, s)) := by
  rcases Nat.lt_or_ge (s.off l) bps with hroom | hfull
  · exact Or.inl ⟨hroom, alloc_some (advance_room hroom)⟩
  · have hadv := @advance_full L _ bps segs s l hfull
    cases hnext : nextBlank bps segs s.used (s.seg l + 1) with
    | none =>
      rw [hnext, Option.map_none] at hadv
      exact Or.inr (Or.inr ⟨hfull, rfl, alloc_none hadv⟩)
    | some n =>
      rw [hnext, Option.map_some] at hadv
      refine Or.inr (Or.inl ⟨hfull, n, rfl, ?_⟩)
      rw [alloc_some hadv, place]
      dsimp only
      rw [Function.update_self, Function.update_self]

theorem update_apart {seg : L → Nat} (h : ∀ k k', seg k = seg k' → k = k') {n : Nat} (hn : ∀ k, seg k ≠ n) {k k' : L}
    (he : Function.update seg l n k = Function.update seg l n k') : k = k' := by
  by_cases hk : k = l
  · by_cases hk' : k' = l
    · rw [hk, hk']
    · rw [hk, Function.update_self, Function.update_of_ne hk'] at he
      exact absurd he.symm (hn k')
  · by_cases hk' : k' = l
    · rw [hk', Function.update_self, Function.update_of_ne hk] at he
      exact absurd he (hn k)
    · rw [Function.update_of_ne hk, Function.update_of_ne hk'] at he
      exact h k k' he

theorem Sane.right_iff (h : Sane bps segs s) (hpos : 0 < bps) : Right bps segs s l ↔ Meets bps segs s l := by
  rcases @alloc_cases L _ bps segs s l with ⟨hroom, heq⟩ | ⟨hfull, n, hnext, heq⟩ | ⟨hfull, hnext, heq⟩
  · refine iff_of_true ⟨fun p hp => ?_, fun k k' he => ?_, fun hno => ?_⟩ (Or.inl hroom)
    · rw [heq] at hp
      obtain rfl := Option.some.inj hp
      exact h.fresh l _ (Nat.le_refl _) hroom
    · rw [heq] at he
      exact h.apart k k' he
    · rw [heq] at hno
      cases hno
  · obtain ⟨hblank, hlt, hsegs⟩ := nextBlank_some hnext
    constructor
    · intro hright
      refine Or.inr (Or.inl ⟨n, hnext, fun k hk => ?_⟩)
      have hkl : k ≠ l := fun hkl => by
        rw [hkl] at hk
        omega
      refine hkl (hright.apart k l ?_)
      rw [heq]
      dsimp only [append, use]
      rw [Function.update_of_ne hkl, Function.update_self, hk]
    · intro hmeets
      have hown : ∀ k, s.seg k ≠ n := by
        rcases hmeets with hroom | ⟨n', hn', hown⟩ | hnone
        · exact absurd hroom (Nat.not_lt.mpr hfull)
        · rw [hnext] at hn'
          exact Option.some.inj hn' ▸ hown
        · rw [hnone n hsegs] at hblank
          cases hblank
      refine ⟨fun p hp => ?_, fun k k' he => ?_, fun hno => ?_⟩
      · rw [heq] at hp
        obtain rfl := Option.some.inj hp
        exact blank_iff.mp hblank 0 hpos
      · rw [heq] at he
        exact update_apart h.apart hown he
      · rw [heq] at hno
        cases hno
  · constructor
    · intro hright
      exact Or.inr (Or.inr (hright.full (by rw [heq])))
    · intro hmeets
      refine ⟨fun p hp => ?_, fun k k' he => ?_, fun _ => ?_⟩
      · rw [heq] at hp
        cases hp
      · rw [heq] at he
        exact h.apart k k' he
      · rcases hmeets with hroom | ⟨n, hn, _⟩ | hnone
        · exact absurd hroom (Nat.not_lt.mpr hfull)
        · rw [hnext] at hn
          cases hn
        · exact hnone

theorem alloc_fail (h : (alloc bps segs s l).1 = none) : (alloc bps segs s l).2 = s := by
  rcases @alloc_cases L _ bps segs s l with ⟨_, heq⟩ | ⟨_, n, _, heq⟩ | ⟨_, _, heq⟩
  · rw [heq] at h
    cases h
  · rw [heq] at h
    cases h
  · rw [heq]

theorem Sane.alloc_use (h : Sane bps segs s) (hpos : 0 < bps) {p : Nat × Nat} (hp : (alloc bps segs s l).1 = some p) :
    p.1 < segs ∧ p.2 < bps ∧ (alloc bps segs s l).2 = use { (alloc bps segs s l).2 with used := s.used } p.1 p.2 true := by
  rcases @alloc_cases L _ bps segs s l with ⟨hroom, heq⟩ | ⟨_, n, hnext, heq⟩ | ⟨_, _, heq⟩
  · rw [heq] at hp ⊢
    obtain rfl := Option.some.inj hp
    exact ⟨h.seg_lt l, hroom, rfl⟩
  · rw [heq] at hp ⊢
    obtain rfl := Option.some.inj hp
    refine ⟨(nextBlank_some hnext).2.2, hpos, ?_⟩
    dsimp only [append, use]
    rw [Function.update_self, Function.update_self]
  · rw [heq] at hp
    cases hp

theorem Sane.append (h : Sane bps segs s) : Sane bps segs (append s l) := by
  refine ⟨h.seg_lt, h.apart, fun k o hlo hhi => ?_⟩
  have hle : s.off k ≤ o := by
    refine Nat.le_trans ?_ hlo
    dsimp only [SegmentLog.append]
    by_cases hk : k = l
    · rw [hk, Function.update_self]
      exact Nat.le_succ _
    · exact Nat.le_of_eq (Function.update_of_ne hk _ _).symm
  dsimp only [SegmentLog.append, use]
  rw [if_neg, h.fresh k o hle hhi]
  rintro ⟨hseg, rfl⟩
  obtain rfl := h.apart k l hseg
  dsimp only [SegmentLog.append] at hlo
  rw [Function.update_self] at hlo
  omega

theorem Sane.alloc (h : Sane bps segs s) (hm : Meets bps segs s l) : Sane bps segs (alloc bps segs s l).2 := by
  rcases @alloc_cases L _ bps segs s l with ⟨_, heq⟩ | ⟨hfull, n, hnext, heq⟩ | ⟨_, _, heq⟩
  · rw [heq]
    exact h.append
  · rw [heq]
    obtain ⟨hblank, _, hsegs⟩ := nextBlank_some hnext
    have hown : ∀ k, s.seg k ≠ n := by
      rcases hm with hroom | ⟨n', hn', hown⟩ | hnone
      · exact absurd hroom (Nat.not_lt.mpr hfull)
      · rw [hnext] at hn'
        exact Option.some.inj hn' ▸ hown
      · rw [hnone n hsegs] at hblank
        cases hblank
    refine Sane.append ⟨fun k => ?_, fun k k' he => update_apart h.apart hown he, fun k o hlo hhi => ?_⟩
    · dsimp only
      by_cases hk : k = l
      · rw [hk, Function.update_self]
        exact hsegs
      · rw [Function.update_of_ne hk]
        exact h.seg_lt k
    · dsimp only at hlo ⊢
      by_cases hk : k = l
      · rw [hk, Function.update_self]
        exact blank_iff.mp hblank o hhi
      · rw [Function.update_of_ne hk] at hlo ⊢
        exact h.fresh k o hlo hhi
  · rw [heq]
    exact h

omit [DecidableEq L] in
theorem Sane.release (h : Sane bps segs s) (n o : Nat) : Sane bps segs (use s n o false) := by
  refine ⟨h.seg_lt, h.apart, fun k x hlo hhi => ?_⟩
  dsimp only [use]
  by_cases hx : s.seg k = n ∧ x = o
  · rw [if_pos hx]
  · rw [if_neg hx]
    exact h.fresh k x hlo hhi

end Ezos.Lib.SegmentLog
