import Ezos.Erofs.Content

/-!
# Extents of a compressed file

A file is cut into extents; each begins somewhere in a logical cluster of its own and lasts until the next begins. Every logical
cluster is marked by the extent that begins in it, if one does.
-/

namespace Ezos.Erofs

open Lib.Memory

set_option autoImplicit false

/-- An extent: where in its logical cluster it begins, whether it is stored as it is, and its physical cluster. -/
structure Head where
  ofs : Nat
  plain : Bool
  pblk : U32
  blocks : Nat

abbrev Heads := Nat → Option Head

variable {heads : Heads} {lsz size : Nat}

def lastHead (heads : Heads) : Nat → Nat
  | 0 => 0
  | c + 1 => if (heads (c + 1)).isSome then c + 1 else lastHead heads c

theorem lastHead_le (heads : Heads) (c : Nat) : lastHead heads c ≤ c := by
  induction c with
  | zero => exact Nat.le_refl 0
  | succ c ih =>
    rw [lastHead]
    split
    · exact Nat.le_refl _
    · exact Nat.le_succ_of_le ih

theorem lastHead_of_some {c : Nat} {h : Head} (hc : heads c = some h) : lastHead heads c = c := by
  cases c with
  | zero => rfl
  | succ c => rw [lastHead, if_pos (by rw [hc]; rfl)]

theorem lastHead_succ_of_none {c : Nat} (hc : heads (c + 1) = none) : lastHead heads (c + 1) = lastHead heads c := by
  rw [lastHead, if_neg (by rw [hc]; exact Bool.false_ne_true)]

theorem lastHead_some (h0 : (heads 0).isSome) (c : Nat) : ∃ h, heads (lastHead heads c) = some h := by
  induction c with
  | zero => exact Option.isSome_iff_exists.mp h0
  | succ c ih =>
    cases hc : heads (c + 1) with
    | none =>
      rw [lastHead_succ_of_none hc]
      exact ih
    | some h =>
      rw [lastHead_of_some hc]
      exact ⟨h, hc⟩

theorem none_of_lastHead_lt {c j : Nat} (hlt : lastHead heads c < j) (hle : j ≤ c) : heads j = none := by
  induction c with
  | zero => omega
  | succ c ih =>
    cases hc : heads (c + 1) with
    | some h =>
      rw [lastHead_of_some hc] at hlt
      omega
    | none =>
      rw [lastHead_succ_of_none hc] at hlt
      rcases Nat.lt_or_ge c j with hj | hj
      · obtain rfl : j = c + 1 := by omega
        exact hc
      · exact ih hlt hj

structure Cut (heads : Heads) (lsz size : Nat) : Prop where
  first : 0 < size → ∃ h, heads 0 = some h ∧ h.ofs = 0
  ofs_lt : ∀ c h, heads c = some h → h.ofs < lsz
  below : ∀ c h, heads c = some h → c * lsz + h.ofs < size

def begun (heads : Heads) (lsz x : Nat) : Bool := (heads (x / lsz)).any fun h => decide (h.ofs ≤ x % lsz)

def owner (heads : Heads) (lsz x : Nat) : Nat := if begun heads lsz x then x / lsz else lastHead heads (x / lsz - 1)

def headStart (heads : Heads) (lsz c : Nat) : Nat := c * lsz + ((heads c).map Head.ofs).getD 0

def nextTurn (heads : Heads) (lsz x : Nat) : Nat :=
  if begun heads lsz x then (x / lsz + 1) * lsz
  else ((heads (x / lsz)).map fun h => x / lsz * lsz + h.ofs).getD ((x / lsz + 1) * lsz)

theorem begun_of_some {x : Nat} {h : Head} (hx : heads (x / lsz) = some h) : begun heads lsz x = decide (h.ofs ≤ x % lsz) := by
  rw [begun, hx]
  rfl

theorem begun_of_none {x : Nat} (hx : heads (x / lsz) = none) : begun heads lsz x = false := by
  rw [begun, hx]
  rfl

variable (hcut : Cut heads lsz size) (hpos : 0 < lsz)

include hcut

theorem Cut.isSome_zero {x : Nat} (hx : x < size) : (heads 0).isSome := by
  obtain ⟨h, h0, _⟩ := hcut.first (by omega)
  rw [h0]
  rfl

theorem Cut.lastHead_spec {x : Nat} (hx : x < size) (hne : x / lsz ≠ 0) :
    ∃ h, heads (lastHead heads (x / lsz - 1)) = some h ∧ lastHead heads (x / lsz - 1) ≤ x / lsz ∧
      headStart heads lsz (lastHead heads (x / lsz - 1)) ≤ x := by
  have hdiv : x / lsz * lsz + x % lsz = x := Nat.div_add_mod' x lsz
  obtain ⟨h, hh⟩ := lastHead_some (hcut.isSome_zero hx) (x / lsz - 1)
  have hle := lastHead_le heads (x / lsz - 1)
  have hlt := hcut.ofs_lt _ _ hh
  generalize x / lsz = c at *
  have hmul : (lastHead heads (c - 1) + 1) * lsz ≤ c * lsz := Nat.mul_le_mul_right _ (by omega)
  have hsucc : (lastHead heads (c - 1) + 1) * lsz = lastHead heads (c - 1) * lsz + lsz := Nat.succ_mul _ _
  refine ⟨h, hh, by omega, ?_⟩
  rw [headStart, hh, Option.map_some, Option.getD_some]
  omega

theorem Cut.owner_spec {x : Nat} (hx : x < size) :
    ∃ h, heads (owner heads lsz x) = some h ∧ owner heads lsz x ≤ x / lsz ∧ headStart heads lsz (owner heads lsz x) ≤ x := by
  have h0 := hcut.isSome_zero hx
  have hdiv : x / lsz * lsz + x % lsz = x := Nat.div_add_mod' x lsz
  unfold owner
  cases hc : heads (x / lsz) with
  | some h =>
    by_cases hle : h.ofs ≤ x % lsz
    · rw [begun_of_some hc, decide_eq_true hle, if_pos rfl]
      refine ⟨h, hc, Nat.le_refl _, ?_⟩
      rw [headStart, hc, Option.map_some, Option.getD_some]
      omega
    · rw [begun_of_some hc, decide_eq_false hle, if_neg Bool.false_ne_true]
      exact hcut.lastHead_spec hx fun hz => by
        obtain ⟨h', hh, hofs⟩ := hcut.first (by omega)
        rw [hz, hh] at hc
        obtain rfl := Option.some.inj hc
        omega
  | none =>
    rw [begun_of_none hc, if_neg Bool.false_ne_true]
    exact hcut.lastHead_spec hx fun hz => by
      rw [hz] at hc
      rw [hc] at h0
      cases h0

include hpos

omit hcut in
theorem lt_nextTurn (x : Nat) : x < nextTurn heads lsz x := by
  have hdiv : x / lsz * lsz + x % lsz = x := Nat.div_add_mod' x lsz
  have hmod := Nat.mod_lt x hpos
  have hsucc : (x / lsz + 1) * lsz = x / lsz * lsz + lsz := Nat.succ_mul _ _
  unfold nextTurn
  by_cases hb : begun heads lsz x = true
  · rw [if_pos hb]
    omega
  · rw [if_neg hb]
    cases hc : heads (x / lsz) with
    | none =>
      rw [Option.map_none, Option.getD_none]
      omega
    | some h =>
      rw [begun_of_some hc] at hb
      have hlt : ¬ h.ofs ≤ x % lsz := fun hle => hb (decide_eq_true hle)
      rw [Option.map_some, Option.getD_some]
      omega

omit hpos in
theorem Cut.nextTurn_le (x : Nat) : nextTurn heads lsz x ≤ (x / lsz + 1) * lsz := by
  have hsucc : (x / lsz + 1) * lsz = x / lsz * lsz + lsz := Nat.succ_mul _ _
  unfold nextTurn
  by_cases hb : begun heads lsz x = true
  · rw [if_pos hb]
  · rw [if_neg hb]
    cases hc : heads (x / lsz) with
    | none => exact Nat.le_refl _
    | some h =>
      have hlt := hcut.ofs_lt _ _ hc
      rw [Option.map_some, Option.getD_some]
      omega

theorem Cut.owner_eq {la x : Nat} (hlo : la ≤ x) (hhi : x < nextTurn heads lsz la) : owner heads lsz x = owner heads lsz la := by
  have hdiv : la / lsz * lsz + la % lsz = la := Nat.div_add_mod' la lsz
  have hdivx : x / lsz * lsz + x % lsz = x := Nat.div_add_mod' x lsz
  have hend := hcut.nextTurn_le la
  have hsame : x / lsz = la / lsz := by
    apply Nat.le_antisymm
    · exact Nat.le_of_lt_succ ((Nat.div_lt_iff_lt_mul hpos).mpr (Nat.lt_of_lt_of_le hhi hend))
    · exact Nat.div_le_div_right hlo
  have hbegun : begun heads lsz x = begun heads lsz la := by
    rw [hsame] at hdivx
    cases hc : heads (la / lsz) with
    | none => rw [begun_of_none hc, begun_of_none (hsame ▸ hc)]
    | some h =>
      rw [begun_of_some hc, begun_of_some (hsame ▸ hc)]
      unfold nextTurn at hhi
      rw [begun_of_some hc, hc] at hhi
      by_cases hle : h.ofs ≤ la % lsz
      · rw [decide_eq_true hle]
        exact decide_eq_true (by omega)
      · rw [decide_eq_false hle] at hhi ⊢
        rw [if_neg Bool.false_ne_true, Option.map_some, Option.getD_some] at hhi
        exact decide_eq_false (by omega)
  rw [owner, owner, hbegun, hsame]

end Ezos.Erofs
